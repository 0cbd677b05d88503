import BladeView.Text.Basic

/-!
# Balanced groups

Argument lists, interpolations, array literals and configuration objects are all groups: an
opening delimiter, the text inside, and the delimiter that closes it. Inside a group only
delimiters of its own kind nest. Quoted runs hide delimiters, and a backslash hides the character
after it, inside quotes and out.
-/
namespace BladeView

/-- The quotation marks: apostrophe, double quote and backtick. -/
def isQuote (c : Char) : Bool := c == '\x27' || c == '\x22' || c == '\x60'

namespace Group

/-- The delimiter that closes a group. -/
def closer? : Char → Option Char
  | '(' => some ')'
  | '\x7b' => some '\x7d'
  | '[' => some ']'
  | _ => none

/-- Puts characters before the inside of a group that was read further on. -/
def extend (before : Text) (read : Option (Text × Text)) : Option (Text × Text) :=
  read.map fun group => (before ++ group.1, group.2)

/-- Reads the inside of a group up to its closing delimiter. `depth` counts the groups of the same
kind that are open within it, and `quote` is the mark of the quoted run the text is in. Gives the
inside and what follows the closer; there is no group if the text ends first. -/
def inside? (opening closing : Char) (depth : Nat) (quote : Option Char) :
    Text → Option (Text × Text)
  | [] => none
  | c :: cs =>
    if c == '\\' then
      match cs with
      | [] => none
      | d :: ds => extend [c, d] (inside? opening closing depth quote ds)
    else
      match quote with
      | some q =>
        extend [c] (inside? opening closing depth (if c == q then none else some q) cs)
      | none =>
        if isQuote c then extend [c] (inside? opening closing depth (some c) cs)
        else if c == opening then extend [c] (inside? opening closing (depth + 1) none cs)
        else if c == closing then
          match depth with
          | 0 => some ([], cs)
          | outer + 1 => extend [c] (inside? opening closing outer none cs)
        else extend [c] (inside? opening closing depth none cs)

/-- Reads the group at the front of a text: its inside and what follows its closer. -/
def read? : Text → Option (Text × Text)
  | [] => none
  | c :: cs =>
    match closer? c with
    | some closing => inside? c closing 0 none cs
    | none => none

/-- Reads an argument list in parentheses, which spaces and tabs may precede. -/
def args? (t : Text) : Option (Text × Text) :=
  match t.dropWhile isSpaceOrTab with
  | '(' :: cs => read? ('(' :: cs)
  | _ => none

/-- An opening parenthesis comes next, after spaces and tabs. -/
def opensArgs (t : Text) : Bool := Text.startsWith "(" (t.dropWhile isSpaceOrTab)

/-! ## Offsets -/

/-- A group by the byte offsets of its delimiters. -/
structure Span where
  opening : Nat
  closing : Nat
  inner : Text

namespace Span

/-- The offset just past the closing delimiter. -/
def ending (s : Span) : Nat := s.closing + 1

end Span

/-- The group whose opening delimiter stands at a byte offset. -/
def at? (t : Text) (offset : Nat) : Option Span := do
  let (inner, _) ← read? (← Text.fromByte? offset t)
  return ⟨offset, offset + 1 + Text.byteSize inner, inner⟩

/-- The argument list that starts at a byte offset, or after spaces and tabs there. -/
def argsAt? (t : Text) (offset : Nat) : Option Span := do
  let rest ← Text.fromByte? offset t
  let (inner, _) ← args? rest
  let opening := offset + (rest.takeWhile isSpaceOrTab).length
  return ⟨opening, opening + 1 + Text.byteSize inner, inner⟩

end Group
end BladeView
