import BladeView.Group

/-!
# The top level of a text

Arguments are separated, and keys are told from values, at the top level of a text: outside every
quoted run and every bracket. All three kinds of brackets count together here, opening ones up and
closing ones down, so a text with stray closers may leave the top level and come back to it.
-/
namespace BladeView

/-- Where a reader stands: the quoted run it is in, and how many more brackets were opened than
closed. The count has no bound; texts with fewer than `2 ^ 31` brackets are meant, for which 32 bits
hold it. -/
structure Level where
  quote : Option Char
  depth : Int

namespace Level

/-- The level at the start of a text. -/
def start : Level := ⟨none, 0⟩

def isOpening (c : Char) : Bool := c == '(' || c == '[' || c == '\x7b'

def isClosing (c : Char) : Bool := c == ')' || c == ']' || c == '\x7d'

/-- The level after one more character, which no backslash precedes. -/
def next (l : Level) (c : Char) : Level :=
  match l.quote with
  | some q => if c == q then { l with quote := none } else l
  | none =>
    if isQuote c then { l with quote := some c }
    else if isOpening c then { l with depth := l.depth + 1 }
    else if isClosing c then { l with depth := l.depth - 1 }
    else l

/-- Whether this is the top level. -/
def isTop (l : Level) : Bool := l.quote.isNone && l.depth == 0

/-- Whether a character read at this level belongs to the top level. Quotation marks and brackets
never do. -/
def sees (l : Level) (c : Char) : Bool := l.isTop && !(isQuote c || isOpening c || isClosing c)

end Level

namespace TopLevel

/-- The pieces between the top-level occurrences of a separator byte, at least one. A text can be
cut only between characters, so there are none if the byte is met within a character. -/
def pieces? (separator : UInt8) (level : Level) : Text → Option (List Text)
  | [] => some [[]]
  | c :: cs =>
    if c == '\\' then
      match cs with
      | [] => some [[c]]
      | d :: ds =>
        -- Of the next character a backslash hides the first byte only.
        if level.isTop && (String.utf8EncodeChar d).tail.contains separator then none
        else (pieces? separator level ds).map fun ps => Text.consFirst c (Text.consFirst d ps)
    else if level.sees c && (String.utf8EncodeChar c).contains separator then
      if c.toNat < 0x80 then (pieces? separator level cs).map ([] :: ·) else none
    else (pieces? separator (level.next c) cs).map (Text.consFirst c)

/-- Drops the last of a list of parts if nothing is in it. -/
def dropEmptyLast : List Text → List Text
  | [] => []
  | [part] => if part.isEmpty then [] else [part]
  | part :: parts => part :: dropEmptyLast parts

/-- The trimmed parts between top-level separators. A separator at the end opens no part. -/
def split? (separator : UInt8) (t : Text) : Option (List Text) :=
  (pieces? separator Level.start t).map fun pieces => dropEmptyLast (pieces.map Text.trim)

/-- The parts between top-level commas. -/
def split (t : Text) : List Text := (split? ','.toUInt8 t).getD []

/-- A text cut before the first top-level character at which `found` holds; `found` sees the
character before and the text from there on. -/
def cutWhere? (found : Option Char → Text → Bool) (level : Level) (before : Option Char) :
    Text → Option (Text × Text)
  | [] => none
  | c :: cs =>
    if c == '\\' then
      match cs with
      | [] => none
      | d :: ds => Group.extend [c, d] (cutWhere? found level (some d) ds)
    else if level.sees c && found before (c :: cs) then some ([], c :: cs)
    else Group.extend [c] (cutWhere? found (level.next c) (some c) cs)

/-- A text cut at the first top-level occurrence of a piece: what comes before and after it. -/
def cut? (piece t : Text) : Option (Text × Text) := do
  if piece.isEmpty then none
  else
    let (left, rest) ← cutWhere? (fun _ t => Text.startsWith piece t) Level.start none t
    return (left, rest.drop piece.length)

/-- Whether an equals sign at the front of a text assigns: it is no part of `==`, `=>`, `!=`, `<=`
or `>=`. -/
def assigns (before : Option Char) : Text → Bool
  | [] => false
  | c :: cs =>
    c == '=' && !(before.any ['=', '!', '<', '>'].contains) && !(cs.head?.any ['=', '>'].contains)

/-- The two sides of the first top-level assignment. -/
def assignment? (t : Text) : Option (Text × Text) := do
  let (left, rest) ← cutWhere? assigns Level.start none t
  return (left, rest.drop 1)

end TopLevel
end BladeView
