import BladeView.Expression.Callee
import BladeView.Expression.Bindings
import BladeView.TopLevel
import BladeView.Name

/-!
# From template expressions to script expressions

Template expressions have sigils on variables, arrows for members, dots for concatenation, and
arrays that may be keyed. The script form is written in one pass from left to right. What a sign
means depends on the token before it and on the last character written; the inside of a bracketed
array or index is converted by itself.
-/
namespace BladeView.Expression

/-- The token before a position. -/
inductive Before where
  | nothing
  | word (name : Text)
  | sign (c : Char)
  | literal

namespace Before

/-- A bracket that follows is an index, not an array: it follows something with a value. -/
def takesIndex : Before → Bool
  | nothing => false
  | word name => !Callee.isKeyword name || name == "this".toList
  | sign c => c == ')' || c == ']'
  | literal => true

/-- A name that follows cannot be a plain call: it is a member, or is being constructed or
defined. -/
def hidesCall : Before → Bool
  | sign c => c == '.'
  | word name => name == "new".toList || name == "function".toList
  | _ => false

end Before

/-- A pass over an expression: the token before, the character before, and the output so far, the
last character first. -/
structure Pass where
  before : Before := .nothing
  last : Option Char := none
  written : Text := []

namespace Pass

/-- The last character written belongs to a name. -/
def endsName (p : Pass) : Bool := p.written.head?.any isNameChar

/-- Writes a text after what is written. -/
def write (p : Pass) (t : Text) : Pass := { p with written := t.reverse ++ p.written }

/-- Writes a token. -/
def token (p : Pass) (t : Text) (kind : Before) : Pass := { p.write t with before := kind }

end Pass

/-! ## Literals -/

/-- The rest of a quoted literal with its closing mark, or all there is if it is not closed. -/
def quotedRest (quote : Char) : Text → Text
  | [] => []
  | c :: cs =>
    if c == '\\' then
      match cs with
      | [] => [c]
      | d :: ds => c :: d :: quotedRest quote ds
    else if c == quote then [c]
    else c :: quotedRest quote cs

/-- A literal as the script writes it: single quotes become double quotes where the inside needs
no escape. -/
def literal (t : Text) : Text :=
  match Text.enclosed? '\x27' '\x27' t with
  | some inner =>
    if inner.any fun c => c == '\x22' || c == '\\' then t else "\"" ++ inner ++ "\""
  | none => t

/-- The digits, letters and inner points of a number. -/
def number : Text → Text
  | [] => []
  | c :: cs =>
    if c.isAlphanum || c == '_' || (c == '.' && cs.head?.any Char.isDigit) then c :: number cs
    else []

/-! ## Concatenation -/

def isStringQuote (c : Char) : Bool := c == '\x27' || c == '\x22'

/-- A dot concatenates if it touches a string, if a sigil follows, or if it has blanks on both
sides. -/
def concatenates (last : Option Char) (rest : Text) : Bool :=
  last.any isStringQuote || rest.head?.any (fun c => isStringQuote c || c == '$') ||
    (last.any isBlank && rest.head?.any isBlank)

/-! ## Arrays -/

/-- Whether a text may be the key of an array's entry: a literal, or a name, number or path. -/
def isKey (key : Text) : Bool :=
  (Name.unquote? key).isSome ||
    (!key.isEmpty && (key.dropWhile (· == '$')).all fun c =>
      isPlainChar c || c == '.' || c == '-')

/-- The key and the value of a keyed entry. -/
def pair? (item : Text) : Option (Text × Text) :=
  match TopLevel.cut? "=>" item with
  | some (left, right) =>
    if isKey (Text.trim left) then some (Text.trim left, Text.trim right) else none
  | none => none

/-- An entry's key in an object. A variable is a computed key. -/
def key (convert : Text → Text) (t : Text) : Text :=
  if (Name.unquote? t).isSome then convert t
  else if t.all Char.isDigit then "\"" ++ t ++ "\""
  else if t.head? == some '$' then "[" ++ convert t ++ "]"
  else "\"" ++ t ++ "\""

/-- The entries of an object. Entries without a key are numbered from `index` on. -/
def entries (convert : Text → Text) (index : Nat) : List Text → List Text
  | [] => []
  | item :: items =>
    match pair? item with
    | some (left, right) => (key convert left ++ ": " ++ convert right) :: entries convert index items
    | none =>
      ("\"" ++ Text.ofNat index ++ "\": " ++ convert item) :: entries convert (index + 1) items

/-- An array literal: an object if any entry is keyed. -/
def array (convert : Text → Text) (inner : Text) : Text :=
  let items := TopLevel.split inner
  if items.any fun item => (pair? item).isSome then
    "\x7b" ++ Text.join ", " (entries convert 0 items) ++ "\x7d"
  else "[" ++ Text.join ", " (items.map convert) ++ "]"

/-! ## The pass -/

/-- A call by a plain name is qualified, unless the name is a word of the script language, a
global, a bound name, a member, or holds a dollar sign. -/
def isRouted (bindings : Bindings) (name : Text) (before : Before) : Bool :=
  !(name.any (· == '$') || Callee.isKeyword name || Callee.isGlobal name || before.hidesCall ||
    bindings.has name)

/-- Reads a name that is no variable. The arrow-function word before a parameter list is left out;
a name before a parameter list is a call. -/
def nameStep (bindings : Bindings) (p : Pass) (t : Text) : Pass × Nat :=
  let name := t.takeWhile isNameChar
  let rest := t.dropWhile isNameChar
  let isCall := (Text.trimStart rest).head? == some '('
  if isCall && name == "fn".toList then
    (p, name.length + (rest.takeWhile isBlank).length - 1)
  else if isCall && isRouted bindings name p.before then
    (p.token (Callee.qualify name) (.word name), name.length - 1)
  else (p.token name (.word name), name.length - 1)

/-- Reads a dot: a spread, an appending assignment, a concatenation or a member access. -/
def dotStep (p : Pass) (rest : Text) : Pass × Nat :=
  if Text.startsWith ".." rest then (p.token "..." (.sign ','), 2)
  else if rest.head? == some '=' then (p.token "+=" (.sign '='), 1)
  else if concatenates p.last rest then
    ({ p with written := p.written.dropWhile isBlank }.token " + " (.sign '+'),
      (rest.takeWhile isBlank).length)
  else (p.token "." (.sign '.'), 0)

/-- Reads a bracket: an index or an array, converted inside, or the bare sign if it is not
closed. -/
def bracketStep (convert : Text → Text) (p : Pass) (t : Text) : Pass × Nat :=
  match Group.read? t with
  | none => (p.token "[" (.sign '['), 0)
  | some (inner, _) =>
    let script :=
      if p.before.takesIndex then "[" ++ convert inner ++ "]" else array convert inner
    (p.token script (.sign ']'), inner.length + 1)

/-- Reads the token at the front of `c :: cs` and writes its script form. Gives the number of
further characters that were read. -/
def step (bindings : Bindings) (convert : Text → Text) (p : Pass) (c : Char) (cs : Text) :
    Pass × Nat :=
  if c == '\\' then (p.write (c :: cs.take 1), 1)
  else if isQuote c then
    let read := c :: quotedRest c cs
    (p.token (literal read) .literal, read.length - 1)
  else if c == '$' && cs.head?.any isNameStart && !p.endsName then
    let name := cs.takeWhile isNameChar
    (p.token name (.word name), name.length)
  else if isNameChar c && p.endsName then (p.write [c], 0)
  else if isNameStart c then nameStep bindings p (c :: cs)
  else if c.isDigit then
    let read := number (c :: cs)
    (p.token read .literal, read.length - 1)
  else if Text.startsWith "->" (c :: cs) then (p.token "." (.sign '.'), 1)
  else if Text.startsWith "?->" (c :: cs) then (p.token "?." (.sign '.'), 2)
  else if Text.startsWith "?." (c :: cs) then (p.token "?." (.sign '.'), 1)
  else if Text.startsWith "::" (c :: cs) then (p.token "." (.sign '.'), 1)
  else if c == '.' then dotStep p cs
  else if c == '[' then bracketStep convert p (c :: cs)
  else if isBlank c then (p.write [c], 0)
  else (p.token [c] (.sign c), 0)

/-- The pass from a position on; `jump` characters have been read already. -/
def run (bindings : Bindings) (convert : Text → Text) (p : Pass) : Nat → Text → Text
  | _, [] => p.written.reverse
  | jump + 1, c :: cs => run bindings convert { p with last := some c } jump cs
  | 0, c :: cs =>
    match step bindings convert p c cs with
    | (p', jump) => run bindings convert { p' with last := some c } jump cs

/-- The script form of an expression whose brackets nest less than `depth` deep. -/
def toScriptWithin (bindings : Bindings) : Nat → Text → Text
  | 0, t => t
  | depth + 1, t => run bindings (toScriptWithin bindings depth) {} 0 (Text.trim t)

/-- The script form of an expression, blanks around it left aside. Brackets cannot nest deeper
than the text is long. -/
def toScript (bindings : Bindings) (t : Text) : Text := toScriptWithin bindings (t.length + 1) t

end BladeView.Expression
