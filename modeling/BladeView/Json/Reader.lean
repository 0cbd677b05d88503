import BladeView.Json.Basic

/-!
# Reading JSON

A strict reader: no comments, no trailing commas, nothing after the value but blanks.
-/
namespace BladeView.Json

/-! ## Strings -/

/-- A unit of a string: a character, or half of a surrogate pair. -/
inductive CodeUnit where
  | char (c : Char)
  | half (n : Nat)

/-- The value of a hexadecimal digit. -/
def hexDigit? (c : Char) : Option Nat :=
  if '0' ≤ c && c ≤ '9' then some (c.toNat - '0'.toNat)
  else if 'a' ≤ c && c ≤ 'f' then some (c.toNat - 'a'.toNat + 10)
  else if 'A' ≤ c && c ≤ 'F' then some (c.toNat - 'A'.toNat + 10)
  else none

/-- The unit that four hexadecimal digits stand for. -/
def hexUnit? (a b c d : Char) : Option CodeUnit := do
  let n := (((← hexDigit? a) * 16 + (← hexDigit? b)) * 16 + (← hexDigit? c)) * 16 + (← hexDigit? d)
  return if 0xD800 ≤ n && n < 0xE000 then .half n else .char (Char.ofNat n)

/-- The character that a letter after a backslash stands for. -/
def escape? : Char → Option Char
  | '\x22' => some '\x22'
  | '\\' => some '\\'
  | '/' => some '/'
  | 'b' => some '\x08'
  | 'f' => some '\x0c'
  | 'n' => some '\n'
  | 'r' => some '\r'
  | 't' => some '\t'
  | _ => none

/-- Reads the inside of a string up to its closing quote. Control characters must be escaped. -/
def units? : Text → Option (List CodeUnit × Text)
  | [] => none
  | '\x22' :: rest => some ([], rest)
  | '\\' :: 'u' :: a :: b :: c :: d :: rest => do
    let unit ← hexUnit? a b c d
    let (units, rest) ← units? rest
    return (unit :: units, rest)
  | '\\' :: e :: rest => do
    let c ← escape? e
    let (units, rest) ← units? rest
    return (.char c :: units, rest)
  | c :: rest =>
    if c.toNat < 0x20 || c == '\\' then none
    else do
      let (units, rest) ← units? rest
      return (.char c :: units, rest)

/-- The text of some units. The halves of a pair must stand together. -/
def joinUnits? : List CodeUnit → Option Text
  | [] => some []
  | .char c :: units => (joinUnits? units).map (c :: ·)
  | .half high :: .half low :: units =>
    if high < 0xDC00 && 0xDC00 ≤ low then
      (joinUnits? units).map
        (Char.ofNat (0x10000 + (high - 0xD800) * 0x400 + (low - 0xDC00)) :: ·)
    else none
  | .half _ :: _ => none

/-- Reads a string after its opening quote. -/
def string? (t : Text) : Option (Option Text × Text) :=
  (units? t).map fun found => (joinUnits? found.1, found.2)

/-! ## Numbers -/

/-- Reads digits, at least one. -/
def digits? (t : Text) : Option (Text × Text) :=
  if t.head?.any Char.isDigit then some (t.takeWhile Char.isDigit, t.dropWhile Char.isDigit)
  else none

/-- Reads the whole part of a number; a zero stands alone. -/
def whole? : Text → Option (Text × Text)
  | '0' :: rest => some (['0'], rest)
  | t => digits? t

/-- Reads the fraction of a number, if a point announces one. -/
def fraction? : Text → Option (Text × Text)
  | '.' :: rest => (digits? rest).map fun found => ('.' :: found.1, found.2)
  | t => some ([], t)

/-- Reads the exponent of a number, if a letter announces one. -/
def exponent? : Text → Option (Text × Text)
  | e :: rest =>
    if e == 'e' || e == 'E' then
      let sign := rest.take 1 |>.filter fun c => c == '+' || c == '-'
      (digits? (rest.drop sign.length)).map fun found => (e :: sign ++ found.1, found.2)
    else some ([], e :: rest)
  | [] => some ([], [])

/-- Reads a number. -/
def number? (t : Text) : Option (Json × Text) := do
  let sign := t.take 1 |>.filter (· == '-')
  let (whole, rest) ← whole? (t.drop sign.length)
  let (fraction, rest) ← fraction? rest
  let (exponent, rest) ← exponent? rest
  return (.number (sign ++ whole ++ fraction ++ exponent), rest)

/-! ## Values -/

/-- Drops the blanks that may stand between the parts of a document. -/
def skip (t : Text) : Text := t.dropWhile fun c => c == ' ' || c == '\n' || c == '\t' || c == '\r'

/-- Reads a word that stands for a value. -/
def constant? (t : Text) : Option (Json × Text) :=
  ([("null", Json.null), ("true", .bool true), ("false", .bool false)] :
    List (Text × Json)).findSome? fun entry =>
      (Text.after? entry.1 t).map fun rest => (entry.2, rest)

mutual

/-- Reads a value with at most `fuel` nested steps. -/
def value? (fuel : Nat) (t : Text) : Option (Json × Text) :=
  match fuel with
  | 0 => none
  | fuel + 1 =>
    match skip t with
    | '\x22' :: rest => (string? rest).map fun found => (.string found.1, found.2)
    | '[' :: rest =>
      match skip rest with
      | ']' :: after => some (.array [], after)
      | _ => (items? fuel rest).map fun found => (.array found.1, found.2)
    | '\x7b' :: rest =>
      match skip rest with
      | '\x7d' :: after => some (.object [], after)
      | _ => (entries? fuel rest).map fun found => (.object found.1, found.2)
    | t => (constant? t).or (number? t)

/-- Reads the items of an array, at least one, and its closing bracket. -/
def items? (fuel : Nat) (t : Text) : Option (List Json × Text) :=
  match fuel with
  | 0 => none
  | fuel + 1 => do
    let (item, rest) ← value? fuel t
    match skip rest with
    | ',' :: rest =>
      let (items, rest) ← items? fuel rest
      return (item :: items, rest)
    | ']' :: rest => return ([item], rest)
    | _ => none

/-- Reads the entries of an object, at least one, and its closing brace. -/
def entries? (fuel : Nat) (t : Text) : Option (List (Option Text × Json) × Text) :=
  match fuel with
  | 0 => none
  | fuel + 1 => do
    let (key, rest) ← string? (← Text.after? "\"" (skip t))
    let (value, rest) ← value? fuel (← Text.after? ":" (skip rest))
    match skip rest with
    | ',' :: rest =>
      let (entries, rest) ← entries? fuel rest
      return ((key, value) :: entries, rest)
    | '\x7d' :: rest => return ([(key, value)], rest)
    | _ => none

end

/-- The value of a document. Each character allows two nested steps. -/
def read? (t : Text) : Option Json := do
  let (value, rest) ← value? (2 * t.length + 2) t
  if (skip rest).isEmpty then some value else none

end BladeView.Json
