import BladeView.Text.Blank

/-!
# Cutting and joining text

The operations on texts that the rest of the library is written with: tests at the front and at
the end, search, lines, replacement, and the measure in bytes.
-/
namespace BladeView.Text

/-! ## Ends -/

/-- The rest of a text after a piece that stands at its front. -/
def after? : Text → Text → Option Text
  | [], t => some t
  | _ :: _, [] => none
  | p :: ps, c :: cs => if p == c then after? ps cs else none

/-- Whether a text begins with a piece. -/
def startsWith (piece t : Text) : Bool := piece.isPrefixOf t

/-- Whether a text ends with a piece. -/
def endsWith (piece t : Text) : Bool := piece.isSuffixOf t

/-- What stands between two characters that open and close the whole text. -/
def enclosed? (opening closing : Char) : Text → Option Text
  | [] => none
  | c :: cs =>
    if c == opening then
      match cs.reverse with
      | [] => none
      | d :: inner => if d == closing then some inner.reverse else none
    else none

/-! ## Search -/

/-- A text cut at the first occurrence of a piece: what comes before it and what comes after. -/
def cut? (piece : Text) : Text → Option (Text × Text)
  | [] => if piece.isEmpty then some ([], []) else none
  | c :: cs =>
    match after? piece (c :: cs) with
    | some rest => some ([], rest)
    | none => (cut? piece cs).map fun cut => (c :: cut.1, cut.2)

/-- Whether a piece occurs in a text. -/
def contains (piece t : Text) : Bool := (cut? piece t).isSome

/-- A text cut at the nearest place from which `close` can read; `close` gives what comes after. -/
def upTo? (close : Text → Option Text) : Text → Option (Text × Text)
  | [] => (close []).map fun rest => ([], rest)
  | c :: cs =>
    match close (c :: cs) with
    | some rest => some ([], rest)
    | none => (upTo? close cs).map fun cut => (c :: cut.1, cut.2)

/-! ## Pieces -/

/-- Puts a character before the first piece of a list. -/
def consFirst (c : Char) : List Text → List Text
  | [] => [[c]]
  | piece :: pieces => (c :: piece) :: pieces

/-- The pieces between the occurrences of a separator. There is always at least one. -/
def splitOn (separator : Char) : Text → List Text
  | [] => [[]]
  | c :: cs =>
    if c == separator then [] :: splitOn separator cs
    else consFirst c (splitOn separator cs)

/-- The lines of a text. A line break may be preceded by a carriage return, which goes with it; a
break at the very end opens no further line. -/
def lines : Text → List Text
  | [] => []
  | '\n' :: cs => [] :: lines cs
  | '\r' :: '\n' :: cs => [] :: lines cs
  | c :: cs => consFirst c (lines cs)

/-- Pieces joined with a separator. -/
def join (separator : Text) (pieces : List Text) : Text := separator.intercalate pieces

/-- A number in decimal digits. -/
def ofNat (n : Nat) : Text := Nat.toDigits 10 n

/-! ## Passes -/

/-- A pass over a text from left to right. At each place that has not been jumped over, `step` sees
the character before, its own state and the text from there on; it gives output, a new state and
the number of further characters to jump over. -/
def sweep {σ β : Type} (step : Option Char → σ → Text → List β × σ × Nat) (before : Option Char)
    (state : σ) : Nat → Text → List β
  | _, [] => []
  | jump + 1, c :: cs => sweep step (some c) state jump cs
  | 0, c :: cs =>
    match step before state (c :: cs) with
    | (out, state', jump) => out ++ sweep step (some c) state' jump cs

/-- How many characters beyond the first were read when `rest` is left of `t`. -/
def readBeyond (t rest : Text) : Nat := t.length - rest.length - 1

/-- The values that `reader` reads, each from where the one before ended. -/
def readAll {α : Type} (reader : Option Char → Text → Option (α × Text)) (t : Text) : List α :=
  sweep (fun before (_ : Unit) t =>
    match reader before t with
    | some (value, rest) => ([value], (), readBeyond t rest)
    | none => ([], (), 0)) none () 0 t

/-- What a pass that puts texts in place of pieces does at a place. -/
def substituteStep (reader : Option Char → Text → Option (Text × Text)) (before : Option Char)
    (_ : Unit) (t : Text) : Text × Unit × Nat :=
  match reader before t with
  | some (new, rest) => (new, (), readBeyond t rest)
  | none => (t.take 1, (), 0)

/-- Puts in place of each piece that `reader` reads the text that it gives. -/
def substitute (reader : Option Char → Text → Option (Text × Text)) (t : Text) : Text :=
  sweep (substituteStep reader) none () 0 t

/-- Reads a piece that another one replaces. -/
def replacing (old new : Text) (_ : Option Char) (t : Text) : Option (Text × Text) :=
  (after? old t).map fun rest => (new, rest)

/-- Replaces every occurrence of a piece, from left to right. -/
def replace (old new t : Text) : Text := substitute (replacing old new) t

/-- The first value that `reader` can read in a text, with what comes before and after it. -/
def readFirst? {α : Type} (reader : Option Char → Text → Option (α × Text))
    (before : Option Char) : Text → Option (Text × α × Text)
  | [] => (reader before []).map fun found => ([], found.1, found.2)
  | c :: cs =>
    match reader before (c :: cs) with
    | some (value, rest) => some ([], value, rest)
    | none => (readFirst? reader (some c) cs).map fun found => (c :: found.1, found.2)

/-! ## Bytes -/

/-- The length of a text in bytes. -/
def byteSize (t : Text) : Nat := t.foldr (fun c size => c.utf8Size + size) 0

/-- The text from a byte offset on, if the offset falls between two characters. -/
def fromByte? : Nat → Text → Option Text
  | 0, t => some t
  | _ + 1, [] => none
  | n + 1, c :: cs => if c.utf8Size ≤ n + 1 then fromByte? (n + 1 - c.utf8Size) cs else none

/-- Encodes a text in bytes. -/
def toBytes (t : Text) : List UInt8 := (String.ofList t).toUTF8.toList

end BladeView.Text
