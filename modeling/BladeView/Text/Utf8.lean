import BladeView.Text.Blank

/-!
# Reading bytes as text

The bytes of a file are a text if they are well-formed UTF-8. For display, each longest piece that
is not may be shown as a replacement character.
-/
namespace BladeView.Utf8

/-- What a first byte announces: its own bits, and the ranges of the bytes that must follow. -/
def lead? (b : UInt8) : Option (Nat × List (UInt8 × UInt8)) :=
  let tail : UInt8 × UInt8 := (0x80, 0xBF)
  let n := b.toNat
  if n < 0x80 then some (n, [])
  else if n < 0xC2 then none
  else if n < 0xE0 then some (n - 0xC0, [tail])
  else if n == 0xE0 then some (0, [(0xA0, 0xBF), tail])
  else if n == 0xED then some (0xD, [(0x80, 0x9F), tail])
  else if n < 0xF0 then some (n - 0xE0, [tail, tail])
  else if n == 0xF0 then some (0, [(0x90, 0xBF), tail, tail])
  else if n < 0xF4 then some (n - 0xF0, [tail, tail, tail])
  else if n == 0xF4 then some (4, [(0x80, 0x8F), tail, tail])
  else none

/-- Reads the bytes that must follow: the number of bytes that fit, and the value if all do. -/
def tails (value : Nat) : List (UInt8 × UInt8) → List UInt8 → Nat × Option Nat
  | [], _ => (0, some value)
  | _ :: _, [] => (0, none)
  | (low, high) :: ranges, b :: bytes =>
    if low ≤ b && b ≤ high then
      let (count, result) := tails (value * 64 + (b.toNat - 0x80)) ranges bytes
      (count + 1, result)
    else (0, none)

/-- Reads one character: the number of bytes beyond the first, and the character if the bytes are
well-formed. -/
def read (b : UInt8) (bytes : List UInt8) : Nat × Option Char :=
  match lead? b with
  | none => (0, none)
  | some (value, ranges) =>
    let (count, result) := tails value ranges bytes
    (count, result.map Char.ofNat)

/-- The characters of some bytes; `none` stands for each piece that is not well-formed. -/
def chars : Nat → List UInt8 → List (Option Char)
  | _, [] => []
  | jump + 1, _ :: bytes => chars jump bytes
  | 0, b :: bytes => (read b bytes).2 :: chars (read b bytes).1 bytes

/-- The text of well-formed bytes. -/
def decode? (bytes : List UInt8) : Option Text :=
  let cs := chars 0 bytes
  if cs.all Option.isSome then some (cs.filterMap id) else none

/-- The text of any bytes. -/
def decodeLossy (bytes : List UInt8) : Text := (chars 0 bytes).map (·.getD (Char.ofNat 0xFFFD))

end BladeView.Utf8
