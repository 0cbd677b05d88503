/-!
# Text and blanks

Templates, and the modules made from them, are sequences of characters. All readers and printers
of this library work on them as lists, from the front; positions are measured in bytes only where
a caller asks for an offset.
-/
namespace BladeView

/-- A piece of template or script text. -/
abbrev Text := List Char

/-- A string literal stands for its characters. -/
instance : Coe String Text := ⟨String.toList⟩

/-- White space: the control blanks, the space and the wider spaces and separators. -/
def isBlank (c : Char) : Bool :=
  let n := c.toNat
  (0x9 ≤ n && n ≤ 0xD) || n == 0x20 || n == 0x85 || n == 0xA0 || n == 0x1680 ||
    (0x2000 ≤ n && n ≤ 0x200A) || n == 0x2028 || n == 0x2029 || n == 0x202F || n == 0x205F ||
    n == 0x3000

/-- The blanks that stay within a line and may stand before an argument list. -/
def isSpaceOrTab (c : Char) : Bool := c == ' ' || c == '\t'

namespace Text

/-- A text without the blanks at its front. -/
def trimStart (t : Text) : Text := t.dropWhile isBlank

/-- A text without the characters at its end that satisfy `p`. -/
def dropEndWhile (p : Char → Bool) (t : Text) : Text := (t.reverse.dropWhile p).reverse

/-- A text without the blanks at its end. -/
def trimEnd (t : Text) : Text := dropEndWhile isBlank t

/-- A text without blanks at its ends. -/
def trim (t : Text) : Text := trimEnd (trimStart t)

/-- Nothing but blanks. -/
def isEmptyOrBlank (t : Text) : Bool := t.all isBlank

end Text
end BladeView
