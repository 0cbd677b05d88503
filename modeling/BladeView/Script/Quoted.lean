import BladeView.Text.Basic

/-!
# Quoted text in scripts

Template text becomes script text in four ways: as the body of a template literal that may hold
interpolations, as the body of a template literal that must read back unchanged, and as a string
in single or in double quotes.
-/
namespace BladeView.Quoted

/-- Holds the place of a backtick that is escaped already. -/
def backtickMark : Text := "\x00BT\x00"

/-- Escapes every backtick. One that a backslash precedes is escaped already and stays so. -/
def backticks (t : Text) : Text :=
  Text.replace backtickMark "\\`"
    (Text.replace "`" "\\`" (Text.replace "\\`" backtickMark t))

/-- Escapes backslashes, backticks and the start of an interpolation, so that a template literal
with this body has the value `t`. -/
def template (t : Text) : Text :=
  Text.replace "$\x7b" "\\$\x7b" (Text.replace "`" "\\`" (Text.replace "\\" "\\\\" t))

/-- A character within single quotes. Line breaks are written as escapes, carriage returns are
left out. -/
def singleChar (c : Char) : Text :=
  if c == '\\' then "\\\\"
  else if c == '\x27' then "\\'"
  else if c == '\n' then "\\n"
  else if c == '\r' then []
  else [c]

/-- A string literal in single quotes. -/
def single (t : Text) : Text := "'" ++ t.flatMap singleChar ++ "'"

/-- A hexadecimal digit in small letters. -/
def hexDigit (n : Nat) : Char := Nat.digitChar (n % 16)

/-- A character within double quotes, escaped as in JSON: the quote, the backslash and all control
characters. -/
def doubleChar (c : Char) : Text :=
  if c == '\x22' then "\\\""
  else if c == '\\' then "\\\\"
  else if c == '\x08' then "\\b"
  else if c == '\x0c' then "\\f"
  else if c == '\n' then "\\n"
  else if c == '\r' then "\\r"
  else if c == '\t' then "\\t"
  else if c.toNat < 0x20 then "\\u00" ++ [hexDigit (c.toNat / 16), hexDigit c.toNat]
  else [c]

/-- A string literal in double quotes. -/
def double (t : Text) : Text := "\"" ++ t.flatMap doubleChar ++ "\""

end BladeView.Quoted
