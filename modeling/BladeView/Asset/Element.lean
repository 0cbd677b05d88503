import BladeView.Expression.Convert
import BladeView.Script.Basic
import BladeView.Script.Quoted
import BladeView.Source.Region

/-!
# Elements of a register block

A register block holds script and style elements with their code, and other tags. Attributes may
be quoted or not, and their values may hold echoes.
-/
namespace BladeView

/-- An element of a register block. -/
inductive Element where
  /-- An element with code; `attributes` is the text in its opening tag. -/
  | code (isStyle : Bool) (attributes body : Text)
  /-- Any other tag. -/
  | tag (name attributes : Text)

namespace Element

/-! ## Attributes -/

/-- What may stand in the name of an attribute. -/
def isAttributeChar (c : Char) : Bool :=
  !(isBlank c || c == '=' || c == '\x22' || c == '\x27' || c == '/' || c == '>')

/-- Reads a value without quotes, up to a blank or the end of the tag. -/
def plainValue? (t : Text) : Option (Text × Text) :=
  let inValue := fun c => !isBlank c && c != '>'
  if t.head?.any inValue then some (t.takeWhile inValue, t.dropWhile inValue) else none

/-- Reads an equals sign and a value. A quote that is not closed is part of a value without
quotes. -/
def value? (t : Text) : Option (Text × Text) := do
  let rest := Text.trimStart (← Text.after? "=" (Text.trimStart t))
  let quoted :=
    match rest with
    | '\x22' :: cs => Text.cut? "\"" cs
    | '\x27' :: cs => Text.cut? "'" cs
    | _ => none
  quoted.or (plainValue? rest)

/-- Reads an attribute: its name and its value, which is empty if there is none. -/
def attribute? (t : Text) : Option ((Text × Text) × Text) :=
  let name := t.takeWhile isAttributeChar
  let rest := t.dropWhile isAttributeChar
  if name.isEmpty then none
  else
    match value? rest with
    | some (value, after) => some ((name, value), after)
    | none => some ((name, []), rest)

/-- The attributes of a tag, in order. -/
def attributes (t : Text) : List (Text × Text) := Text.readAll (fun _ t => attribute? t) t

/-- The value of the first attribute of a name. The case of letters does not matter. -/
def find? (name : Text) (attrs : List (Text × Text)) : Option Text :=
  (attrs.find? fun attr => Text.sameLetters attr.1 name).map Prod.snd

/-! ## Values with echoes -/

/-- A character of a value, or an echo in it. -/
inductive ValuePart where
  | char (c : Char)
  | echo (inside : Text)

/-- Reads an echo: what it shows and the rest. -/
def echo? (t : Text) : Option (Text × Text) := do
  let (inside, rest) ← Text.cut? "\x7d\x7d" (← Text.after? "\x7b\x7b" t)
  return (Text.trim inside, rest)

/-- The parts of a value. -/
def valueParts (t : Text) : List ValuePart :=
  Text.sweep (fun _ (_ : Unit) t =>
    match echo? t with
    | some (inside, rest) => ([.echo inside], (), Text.readBeyond t rest)
    | none => ((t.take 1).map .char, (), 0)) none () 0 t

/-- The body of a template literal for the parts of a value. `pending` holds the characters since
the last echo, the latest first. -/
def templateBody (convert : Text → Text) (pending : Text) : List ValuePart → Text
  | [] => Quoted.template pending.reverse
  | .char c :: parts => templateBody convert (c :: pending) parts
  | .echo inside :: parts =>
    Quoted.template pending.reverse ++ "$\x7bApp.View.escString(" ++ convert inside ++ ")\x7d"
      ++ templateBody convert [] parts

/-- Whether a part is an echo. -/
def ValuePart.isEcho : ValuePart → Bool
  | echo _ => true
  | char _ => false

/-- The script form of a value: a string, or a template literal if it holds echoes. -/
def attributeValue (bindings : Bindings) (value : Text) : Script.Expr :=
  let parts := valueParts value
  if parts.any ValuePart.isEcho then
    .template (templateBody (Expression.toScript bindings) [] parts)
  else .json value

/-! ## Elements -/

/-- Reads the closing tag of an element with code. Either kind closes both. -/
def codeEnd? (t : Text) : Option Text :=
  (Region.closingTag? "script" t).or (Region.closingTag? "style" t)

/-- Reads an element with code. -/
def code? (t : Text) : Option (Element × Text) := do
  let rest ← (Text.afterFoldWord? "<script" t).or (Text.afterFoldWord? "<style" t)
  let (attributes, inside) ← Region.tagRest? rest
  let (body, after) ← Text.upTo? codeEnd? inside
  return (.code (Text.sameLetters (t.take 6) "<style") attributes (Text.trim body), after)

/-- A letter that a tag may start with; the long s and the Kelvin sign fold to ASCII letters. -/
def isTagStart (c : Char) : Bool := c.isAlpha || c.toNat == 0x17F || c.toNat == 0x212A

/-- Reads any tag. Hyphens at the end of its name and a slash before its bracket are not part of
it. -/
def tag? : Text → Option (Element × Text)
  | '<' :: c :: cs => do
    if isTagStart c then
      let run := (c :: cs).takeWhile fun d => isWordChar d || d == '-'
      let name := Text.dropEndWhile (· == '-') run
      let (inside, after) ← Region.tagRest? ((c :: cs).drop name.length)
      let attributes := if Text.endsWith "/" inside then inside.dropLast else inside
      return (.tag name attributes, after)
    else none
  | _ => none

/-- The elements of a text. -/
def readAll (t : Text) : List Element := Text.readAll (fun _ t => (code? t).or (tag? t)) t

end Element
end BladeView
