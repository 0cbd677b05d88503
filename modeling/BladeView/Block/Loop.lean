import BladeView.Text.Basic
import BladeView.Text.Word

/-!
# Loop headers

The headers of loops over a collection, and of counting loops.
-/
namespace BladeView

namespace Text

/-- Reads a word that a sigil may precede. -/
def sigilWord? (t : Text) : Option (Text × Text) :=
  let start := (after? "$" t).getD t
  let word := start.takeWhile isWordChar
  if word.isEmpty then none else some (word, start.dropWhile isWordChar)

/-- Reads blanks, at least one. -/
def blanks? (t : Text) : Option Text := if t.head?.any isBlank then some (trimStart t) else none

/-- Reads a semicolon and what follows it with `reader`, at the nearest place on the same line
where that succeeds. Gives the text before the semicolon. -/
def beforeSemicolon? {α : Type} (reader : Text → Option α) (t : Text) : Option (Text × α) := do
  let (before, value, _) ← readFirst? (fun _ t => do
    let rest ← after? ";" t
    return (← reader rest, [])) none t
  if before.any (· == '\n') then none else some (before, value)

end Text

/-- The header of a loop over a collection. -/
structure ForeachHeader where
  subject : Text
  key : Option Text
  value : Text

namespace ForeachHeader

/-- Reads the names after the subject, up to the end of the header. -/
def names? (t : Text) : Option (Option Text × Text) := do
  let (first, rest) ← Text.sigilWord? (← Text.blanks? (← Text.after? "as" (← Text.blanks? t)))
  let rest := Text.trimStart rest
  if rest.isEmpty then some (none, first)
  else
    let (second, rest) ← Text.sigilWord? (Text.trimStart (← Text.after? "=>" rest))
    if Text.isEmptyOrBlank rest then some (some first, second) else none

/-- Reads a header that has no blanks around it. The subject is as short as it can be. -/
def read? (t : Text) : Option ForeachHeader := do
  let (subject, (key, value), _) ←
    Text.readFirst? (fun _ t => (names? t).map fun names => (names, [])) none t
  return ⟨subject, key, value⟩

end ForeachHeader

/-- The header of a counting loop: a variable, its start, the condition on it, and its step. -/
structure ForHeader where
  name : Text
  start : Text
  comparison : Text
  bound : Text
  step : Text

namespace ForHeader

/-- Reads the step: a name and its increment or decrement, up to the end. -/
def step? (t : Text) : Option (Text × Text) := do
  let (name, rest) ← Text.sigilWord? (Text.trimStart t)
  let rest := Text.trimStart rest
  let sign := rest.take 2
  if (sign == "++".toList || sign == "--".toList) && Text.isEmptyOrBlank (rest.drop 2) then
    some (name, sign)
  else none

/-- Reads the condition and the step. -/
def condition? (t : Text) : Option (Text × Text × Text × Text × Text) := do
  let isSign := fun c : Char => c == '<' || c == '>' || c == '=' || c == '!'
  let (name, rest) ← Text.sigilWord? (Text.trimStart t)
  let rest := Text.trimStart rest
  let sign := rest.takeWhile isSign
  if sign.isEmpty then none
  else
    let (bound, stepName, step) ←
      Text.beforeSemicolon? step? (Text.trimStart (rest.dropWhile isSign))
    return (name, sign, bound, stepName, step)

/-- Reads a header from its variable on. All three parts must be about the same variable. -/
def parts? (t : Text) : Option ForHeader := do
  let (name, rest) ← Text.sigilWord? t
  let rest ← Text.after? "=" (Text.trimStart rest)
  let (start, name', sign, bound, stepName, step) ←
    Text.beforeSemicolon? condition? (Text.trimStart rest)
  if name == name' && name == stepName then some ⟨name, start, sign, bound, step⟩ else none

/-- Reads a header, which may declare its variable. -/
def read? (t : Text) : Option ForHeader :=
  let t := Text.trimStart t
  let declared := (["let", "var"] : List Text).findSome? fun word => do
    parts? (← Text.blanks? (← Text.after? word t))
  declared.or (parts? t)

end ForHeader
end BladeView
