import BladeView.Script.Quoted
import BladeView.Source.Verbatim
import BladeView.Text.Word

/-!
# Finished templates

A template is finished when its verbatim contents are back and its calls have the names that the
running view knows.
-/
namespace BladeView.Template

/-- Reads the call that updates a piece of state by its key, up to the value: the key and the
rest. -/
def updateByKey? (t : Text) : Option (Text × Text) := do
  let isQuotation := fun c : Char => c == '\x27' || c == '\x22'
  match Text.trimStart (← Text.after? "updateStateByKey(" t) with
  | q :: c :: cs =>
    let inKey := fun d => isWordChar d || d == '$'
    if isQuotation q && (isNameStart c || c == '$') then
      match cs.dropWhile inKey with
      | q' :: rest =>
        if isQuotation q' then
          let rest ← Text.after? "," (Text.trimStart rest)
          return (c :: cs.takeWhile inKey, Text.trimStart rest)
        else none
      | [] => none
    else none
  | _ => none

/-- Code with updates by a fixed key made calls of that key's own function. -/
def directUpdates (t : Text) : Text :=
  Text.substitute (fun _ t => (updateByKey? t).map fun found =>
    ("update$" ++ found.1 ++ "(", found.2)) t

/-- A template with its verbatim contents and its final calls. -/
def finish (verbatim : List Text) (t : Text) : Text :=
  directUpdates
    (Text.replace "App.View.text(" "this.__text("
      (Text.replace "App.View.section(" "this.__section(" (Verbatim.restore verbatim t)))

end BladeView.Template
