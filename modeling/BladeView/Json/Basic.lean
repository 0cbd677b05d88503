import BladeView.Text.Basic

/-!
# JSON values

Values as a document gives them: object entries in order, with all repetitions, and numbers as
written.
-/
namespace BladeView

/-- A JSON value. -/
inductive Json where
  | null
  | bool (value : Bool)
  /-- A number, as it is written. -/
  | number (digits : Text)
  /-- A string; it has no text if it holds half of a surrogate pair. -/
  | string (value : Option Text)
  | array (items : List Json)
  | object (entries : List (Option Text × Json))

namespace Json

/-- The text of a string. -/
def text? : Json → Option Text
  | string value => value
  | _ => none

/-- A truth value. -/
def bool? : Json → Option Bool
  | bool value => some value
  | _ => none

/-- The value of a key that stands at most once in an object. The outer option is `none` if it
stands there twice. -/
def field? (entries : List (Option Text × Json)) (key : Text) : Option (Option Json) :=
  match entries.filter fun entry => entry.1 == some key with
  | [] => some none
  | [entry] => some (some entry.2)
  | _ => none

/-- The fields of a record with the given keys. In an object each key may stand once, and other keys
are ignored if they are texts; an array gives the fields in order, and may be shorter. -/
def fields? (keys : List Text) : Json → Option (List (Option Json))
  | object entries =>
    if entries.all fun entry => entry.1.isSome then keys.mapM (field? entries) else none
  | array items =>
    if items.length ≤ keys.length then
      some (items.map some ++ List.replicate (keys.length - items.length) none)
    else none
  | _ => none

end Json
end BladeView
