import BladeView.Expression.Convert
import BladeView.Subscription

/-!
# Wrapper configuration

A view may be wrapped in an element of its own. The wrapping directive gives the element's tag, its
attributes and what the wrapper follows, and compiles to a marker statement. The marker is taken
out again when the finished body is split around the wrapper.
-/
namespace BladeView

/-- How a view is wrapped. -/
structure WrapperConfig where
  enabled : Bool := true
  tag : Option Text := none
  follow : Subscription := .all
  subscribe : Option Subscription := none
  /-- Names of attributes and the script form of their values, in order. -/
  attributes : List (Text × Text) := []

namespace WrapperConfig

/-! ## Reading -/

/-- The key and the value of an item: `key => value`, `$key = value` or `key: value`. -/
def pair? (item : Text) : Option (Text × Text) :=
  let assigned := if Text.startsWith "$" item then TopLevel.assignment? item else none
  match (TopLevel.cut? "=>" item).or assigned with
  | some (left, right) => some (Name.bare left, Text.trim right)
  | none =>
    match TopLevel.cut? ":" item with
    | some (left, right) =>
      let key := Text.trim left
      if !key.isEmpty && ((Name.unquote? key).isSome || Text.word key == key) then
        some (Name.bare key, Text.trim right)
      else none
    | none => none

/-- The configuration with more attributes. -/
def addAttributes (convert : Text → Text) (c : WrapperConfig) (value : Text) : WrapperConfig :=
  let t := Text.trim value
  let body := ((Text.enclosed? '[' ']' t).or (Text.enclosed? '\x7b' '\x7d' t)).getD t
  let attributes := ((TopLevel.split body).filterMap pair?).map fun pair =>
    (pair.1, convert pair.2)
  { c with attributes := c.attributes ++ attributes }

/-- The configuration with one option set. What is no option is an attribute. -/
def set (convert : Text → Text) (c : WrapperConfig) (key value : Text) : WrapperConfig :=
  if key == "tag".toList then { c with tag := some (Name.bare value) }
  else if key == "follow".toList then { c with follow := Subscription.read value }
  else if key == "subscribe".toList then { c with subscribe := some (Subscription.read value) }
  else if key == "attributes".toList || key == "attrs".toList then c.addAttributes convert value
  else { c with attributes := c.attributes ++ [(key, convert value)] }

/-- Collects the items of a configuration. The first item without a key is the tag, unless it is an
array; all others without a key hold attributes. -/
def collect (convert : Text → Text) (c : WrapperConfig) (isFirst : Bool) :
    List Text → WrapperConfig
  | [] => c
  | item :: items =>
    match pair? item with
    | some (key, value) => collect convert (c.set convert key value) isFirst items
    | none =>
      if isFirst && !Text.startsWith "[" item then
        collect convert { c with tag := some (Name.bare item) } false items
      else collect convert (c.addAttributes convert item) false items

/-- The configuration of an argument list. -/
def read (bindings : Bindings) (args : Text) : WrapperConfig :=
  let args := Text.trim args
  collect (Expression.toScript bindings) {} true
    (TopLevel.split ((Text.enclosed? '[' ']' args).getD args))

/-! ## Writing -/

/-- What the marker statement assigns to. -/
def markerName : Text := "__WRAPPER_CONFIG__"

/-- Marks the end of the wrapped region. -/
def endMarker : Text := "__WRAPPER_END__"

/-- The script form of a configuration. -/
def object (c : WrapperConfig) : Text :=
  let tag := (c.tag.map Quoted.double).getD "null"
  let subscribe := (c.subscribe.map fun s => Text.join [] [" subscribe: ", s.toScript, ","]).getD []
  let attributes := c.attributes.map fun a => Quoted.double a.1 ++ ": " ++ a.2
  "\x7b enable: " ++ (if c.enabled then ("true" : Text) else "false") ++ ", tag: " ++ tag
    ++ ", follow: " ++ c.follow.toScript ++ "," ++ subscribe ++ " attributes: \x7b"
    ++ Text.join ", " attributes ++ "\x7d \x7d"

/-- The statement that carries a configuration through the body. -/
def marker (c : WrapperConfig) : Text := markerName ++ " = " ++ c.object ++ ";"

end WrapperConfig
end BladeView
