import BladeView.Script.Quoted
import BladeView.TopLevel
import BladeView.Name

/-!
# Subscriptions

A view, a wrapper or a block follows all changes of state, none, or those of some keys.
-/
namespace BladeView

/-- Which changes of state are followed. -/
inductive Subscription where
  | all
  | off
  | keys (names : List Text)
  deriving DecidableEq

namespace Subscription

/-- Whether any change is followed. -/
def isEnabled : Subscription → Bool
  | off => false
  | _ => true

/-- The script form: a truth value, or the list of keys. -/
def toScript : Subscription → Text
  | all => "true"
  | off => "false"
  | keys names => "[" ++ Text.join "," (names.map Quoted.double) ++ "]"

/-- The spellings of a subscription to everything. -/
def allSpellings : List Text := ["", "true", "@all", "'@all'", "\"@all\"", "'all'", "\"all\""]

/-- Reads a subscription: a truth value, a word for everything, one key, or a list of keys. -/
def read (t : Text) : Subscription :=
  let t := Text.trim t
  if allSpellings.contains t then all
  else if t == "false".toList then off
  else
    let items := TopLevel.split ((Text.enclosed? '[' ']' t).getD t)
    match (items.map Name.bare).filter fun key => !key.isEmpty with
    | [] => off
    | names => keys names

end Subscription
end BladeView
