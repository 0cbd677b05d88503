import BladeView.Reference
import BladeView.Wrapper.Config

/-!
# Splitting around a wrapper

A finished body may hold the marker of a wrapper configuration. The region after the marker is
what the wrapper shows; of what stands outside only the fragments that do something are kept.
-/
namespace BladeView

/-- A body split around its wrapper. -/
structure WrapperSplit where
  /-- The object literal of the configuration, with its braces. -/
  config : Text
  before : Text
  inner : Text
  after : Text
  deriving DecidableEq

namespace WrapperSplit

/-- How the fragments begin that are kept outside the wrapped region. -/
def structuralStarts : List Text :=
  ["App.View.execute(", "App.View.section(", "this.__section(", "this.__useBlock(",
   "App.View.useBlock(", "this.__subscribeBlock("]

/-- Reads a fragment; gives it if it is to be kept. -/
def fragment? (t : Text) : Option (Option Text × Text) := do
  let (inner, rest) ← Reference.interpolation? t
  if structuralStarts.any fun start => Text.startsWith start (Text.trimStart inner) then
    some (some ("$\x7b" ++ inner ++ "\x7d"), rest)
  else some (none, rest)

/-- The fragments of a text that do something, one to a line. -/
def structural (t : Text) : Text :=
  Text.join "\n" ((Text.readAll (fun _ t => fragment? t) t).filterMap id)

/-- Reads the marker up to its object, and gives the text from the object on. -/
def marker? (t : Text) : Option Text := do
  let rest ← Text.after? "=" (Text.trimStart (← Text.after? WrapperConfig.markerName t))
  let object := Text.trimStart rest
  if Text.startsWith "\x7b" object then some object else none

/-- A body split around its wrapper, if it has one. Without an end marker the wrapped region runs
to the end of the body. -/
def ofBody? (body : Text) : Option WrapperSplit := do
  let (before, object, _) ← Text.readFirst? (fun _ t => (marker? t).map fun o => (o, [])) none body
  let (config, rest) ← Group.read? object
  let rest := (Text.after? ";" (rest.dropWhile isSpaceOrTab)).getD rest
  let (inner, after) := (Text.cut? WrapperConfig.endMarker rest).getD (rest, [])
  return {
    config := "\x7b" ++ config ++ "\x7d"
    before := structural before
    inner := Text.dropEndWhile (· == '\n') (inner.dropWhile (· == '\n'))
    after := structural after }

/-! ## The subscription of a configuration -/

/-- Reads a truth value or a list of keys, as text. -/
def subscribeValue? (t : Text) : Option (Text × Text) :=
  let word := fun w : Text => (Text.after? w t).map fun rest => (w, rest)
  ((word "true").or (word "false")).or do
    let (inside, rest) ← Text.cut? "]" (← Text.after? "[" t)
    return ("[" ++ inside ++ "]", rest)

/-- Reads the entry of the subscription with the blanks around it. -/
def subscribeField? (before : Option Char) (t : Text) : Option (Subscription × Text) := do
  if !t.head?.any isBlank && before.any isWordChar then none
  else
    let rest ← Text.after? "subscribe" (Text.trimStart t)
    let rest ← Text.after? ":" (Text.trimStart rest)
    let (value, rest) ← subscribeValue? (Text.trimStart rest)
    let rest := Text.trimStart rest
    return (Subscription.read value, (Text.after? "," rest).getD rest)

/-- The text of a configuration without its subscription, and the subscription. -/
def takeSubscribe (config : Text) : Text × Option Subscription :=
  match Text.readFirst? subscribeField? none config with
  | some (before, subscription, after) => (before ++ after, some subscription)
  | none => (config, none)

end WrapperSplit
end BladeView
