import BladeView.Expression.Bindings

/-!
# Declarations

A template declares names in four ways: it names the data that the server injects, it binds local
names to values, fixed or not, and it declares pieces of state with their setters.
-/
namespace BladeView

/-- The directive a declaration comes from. -/
inductive DeclarationKind where
  | vars
  | «let»
  | const
  | useState
  deriving DecidableEq

/-- A piece of state, the setter its author named, and the setter that the state registry gives. -/
structure StatePair where
  key : Text
  setter : Text
  registrySetter : Text
  initial : Text
  deriving DecidableEq

namespace StatePair

/-- The registry's setter is named after the key, however the public setter is spelled. -/
def make (key setter initial : Text) : StatePair := ⟨key, setter, "set$" ++ key, initial⟩

end StatePair

/-- One declaration of a template. -/
structure Declaration where
  kind : DeclarationKind
  isDestructuring : Bool
  names : List Text
  /-- A default for each name; only injected names have any. -/
  defaults : List (Option Text)
  /-- The names as the script writes them on the left of the binding. -/
  target : Text
  /-- The script form of the bound value. -/
  value : Option Text
  hasDefault : Bool
  /-- Whether the declaration introduces state. Each form of declaration says so on its own. -/
  isStateful : Bool
  state : Option StatePair
  deriving DecidableEq

/-- The declarations of a template, in document order. -/
abbrev Declarations := List Declaration

namespace Declarations

/-- A list without repetitions; of equal elements the first stays. -/
def distinct (names : List Text) : List Text :=
  names.foldl (fun seen name => if seen.contains name then seen else seen ++ [name]) []

/-- The names that the server injects, in order. -/
def injectedNames (ds : Declarations) : List Text :=
  distinct ((ds.filter (·.kind == .vars)).flatMap (·.names))

/-- Whether any name is injected. -/
def hasInjected (ds : Declarations) : Bool := ds.any fun d => d.kind == .vars && !d.names.isEmpty

/-- The state pairs, in order. -/
def states (ds : Declarations) : List StatePair := ds.filterMap (·.state)

/-- Whether there is any state. -/
def hasStateful (ds : Declarations) : Bool := !ds.states.isEmpty

/-- The declarations that are not injected; their values may refer to injected names. -/
def locals (ds : Declarations) : Declarations := ds.filter (·.kind != .vars)

/-- Every name that the template binds, setters included. -/
def bindings (ds : Declarations) : Bindings :=
  Bindings.ofNames (ds.flatMap fun d =>
    d.names ++ (d.state.map fun s => [s.key, s.setter]).getD [])

end Declarations
end BladeView
