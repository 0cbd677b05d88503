import BladeView.Declaration.Basic
import BladeView.Script.Basic
import BladeView.Script.Quoted

/-!
# Declarations and state in a module

The statements that a view's declarations become: bindings, the traits through which variables are
updated, the list of variables, and the wiring of state.
-/
namespace BladeView

open Script

namespace StatePair

/-- Registers a piece of state and defines its setters. -/
def wiring (s : StatePair) : List Stmt :=
  [.const s.registrySetter (.raw ("__STATE__.__register(" ++ Quoted.single s.key ++ ")")),
   .declare s.key (some .null),
   .const s.setter
     (.raw ("(state) => \x7b\n        " ++ s.key ++ " = state;\n        " ++ s.registrySetter
       ++ "(state);\n    \x7d")),
   .assign ("__STATE__.__setters__." ++ s.setter) (.raw s.setter),
   .const ("update$" ++ s.key)
     (.raw ("(value) => \x7b\n        if(__STATE__._canUpdateStateByKey)\x7b\n            updateStateByKey("
       ++ Quoted.single s.key ++ ", value);\n            " ++ s.key
       ++ " = value;\n        \x7d\n    \x7d"))]

/-- Sets a piece of state to its initial value. -/
def update (s : StatePair) : Stmt := .raw ("update$" ++ s.key ++ "(" ++ s.initial ++ ");")

end StatePair

namespace Declaration

/-- An injected name with its default. -/
def injectedName (name : Text) (default : Option Text) : Text :=
  match default with
  | some value => name ++ " = " ++ value
  | none => name

/-- The binding that a declaration becomes. State is wired elsewhere, and a fixed name without a
value binds nothing. -/
def binding (d : Declaration) : List Stmt :=
  if d.state.isSome then []
  else
    match d.kind with
    | .vars =>
      let names := (d.names.zip d.defaults).map fun entry => injectedName entry.1 entry.2
      [.declare ("\x7b" ++ Text.join ", " names ++ "\x7d") (some (.raw "$$$DATA$$$"))]
    | .let => [.declare d.target (d.value.map .raw)]
    | .const => (d.value.map fun value => Stmt.const d.target (.raw value)).toList
    | .useState => []

/-- The names that a declaration binds and that may be updated later. -/
def updatable (d : Declaration) : List Text :=
  if d.state.isSome then []
  else
    match d.kind with
    | .vars | .let => d.names
    | .const | .useState => []

end Declaration

namespace Declarations

/-- Lets a variable be updated by its name. -/
def updateTrait (name : Text) : Stmt :=
  .raw ("__UPDATE_DATA_TRAIT__." ++ name ++ " = value => " ++ name ++ " = value;")

/-- The statements that the declarations of a view become: bindings in document order, then the
update traits, the list of variables and the wiring of state. -/
def statements (ds : Declarations) : List Stmt :=
  let names := ds.flatMap Declaration.updatable
  .const "__UPDATE_DATA_TRAIT__" (.raw "\x7b\x7d") :: ds.flatMap Declaration.binding
    ++ names.map updateTrait
    ++ [.const "__VARIABLE_LIST__" (Expr.strings names)]
    ++ ds.states.flatMap StatePair.wiring

/-- Sets all state to its initial values and locks it; nothing without state. -/
def stateUpdates (ds : Declarations) : List Stmt :=
  if ds.states.isEmpty then []
  else ds.states.map StatePair.update ++ [.raw "lockUpdateRealState();"]

end Declarations
end BladeView
