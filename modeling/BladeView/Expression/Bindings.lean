import BladeView.Text.Basic

/-!
# Bindings

The names that a template declares. A call of a declared name is a call of what the template
bound to it, so it is never qualified. A table that is frozen takes no further names.
-/
namespace BladeView

/-- The names a template binds. -/
structure Bindings where
  names : List Text := []
  frozen : Bool := false

namespace Bindings

/-- No names. -/
def empty : Bindings := {}

/-- Whether a name is bound. -/
def has (b : Bindings) (name : Text) : Bool := b.names.contains name

/-- Binds a name, unless the table is frozen. -/
def add (b : Bindings) (name : Text) : Bindings :=
  if b.frozen || b.has name then b else { b with names := b.names ++ [name] }

/-- Takes no further names. -/
def freeze (b : Bindings) : Bindings := { b with frozen := true }

/-- The frozen table of the given names. -/
def ofNames (names : List Text) : Bindings := (names.foldl add empty).freeze

end Bindings
end BladeView
