import BladeView.Text.Basic

/-!
# Sections

A section is a named piece of a view that its layout shows. A short section is a value, a long one
is a piece of template.
-/
namespace BladeView

/-- How a section is written. -/
inductive SectionKind where
  | short
  | long
  deriving DecidableEq

namespace SectionKind

def name : SectionKind → Text
  | short => "short"
  | long => "long"

end SectionKind

/-- A section of a view. -/
structure Section where
  name : Text
  kind : SectionKind
  /-- The value of a short section, or the body of a long one. -/
  content : Text
  /-- All of the template text that the section was compiled to. -/
  fragment : Text := []
  /-- Code that belongs to the section. -/
  script : Option Text := none
  /-- Whether the section shows injected data. -/
  usesInjected : Bool := false
  /-- Whether a placeholder is shown until the data has arrived. -/
  needsPlaceholder : Bool := false
  deriving DecidableEq

end BladeView
