import BladeView.Markup.Attribute
import BladeView.Markup.Echo
import BladeView.Markup.Handler
import BladeView.Markup.Inline

/-!
# Runs of text

A run of text between block directives is compiled by one pass for each family of inline
directives, and one for the echoes. The order matters: a directive that an earlier pass leaves is
seen by the later ones, and so is the text that an earlier pass writes.
-/
namespace BladeView.Markup

/-- The script form of a run of text, as the body of a template literal. -/
def compile (bindings : Bindings) (t : Text) : Text :=
  let attributes :=
    Attribute.substituteSubscriptions (Attribute.substituteBindings (Handler.substitute bindings t))
  let yields := Attribute.substituteYields (Inline.substituteBlocks bindings attributes)
  let inlined := Inline.substituteFields bindings (Inline.substituteIncludes bindings yields)
  Echo.substitute bindings inlined

end BladeView.Markup
