import BladeView.Block.Machine
import BladeView.Declaration.Reader
import BladeView.ViewModule.Basic
import BladeView.Wrapper.Split

/-!
# Compiling a view

A template is read in one go: its declarations first, because all expressions depend on the names
they bind, then its header and assets, and last its body. Compiling never fails. A malformed
directive is shown as text, and a block that is not closed stays open.
-/
namespace BladeView

namespace Section

/-- Gives the script of a section to the first section of that name, or to a new one. -/
def attachScript (sections : List Section) (entry : Text × Text) : List Section :=
  match sections with
  | [] => [{ name := entry.1, kind := .short, content := [], script := some entry.2 }]
  | s :: rest =>
    if s.name == entry.1 then { s with script := some entry.2 } :: rest
    else s :: attachScript rest entry

end Section

namespace View

/-- A body around its wrapper: what is shown, the fragments outside, and the configuration with its
subscription. -/
structure Wrapped where
  template : Text
  before : Text := []
  after : Text := []
  config : Option Text := none
  subscription : Option Subscription := none

/-- A body around its wrapper, if it has one. -/
def unwrap (body : Text) : Wrapped :=
  match WrapperSplit.ofBody? body with
  | none => { template := body }
  | some split =>
    let (config, subscription) := WrapperSplit.takeSubscribe split.config
    { template := split.inner, before := split.before, after := split.after
      config := some config, subscription }

/-- What a view follows if it does not say so: everything, if it has data of any kind. -/
def defaultSubscription (ds : Declarations) : Subscription :=
  if ds.hasInjected || ds.hasStateful then .all else .off

/-- Reads a template. -/
def ofTemplate (shared : SharedCode) (source name : Text) : View :=
  let t := Region.stripComments (Text.trim source)
  let declarations := Declarations.read t
  let bindings := declarations.bindings
  let header := Header.read bindings t
  let assets := ((Assets.source? t).map (Assets.read name bindings)).getD {}
  let body := Body.ofTemplate t
  let machine := Machine.run bindings (Token.ofBody body.text)
  let wrapped := unwrap machine.template
  let injected := declarations.injectedNames
  let sections := (assets.sectionScripts.foldl Section.attachScript machine.sections).map
    (Section.analyze injected header.isDeferred)
  let inputs := Prerender.inputs declarations sections wrapped.template header.isDeferred
  { name, declarations, header, assets, shared, sections
    verbatim := body.verbatim
    template := wrapped.template
    before := wrapped.before
    after := wrapped.after
    wrapperConfig := wrapped.config
    subscription :=
      (header.subscription.or wrapped.subscription).getD (defaultSubscription declarations)
    hasPrerender := inputs.isNeeded
    bodyPlaceholder :=
      inputs.inBody || Prerender.conditionUsesAny injected sections wrapped.template }

end View

/-- The module of a template, for the view of the given name. -/
def compile (shared : SharedCode) (source name : Text) : ViewModule :=
  (View.ofTemplate shared source name).toModule

end BladeView
