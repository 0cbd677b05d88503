import BladeView.Declaration.Basic
import BladeView.Reference
import BladeView.Section

/-!
# Prerendering

A view whose data arrives late may first show what does not depend on it. Sections are static or
use injected data; a pass before the data arrives is needed when something visible depends on
injected data.
-/
namespace BladeView

namespace Section

/-- Marks whether a section uses injected data, and whether it waits for it. -/
def analyze (injected : List Text) (deferred : Bool) (s : Section) : Section :=
  let uses :=
    match s.kind with
    | .short => Reference.mentionsAny injected s.content
    | .long => Reference.interpolatesAny injected s.content
  { s with usesInjected := uses, needsPlaceholder := uses && deferred }

/-- The names of the long sections, each once. -/
def longNames (sections : List Section) : List Text :=
  Declarations.distinct ((sections.filter (·.kind == .long)).map (·.name))

/-- The names of the sections whose fragments stand in a template, each once. -/
def renderedNames (template : Text) (sections : List Section) : List Text :=
  Declarations.distinct
    ((sections.filter fun s =>
      !s.fragment.isEmpty && Text.contains s.fragment template).map (·.name))

/-- A template without the fragments of some sections. -/
def removeAll (sections : List Section) (template : Text) : Text :=
  (sections.filter fun s => !s.fragment.isEmpty).foldl
    (fun out s => Text.replace s.fragment [] out) template

end Section

namespace Prerender

/-- What the decision for a pass before the data arrives rests on. -/
structure Inputs where
  /-- Data arrives late. -/
  deferred : Bool
  /-- Some name is injected. -/
  injected : Bool
  inSection : Bool
  inBody : Bool
  inDeclaration : Bool
  deriving DecidableEq

/-- Whether a pass is needed. -/
def Inputs.isNeeded (i : Inputs) : Bool :=
  i.deferred && i.injected && (i.inSection || i.inBody || i.inDeclaration)

/-- Whether the value of a declaration uses one of some names. -/
def declarationUsesAny (names : List Text) (d : Declaration) : Bool :=
  d.value.any (Reference.mentionsAny names) ||
    d.state.any fun state => Reference.mentionsAny names state.initial

/-- Collects what the decision rests on. The sections are analysed already. -/
def inputs (ds : Declarations) (sections : List Section) (template : Text) (deferred : Bool) :
    Inputs where
  deferred
  injected := ds.hasInjected
  inSection := sections.any (·.usesInjected)
  inBody := Reference.interpolatesAny ds.injectedNames template
  inDeclaration := ds.locals.any (declarationUsesAny ds.injectedNames)

/-- How a condition begins, up to the parenthesis of its test. -/
def conditionStart : Text := "App.View.execute(() => \x7b if"

/-- Whether the test of a condition outside all sections uses one of some names. -/
def conditionUsesAny (names : List Text) (sections : List Section) (template : Text) : Bool :=
  Text.holdsSomewhere (fun _ t =>
    match (Text.after? conditionStart t).filter (Text.startsWith "(") with
    | some test => (Group.read? test).any fun found => Reference.mentionsAny names found.1
    | none => false) none (Section.removeAll sections template)

end Prerender
end BladeView
