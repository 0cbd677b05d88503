import BladeView.Compile
import BladeView.Proofs.Declaration.Masked

/-!
# What verbatim text does to a view

The contents of verbatim regions are taken out before the body of a view is read, and no declaration
is read in them. So two sources that differ only in the contents of their regions have the same
templates. The header and the assets are read from the source with the contents in it: the views
agree on everything but the restored contents just if these readings and the declarations agree.
That is so if the contents hold none of the words that the readers look for, and if nothing that is
open before a region reaches into it. The words for deferred data and the view type count in a
region as they do outside.

## Main statements

* `View.verbatim_contents_inert`: what the contents of regions change in a view.
-/
namespace BladeView

namespace Verbatim

/-- A piece of a source that closes its comments, and without them all else that it opens. -/
@[mk_iff]
structure ClosesAll (p : Text) : Prop where
  comments : Region.ClosesComments p
  readings : Closes (Region.stripComments p)

instance (p : Text) : Decidable (ClosesAll p) :=
  decidable_of_iff _ (closesAll_iff p).symm

theorem ClosesAll.trimStart {p : Text} (h : ClosesAll p) : ClosesAll (Text.trimStart p) where
  comments := h.comments.suffix (Text.trimStart_suffix p)
  readings := by
    have hblanks : ∀ c ∈ p.takeWhile isBlank, isBlank c = true := fun c hc =>
      List.mem_takeWhile_imp hc
    have hsplit : p = p.takeWhile isBlank ++ Text.trimStart p :=
      List.takeWhile_append_dropWhile.symm
    have hreadings := h.readings
    rw [hsplit, Region.stripComments_append hblanks] at hreadings
    exact hreadings.of_append hblanks

/-- What is read of two sources that differ in quiet contents. -/
theorem Varies.source {s₁ s₂ : Text} (h : Varies ClosesAll IsQuiet s₁ s₂) :
    Varies Closes IsQuiet (Region.stripComments (Text.trim s₁))
      (Region.stripComments (Text.trim s₂)) :=
  (h.trim fun _ hp => hp.trimStart).stripComments (fun _ hp => ⟨hp.comments, hp.readings⟩)
    fun _ hc => hc.toIsContent

end Verbatim

namespace View

open Verbatim

/-- **The body does not depend on the contents of regions.** -/
theorem body_text_eq {s₁ s₂ : Text} (h : Varies Region.ClosesComments IsContent s₁ s₂) :
    (Body.ofTemplate (Region.stripComments (Text.trim s₁))).text =
      (Body.ofTemplate (Region.stripComments (Text.trim s₂))).text := by
  have htrim := h.trim fun p hp => hp.suffix (Text.trimStart_suffix p)
  have hstrip : Varies (fun _ => True) IsContent (Region.stripComments (Text.trim s₁))
      (Region.stripComments (Text.trim s₂)) :=
    htrim.stripComments (fun _ hp => ⟨hp, trivial⟩) fun _ hc => hc
  have hprotect : protect (Region.stripComments (Text.trim s₁)) =
      protect (Region.stripComments (Text.trim s₂)) := hstrip.protectFrom_eq 0
  simp only [Body.ofTemplate, hprotect]

/-- Views with the same body agree but for the contents if the rest that is read of them agrees. -/
theorem agree_iff (shared : SharedCode) (name : Text) {s₁ s₂ : Text}
    (h : (Body.ofTemplate (Region.stripComments (Text.trim s₁))).text =
      (Body.ofTemplate (Region.stripComments (Text.trim s₂))).text) :
    let v₁ := ofTemplate shared s₁ name
    let v₂ := ofTemplate shared s₂ name
    v₂ = { v₁ with verbatim := v₂.verbatim } ↔
      v₁.declarations = v₂.declarations ∧ v₁.header = v₂.header ∧ v₁.assets = v₂.assets := by
  intro v₁ v₂
  constructor
  · intro heq
    rw [heq]
    exact ⟨rfl, rfl, rfl⟩
  · rintro ⟨hdeclarations, hheader, hassets⟩
    dsimp only [v₁, v₂, ofTemplate] at hdeclarations hheader hassets ⊢
    rw [h, hheader, hassets, hdeclarations]

/-- **What the contents of verbatim regions change.** For two sources that are equal except for the
contents of their regions, with comments closed outside:
* the bodies are equal;
* the views agree on everything but the contents just if declarations, header and assets agree;
* they do if the contents are quiet and the pieces before the regions close what they open;
* the words for deferred data and the view type count in a region as they do before and after. -/
theorem verbatim_contents_inert (shared : SharedCode) (name : Text) {s₁ s₂ : Text}
    (h : Varies Region.ClosesComments IsContent s₁ s₂) :
    let v₁ := ofTemplate shared s₁ name
    let v₂ := ofTemplate shared s₂ name
    (Body.ofTemplate (Region.stripComments (Text.trim s₁))).text =
        (Body.ofTemplate (Region.stripComments (Text.trim s₂))).text ∧
      (v₂ = { v₁ with verbatim := v₂.verbatim } ↔
        v₁.declarations = v₂.declarations ∧ v₁.header = v₂.header ∧ v₁.assets = v₂.assets) ∧
      (Varies ClosesAll IsQuiet s₁ s₂ → v₂ = { v₁ with verbatim := v₂.verbatim }) ∧
      ∀ p c s, Region.ClosesComments p → IsContent c →
        let header := (ofTemplate shared (p ++ (Region.ofContent c ++ s)) name).header
        let front := Region.stripComments (Text.trimStart p)
        let back := Region.stripComments (Text.trimEnd s)
        header.hasAwait = (Header.awaits front || Header.awaits c || Header.awaits back) ∧
          header.hasFetch = (Header.fetches front || Header.fetches c || Header.fetches back) ∧
          header.viewType = ((Header.namedType? front).or
            ((Header.namedType? c).or (Header.namedType? back))).getD "view" := by
  intro v₁ v₂
  have hbody := body_text_eq h
  have hagree := agree_iff shared name hbody
  refine ⟨hbody, hagree, fun hquiet => hagree.2 ?_, fun p c s hp hc => ?_⟩
  · have hsource := hquiet.source
    have hdeclarations := hsource.declarations_eq
    have hassets := hsource.assets_eq
    dsimp only [v₁, v₂, ofTemplate]
    rw [hdeclarations, hsource.header_eq, hassets]
    exact ⟨rfl, rfl, rfl⟩
  · dsimp only [ofTemplate, Header.read]
    rw [stripComments_region hp hc]
    refine ⟨Header.awaits_region .., Header.fetches_region .., ?_⟩
    rw [Header.viewTypeOf_eq, Header.namedType?_region]

/-- A view with a layout, then a region. -/
def layoutThen (c : Text) : Text := "@extends('a')\n".toList ++ (Region.ofContent c ++ [])

/-- A view that shows an injected name, then a region. -/
def shownThen (c : Text) : Text :=
  "@vars($x)\n\x7b\x7b $x \x7d\x7d\n".toList ++ (Region.ofContent c ++ [])

/-- A declaration in a region changes nothing, but the word for deferred data does. -/
theorem verbatim_contents_inert_words :
    let view : Text → View := fun source => ofTemplate {} source "v"
    view (layoutThen "\n@let($y = 1)") =
        { view (layoutThen "\n") with verbatim := (view (layoutThen "\n@let($y = 1)")).verbatim } ∧
      (view (shownThen "\n")).header.hasAwait = false ∧
      (view (shownThen "\n@await")).header.hasAwait = true ∧
      view (shownThen "\n@await") ≠
        { view (shownThen "\n") with verbatim := (view (shownThen "\n@await")).verbatim } := by
  intro view
  have hlayout : Varies ClosesAll IsQuiet (layoutThen "\n") (layoutThen "\n@let($y = 1)") :=
    .region (by decide +kernel) (by decide +kernel) (by decide +kernel) (.last [])
  have hshown : Varies Region.ClosesComments IsContent (shownThen "\n") (shownThen "\n@await") :=
    .region (by decide +kernel) (by decide +kernel) (by decide +kernel) (.last [])
  have hagree := (verbatim_contents_inert {} "v"
    (hlayout.mono (fun _ hp => hp.comments) fun _ hc => hc.toIsContent)).2.2.1 hlayout
  obtain ⟨-, hiff, -, hflags⟩ := verbatim_contents_inert {} "v" hshown
  have hquiet : (view (shownThen "\n")).header.hasAwait = false :=
    (hflags _ "\n" [] (by decide +kernel) (by decide +kernel)).1.trans (by decide +kernel)
  have hawait : (view (shownThen "\n@await")).header.hasAwait = true :=
    (hflags _ "\n@await" [] (by decide +kernel) (by decide +kernel)).1.trans (by decide +kernel)
  refine ⟨hagree, hquiet, hawait, fun heq => ?_⟩
  have hheader := congrArg Header.hasAwait (hiff.1 heq).2.1
  cases hquiet.symm.trans (hheader.trans hawait)

end View
end BladeView
