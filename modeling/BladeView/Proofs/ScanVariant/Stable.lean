import BladeView.Proofs.ScanVariant.Followed

/-!
# The scan variant of a scan variant

Scanning code that is its own scan variant already changes nothing. The followed regions are what
makes this more than a fact about renaming: their calls have been changed back, so they are renamed
once more. Renaming takes each of them to what it was before it was changed back, so the pass over
followed regions meets the same code again.

## Main statements

* `ScanVariant.rename_complete_reversible_stable`: no call is left, renaming can be undone, and the
  scan variant is its own scan variant.
-/
namespace BladeView.ScanVariant

/-! ## Renaming twice -/

/-- What is changed back can be renamed again. -/
theorem renames_of_reverts : ∀ e ∈ reverts, (e.2, e.1) ∈ renames := by
  simp [reverts, renames]

theorem rename_rename_piece (piece : Text) :
    rewriteAll renames (rewriteAll renames piece) = rewriteAll renames piece :=
  Separated.rewriteAll_of_forall_not fun _ he => separated_renames.not_suffix_rewriteAll he piece

theorem rename_revert_piece (piece : Text) :
    rewriteAll renames (rewriteAll reverts (rewriteAll renames piece)) =
      rewriteAll renames piece := by
  rcases separated_reverts.rewriteAll_cases (rewriteAll renames piece) with
    ⟨e, he, front, hrenamed, hback⟩ | ⟨-, hsame⟩
  · rw [hback, hrenamed]
    exact separated_renames.rewriteAll_append (renames_of_reverts e he) front
  · rw [hsame, rename_rename_piece]

theorem rename_rename (t : Text) :
    replaceAll renames (replaceAll renames t) = replaceAll renames t := by
  simp only [separated_renames.replaceAll_eq,
    Text.mapCalls_mapCalls separated_renames.rewriteAll_noParen, rename_rename_piece]

/-- Renaming goes back over what was changed back. -/
theorem rename_revert (t : Text) :
    replaceAll renames (replaceAll reverts (replaceAll renames t)) = replaceAll renames t := by
  have hback : ∀ piece, '(' ∉ piece → '(' ∉ rewriteAll reverts (rewriteAll renames piece) :=
    fun piece hpiece => separated_reverts.rewriteAll_noParen _
      (separated_renames.rewriteAll_noParen piece hpiece)
  simp only [separated_renames.replaceAll_eq, separated_reverts.replaceAll_eq,
    Text.mapCalls_mapCalls separated_renames.rewriteAll_noParen, Text.mapCalls_mapCalls hback,
    rename_revert_piece]

/-! ## Followed regions -/

/-- The variant of a region is renamed to what the region is renamed to. -/
theorem Region.rename_variant {g : Region} (h : g.call ∈ followCalls) {s t : Text}
    (hrest : replaceAll renames s = replaceAll renames t) :
    replaceAll renames (g.variant ++ s) = replaceAll renames (g.code ++ t) := by
  have hclose : ∀ body more, replaceAll renames (body ++ '\x7d' :: more) =
      replaceAll renames body ++ '\x7d' :: replaceAll renames more :=
    separated_renames.replaceAll_append_cons (by decide) (by decide)
  have hstart : start = opening "this.__followScan(" := rfl
  calc replaceAll renames (g.variant ++ s)
      = replaceAll renames (replaceAll renames g.outside ++ opening "this.__followScan(" ++
          (replaceAll reverts (replaceAll renames g.body) ++ '\x7d' :: s)) := by
        simp [variant, hstart]
    _ = replaceAll renames g.outside ++ start ++
          (replaceAll renames g.body ++ '\x7d' :: replaceAll renames s) := by
        rw [replaceAll_opening (by decide), rename_rename, hclose, rename_revert]
    _ = replaceAll renames (g.outside ++ opening g.call ++ (g.body ++ '\x7d' :: t)) := by
        rw [replaceAll_opening h, hclose, hrest]
    _ = replaceAll renames (g.code ++ t) := by simp [code]

/-- Renaming forgets what the pass over followed regions did. -/
theorem rename_ofCode (code : Text) :
    replaceAll renames (ofCode code) = replaceAll renames code := by
  obtain ⟨regions, rest, hparses⟩ := exists_parses code
  rw [ofCode_eq hparses]
  obtain ⟨rfl, hfound, -⟩ := hparses
  induction regions with
  | nil =>
    rw [List.flatMap_nil, List.nil_append, List.flatMap_nil, List.nil_append, rename_rename]
  | cons g regions ih =>
    rw [List.forall_mem_cons] at hfound
    rw [List.flatMap_cons, List.append_assoc, List.flatMap_cons, List.append_assoc]
    exact Region.rename_variant hfound.1.call (ih hfound.2)

/-! ## The laws of renaming -/

/-- The calls that renaming writes. -/
def scanCalls : List String := renames.map Prod.snd

/-- Other spellings of calls. Changing back gives the first spelling. -/
def aliases : List String :=
  ["App.View.section(", "App.View.text(", "this.subscribe(", "this.subscribeBlock(",
   "this.useBlock(", "this.addBlock(", "this.renderFollowingBlock("]

/-- The calls that are renamed and never changed back. -/
def oneWay : List String := ["this.__extends(", "this.__showError("]

theorem mem_of_mem_lossy : ∀ call ∈ lossy, call ∈ scanCalls ++ aliases ++ oneWay := by
  simp [lossy, scanCalls, aliases, oneWay, renames, reverts]

/-- **The laws of renaming.** Renaming leaves no call that has a scan counterpart. It can be undone
in code without scan calls, without other spellings and without the calls that are never changed
back; of these only the lossy ones matter. And the scan variant of code is its own scan variant. -/
theorem rename_complete_reversible_stable (code region : Text) :
    (∀ e ∈ renames, ¬ e.1.toList <:+: replaceAll renames code) ∧
    ((∀ call ∈ scanCalls ++ aliases ++ oneWay, ¬ call.toList <:+: region) →
      replaceAll reverts (replaceAll renames region) = region) ∧
    (replaceAll reverts (replaceAll renames region) = region ↔
      ∀ call ∈ lossy, ¬ call.toList <:+: region) ∧
    ofCode (ofCode code) = ofCode code := by
  have hundo : replaceAll reverts (replaceAll renames region) = region ↔
      ∀ call ∈ lossy, ¬ call.toList <:+: region := by
    simpa using revert_rename_iff region [] []
  refine ⟨fun e he => separated_renames.not_infix_replaceAll he code, fun hnone => ?_, hundo, ?_⟩
  · exact hundo.mpr fun call hcall => hnone call (mem_of_mem_lossy call hcall)
  · rw [ofCode, rename_ofCode, ← ofCode]

/-- A followed region with a section in it and another call after it. -/
def followedSection : Text :=
  "$\x7bthis.__follow(['n'], () => `$\x7bthis.__section('x', `a`, 'html')\x7d`)\x7d$\x7bApp.View.text('y')\x7d"

/-- The section of the region. -/
def sectionCall : Text := "$\x7bthis.__section('x', `a`, 'html')\x7d"

/-- The section is renamed and changed back, and the call after the region stays renamed. -/
theorem rename_complete_reversible_stable_followedSection :
    (∀ call ∈ scanCalls ++ aliases ++ oneWay, ¬ call.toList <:+: sectionCall) ∧
      replaceAll reverts (replaceAll renames sectionCall) = sectionCall ∧
      ¬ "App.View.text(".toList <:+: replaceAll renames followedSection ∧
      ofCode (ofCode followedSection) = ofCode followedSection := by
  obtain ⟨hgone, hundo, -, hstable⟩ :=
    rename_complete_reversible_stable followedSection sectionCall
  have hplain : ∀ call ∈ scanCalls ++ aliases ++ oneWay, ¬ call.toList <:+: sectionCall := by
    decide +kernel
  exact ⟨hplain, hundo hplain, hgone ("App.View.text(", "this.__textScan(") (by decide), hstable⟩

end BladeView.ScanVariant
