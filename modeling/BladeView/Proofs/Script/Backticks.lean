import BladeView.Proofs.Script.Cooked
import BladeView.Proofs.Text.Substitute

/-!
# Escaped backticks

A backtick that a backslash precedes is put aside under a mark, so that it is not escaped a second
time. The text then has one backslash for each backtick, but where the backslash was there before,
or where the mark itself stood in the text, what comes out of a literal is less than what went in.
-/
namespace BladeView

open Text (replace_eq_self weight weight_cons)

namespace Text

variable {old new t p : Text}

/-- Where a piece stands, its replacement comes to stand. -/
theorem isInfix_replace (hne : old ≠ []) (h : old <:+: t) : new <:+: replace old new t := by
  induction t using replace_induction hne with
  | nil => exact absurd (List.infix_nil.1 h) hne
  | found t ih =>
    rw [replace_old_append hne]
    exact (List.prefix_append _ _).isInfix
  | other c t hprefix ih =>
    rw [replace_cons hprefix]
    have hstands := (List.infix_cons_iff.1 h).resolve_left hprefix
    exact (ih hstands).trans (List.suffix_cons c _).isInfix

theorem notMem_replace (hne : old ≠ []) {c : Char} (hnew : c ∉ new) (ht : c ∉ t) :
    c ∉ replace old new t := by
  refine brace_notMem_substitute (consumes_after? hne) (fun t new' rest hread => ?_) ht
  obtain ⟨rest', -, hfound⟩ := Option.map_eq_some_iff.1 hread
  obtain ⟨rfl, -⟩ := Prod.mk.inj hfound
  exact hnew

theorem prefix_of_prefix_replace (hne : old ≠ []) {n : Char} (hn : n ∉ p)
    (h : p <+: replace old (n :: new) t) : p <+: t := by
  induction t using replace_induction hne generalizing p with
  | nil => exact h
  | found t ih =>
    rw [replace_old_append hne] at h
    cases p with
    | nil => exact List.nil_prefix
    | cons c p =>
      obtain rfl : c = n := (List.cons_prefix_cons.1 h).1
      exact absurd List.mem_cons_self hn
  | other c t hprefix ih =>
    rw [replace_cons hprefix] at h
    cases p with
    | nil => exact List.nil_prefix
    | cons d p =>
      obtain ⟨rfl, hrest⟩ := List.cons_prefix_cons.1 h
      exact List.cons_prefix_cons.2 ⟨rfl, ih (fun hmem => hn (List.mem_cons_of_mem d hmem)) hrest⟩

/-- A piece that cannot begin in a replacement, and cannot reach into one, was there before. -/
theorem isInfix_of_isInfix_replace (hne : old ≠ []) {n c : Char} (hn : n ∉ c :: p)
    (hc : c ∉ n :: new) (h : c :: p <:+: replace old (n :: new) t) : c :: p <:+: t := by
  induction t using replace_induction hne with
  | nil => exact h
  | found t ih =>
    rw [replace_old_append hne] at h
    have hrest : ∀ front : Text, c ∉ front → c :: p <:+: front ++ replace old (n :: new) t →
        c :: p <:+: replace old (n :: new) t := by
      intro front hfront hstands
      induction front with
      | nil => exact hstands
      | cons d front ihfront =>
        rw [List.mem_cons, not_or] at hfront
        refine ihfront hfront.2 ((List.infix_cons_iff.1 hstands).resolve_left fun hprefix => ?_)
        exact hfront.1 (List.cons_prefix_cons.1 hprefix).1
    exact (ih (hrest _ hc h)).trans (List.suffix_append _ _).isInfix
  | other d t hprefix ih =>
    rw [replace_cons hprefix] at h
    rcases List.infix_cons_iff.1 h with hfront | hrest
    · obtain ⟨rfl, hp⟩ := List.cons_prefix_cons.1 hfront
      have hn' : n ∉ p := fun hmem => hn (List.mem_cons_of_mem c hmem)
      exact (List.cons_prefix_cons.2 ⟨rfl, prefix_of_prefix_replace hne hn' hp⟩).isInfix
    · exact (ih hrest).trans (List.suffix_cons d t).isInfix

end Text

namespace Quoted

open Script

/-- A backtick that is escaped already. -/
def escapedTick : Text := ['\\', '\x60']

theorem backticks_eq (t : Text) : backticks t =
    Text.replace backtickMark escapedTick (ticked (Text.replace escapedTick backtickMark t)) := by
  rw [ticked, ← Text.replace_singleton]
  rfl

theorem ticked_isInfix {piece t : Text} (htick : '\x60' ∉ piece) (h : piece <:+: t) :
    piece <:+: ticked t := by
  obtain ⟨front, back, rfl⟩ := h
  rw [ticked_append, ticked_append, ticked_eq_self htick]
  exact ⟨ticked front, ticked back, rfl⟩

theorem isInfix_ticked_iff {piece t : Text} (htick : '\x60' ∉ piece) (hslash : '\\' ∉ piece)
    (ht : '\\' ∉ t) : piece <:+: ticked t ↔ piece <:+: t := by
  constructor
  · rintro ⟨front, back, heq⟩
    have hpiece : piece.filter (· != '\\') = piece :=
      List.filter_eq_self.2 fun c hc => bne_iff_ne.2 fun hc' => hslash (hc' ▸ hc)
    have hfilter := congrArg (List.filter (· != '\\')) heq
    rw [List.filter_append, List.filter_append, hpiece, filter_ticked ht] at hfilter
    exact ⟨_, _, hfilter⟩
  · exact ticked_isInfix htick

/-- Every backtick gets a backslash, if there are no backslashes and marks yet. -/
theorem backticks_eq_ticked {t : Text} (hslash : '\\' ∉ t) (hmark : ¬ backtickMark <:+: t) :
    backticks t = ticked t := by
  have hescaped : ¬ escapedTick <:+: t := fun h => hslash (h.subset List.mem_cons_self)
  have hticked : ¬ backtickMark <:+: ticked t := by
    rwa [isInfix_ticked_iff (by decide) (by decide) hslash]
  rw [backticks_eq, replace_eq_self hescaped, replace_eq_self hticked]

theorem weight_ticked (t : Text) :
    weight bodyWeight (ticked t) = weight charWeight t := by
  have hslash : bodyWeight '\\' = 1 := by decide
  have hbody : bodyWeight '\x60' = 0 := rfl
  have hchar : charWeight '\x60' = 1 := by decide
  induction t with
  | nil => rfl
  | cons c t ih =>
    by_cases hc : c = '\x60'
    · subst hc
      rw [ticked_tick, weight_cons, weight_cons, weight_cons, ih]
      omega
    · rw [ticked_cons hc, weight_cons, weight_cons, ih, bodyWeight, if_neg hc]

/-- A backtick that is put aside weighs as much as its mark. -/
theorem weight_putAside (t : Text) :
    weight charWeight (Text.replace escapedTick backtickMark t) =
      weight charWeight t := by
  have hne : escapedTick ≠ [] := List.cons_ne_nil _ _
  have hweight : weight charWeight escapedTick = weight charWeight backtickMark := by
    decide
  induction t using Text.replace_induction hne with
  | nil => rfl
  | found t ih =>
    rw [Text.replace_old_append hne, Text.weight_append, Text.weight_append, ih, hweight]
  | other c t hprefix ih => rw [Text.replace_cons hprefix, weight_cons, weight_cons, ih]

/-- Escaping the backticks loses something, unless there was no escaped backtick and no mark. -/
theorem weight_backticks_cases (t : Text) :
    (backticks t = ticked t ∧ ¬ backtickMark <:+: t) ∨
      weight bodyWeight (backticks t) < weight charWeight t := by
  have hne : escapedTick ≠ [] := List.cons_ne_nil _ _
  have hweight := weight_ticked (Text.replace escapedTick backtickMark t)
  rw [weight_putAside] at hweight
  have hlightens : Text.Lightens bodyWeight (Text.replace backtickMark escapedTick) :=
    Text.lightens_replace (by decide)
  rcases hlightens (ticked (Text.replace escapedTick backtickMark t)) with hsame | hlt
  · left
    have hmark := (Text.replace_eq_self_iff (by decide) _).1 hsame
    have hescaped : ¬ escapedTick <:+: t := fun h =>
      hmark (ticked_isInfix (by decide) (Text.isInfix_replace hne h))
    rw [backticks_eq, hsame, replace_eq_self hescaped]
    rw [replace_eq_self hescaped] at hmark
    exact ⟨rfl, fun h => hmark (ticked_isInfix (by decide) h)⟩
  · right
    rw [backticks_eq]
    omega

theorem weight_backticks_le (t : Text) :
    weight bodyWeight (backticks t) ≤ weight charWeight t := by
  rcases weight_backticks_cases t with ⟨hsame, -⟩ | hlt
  · rw [hsame, weight_ticked]
  · exact Nat.le_of_lt hlt

theorem notMem_backticks {c : Char} (hmark : c ∉ backtickMark) (htick : c ∉ escapedTick) {t : Text}
    (ht : c ∉ t) : c ∉ backticks t := by
  refine Text.notMem_replace (by decide) htick ?_
  refine Text.notMem_replace (by decide) htick ?_
  exact Text.notMem_replace (by decide) hmark ht

/-- A piece that has no zeros and backslashes, and does not begin like a mark, was there before. -/
theorem isInfix_of_isInfix_backticks {c : Char} {p t : Text} (hzero : '\x00' ∉ c :: p)
    (hslash : '\\' ∉ c :: p) (hmark : c ∉ backtickMark) (htick : c ∉ escapedTick)
    (h : c :: p <:+: backticks t) : c :: p <:+: t := by
  have hthird := Text.isInfix_of_isInfix_replace (by decide) hslash htick h
  have hsecond := Text.isInfix_of_isInfix_replace (by decide) hslash htick hthird
  exact Text.isInfix_of_isInfix_replace (by decide) hzero hmark hsecond

/-- The ends of a text stay free of blanks. -/
theorem getLast?_backticks {t : Text} (h : t.getLast?.any isBlank = false) :
    (backticks t).getLast?.any isBlank = false := by
  have hstep : ∀ {old new s : Text} {c : Char}, old ≠ [] → new.getLast? = some c →
      isBlank c = false → s.getLast?.any isBlank = false →
      (Text.replace old new s).getLast?.any isBlank = false := by
    intro old new s c hne hlast hc hs
    have hcases := Text.getLast?_substitute (@Text.consumes_after? old new hne)
      (c := c) (fun t new' rest hread => by
        obtain ⟨rest', -, hfound⟩ := Option.map_eq_some_iff.1 hread
        obtain ⟨rfl, -⟩ := Prod.mk.inj hfound
        exact hlast) s
    rcases hcases with hsame | hnew
    · exact (congrArg (Option.any isBlank) hsame).trans hs
    · exact (congrArg (Option.any isBlank) hnew).trans hc
  refine hstep (c := '\x60') (by decide) rfl (by decide) ?_
  refine hstep (c := '\x60') (by decide) rfl (by decide) ?_
  exact hstep (c := '\x00') (by decide) (by decide) (by decide) h

end Quoted
end BladeView
