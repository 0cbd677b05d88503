import BladeView.Proofs.Script.Backticks

/-!
# When escaped backticks stay within a literal

A backtick ends a template literal unless an odd number of backslashes stands before it. Escaping
looks at one backslash only, and puts escaped backticks aside under a mark that may stand in the
text as well. So it does its work on all texts but those with an even run of backslashes before a
backtick, or with the first half of a mark in front of what completes it.

## Main statements

* `Quoted.backticks_escapes_iff`: the texts whose backticks are escaped.
-/
namespace BladeView.Quoted

open Script
open Text (replace replace_cons replace_old_append)
open List (cons_prefix_cons mem_cons)

/-- For each backtick the number of backslashes directly before it. The text comes after `n`
backslashes. -/
def slashRuns (n : Nat) : Text → List Nat
  | [] => []
  | c :: t =>
    if c = '\\' then slashRuns (n + 1) t
    else if c = '\x60' then n :: slashRuns 0 t
    else slashRuns 0 t

/-- The second text has the characters of the first, and backslashes in front of some backticks. -/
inductive Adds : Text → Text → Prop
  | nil : Adds [] []
  | copy (c : Char) {t u : Text} : Adds t u → Adds (c :: t) (c :: u)
  | tick {t u : Text} : Adds t u → Adds ('\x60' :: t) ('\\' :: '\x60' :: u)

/-- A mark without its last character. -/
def halfMark : Text := "\x00BT"

/-- The first half of a mark is nowhere followed by one of the endings. -/
def IsClean (endings : List Text) (t : Text) : Prop :=
  ∀ ending ∈ endings, ¬ halfMark ++ ending <:+: t

/-! ## Escaped backticks under a name -/

/-- A text with `new` for each escaped backtick, and a backslash before each backtick then. -/
def ticks (new t : Text) : Text := ticked (Text.replace escapedTick new t)

section Ticks

variable {new t p : Text} {c d : Char}

theorem ticks_escaped (new t : Text) :
    ticks new ('\\' :: '\x60' :: t) = ticked new ++ ticks new t := by
  have hreplace : replace escapedTick new ('\\' :: '\x60' :: t) = _ :=
    replace_old_append (by decide) t
  rw [ticks, hreplace, ticked_append, ticks]

theorem ticks_tick (new t : Text) : ticks new ('\x60' :: t) = '\\' :: '\x60' :: ticks new t := by
  have hprefix : ¬ escapedTick <+: '\x60' :: t := fun h =>
    absurd (cons_prefix_cons.1 h).1 (by decide)
  rw [ticks, replace_cons hprefix, ticked_tick, ticks]

theorem ticks_cons (hc : c ≠ '\x60') (h : ¬ escapedTick <+: c :: t) :
    ticks new (c :: t) = c :: ticks new t := by
  rw [ticks, replace_cons h, ticked_cons hc, ticks]

/-- The steps of the replacement, with the backticks apart. -/
theorem ticks_induction {P : Text → Prop} (nil : P [])
    (escaped : ∀ t, P t → P ('\\' :: '\x60' :: t)) (tick : ∀ t, P t → P ('\x60' :: t))
    (other : ∀ c t, c ≠ '\x60' → ¬ escapedTick <+: c :: t → P t → P (c :: t)) (t : Text) : P t := by
  induction t using Text.replace_induction (show escapedTick ≠ [] by decide) with
  | nil => exact nil
  | found t ih => exact escaped t ih
  | other c t hprefix ih =>
    by_cases hc : c = '\x60'
    · exact hc ▸ tick t ih
    · exact other c t hc hprefix ih

/-- A character that no replacement begins with was there before. -/
theorem ticks_eq_cons_iff (hnew : (ticked new).head? = some d) (hd : c ≠ d) (hslash : c ≠ '\\')
    (htick : c ≠ '\x60') : ticks new t = c :: p ↔ ∃ t', t = c :: t' ∧ ticks new t' = p := by
  constructor
  · intro h
    induction t using ticks_induction with
    | nil => cases h
    | escaped t =>
      obtain ⟨more, hmore⟩ := List.head?_eq_some_iff.1 hnew
      rw [ticks_escaped, hmore] at h
      exact absurd (List.cons.inj h).1.symm hd
    | tick t =>
      rw [ticks_tick] at h
      exact absurd (List.cons.inj h).1.symm hslash
    | other e t he hprefix =>
      rw [ticks_cons he hprefix] at h
      obtain ⟨rfl, hrest⟩ := List.cons.inj h
      exact ⟨t, rfl, hrest⟩
  · rintro ⟨t, rfl, rfl⟩
    exact ticks_cons htick fun h => hslash (cons_prefix_cons.1 h).1.symm

end Ticks

/-! ## Half marks -/

/-- The first half of a mark stands before a text. -/
def Behind (P : Text → Prop) (t : Text) : Prop := ∃ rest, t = halfMark ++ rest ∧ P rest

/-- One of the endings stands in front. -/
def Starts (endings : List Text) (t : Text) : Prop := ∃ ending ∈ endings, ending <+: t

theorem isClean_nil (endings : List Text) : IsClean endings [] := fun ending _ h =>
  absurd h.length_le (by simp [halfMark])

theorem isClean_cons {endings : List Text} {c : Char} {t : Text} :
    IsClean endings (c :: t) ↔ ¬ Behind (Starts endings) (c :: t) ∧ IsClean endings t := by
  have hbehind : ∀ ending, halfMark ++ ending <+: c :: t ↔ Behind (ending <+: ·) (c :: t) := by
    intro ending
    constructor
    · rintro ⟨more, heq⟩
      exact ⟨ending ++ more, by rw [← heq, List.append_assoc], List.prefix_append ending more⟩
    · rintro ⟨rest, heq, more, rfl⟩
      exact ⟨more, by rw [heq, List.append_assoc]⟩
  simp only [IsClean, List.infix_cons_iff, not_or, hbehind, forall₂_and]
  refine and_congr_left fun _ => ⟨?_, ?_⟩
  · rintro h ⟨rest, heq, ending, hmem, hstarts⟩
    exact h ending hmem ⟨rest, heq, hstarts⟩
  · rintro h ending hmem ⟨rest, heq, hstarts⟩
    exact h ⟨rest, heq, ending, hmem, hstarts⟩

/-- No mark begins with another character than a zero. -/
theorem isClean_cons_of_ne {endings : List Text} {c : Char} (hc : c ≠ '\x00') {t : Text} :
    IsClean endings (c :: t) ↔ IsClean endings t := by
  rw [isClean_cons, and_iff_right]
  rintro ⟨rest, heq, -⟩
  exact hc (List.cons.inj heq).1

theorem isClean_escaped {endings : List Text} {t : Text} :
    IsClean endings ('\\' :: '\x60' :: t) ↔ IsClean endings t := by
  rw [isClean_cons_of_ne (by decide), isClean_cons_of_ne (by decide)]

/-- The letters of a mark were there before. -/
theorem behind_ticks_iff {new t : Text} {c d : Char} {P : Text → Prop}
    (hnew : (ticked new).head? = some d) (hd : d ≠ 'B' ∧ d ≠ 'T') :
    Behind P (c :: ticks new t) ↔ Behind (fun rest => P (ticks new rest)) (c :: t) := by
  have hletters : ∀ rest, halfMark ++ rest = '\x00' :: 'B' :: 'T' :: rest := fun _ => rfl
  simp only [Behind, hletters, List.cons.injEq,
    ticks_eq_cons_iff hnew hd.1.symm (by decide) (by decide),
    ticks_eq_cons_iff hnew hd.2.symm (by decide) (by decide)]
  constructor
  · rintro ⟨_, ⟨rfl, _, rfl, rest, rfl, rfl⟩, h⟩
    exact ⟨rest, ⟨rfl, rfl⟩, h⟩
  · rintro ⟨rest, ⟨rfl, rfl⟩, h⟩
    exact ⟨_, ⟨rfl, _, rfl, rest, rfl, rfl⟩, h⟩

/-! ## The last step -/

/-- What turns the first half of a mark into a mark before the last step. -/
def completions : List Text := [['\x00'], escapedTick]

/-- Before the last step a mark stands where it stood, and where its first half stood before an
escaped backtick. -/
theorem mark_prefix_iff {c : Char} {t : Text} :
    backtickMark <+: c :: ticks backtickMark t ↔ Behind (Starts completions) (c :: t) := by
  have hzero : ∀ t, ['\x00'] <+: ticks backtickMark t ↔ Starts completions t := by
    intro t
    simp only [Starts, completions, mem_cons, List.not_mem_nil, or_false, exists_eq_or_imp,
      exists_eq_left]
    induction t using ticks_induction with
    | nil => decide
    | escaped t =>
      rw [ticks_escaped]
      exact iff_of_true ⟨_, rfl⟩ (.inr ⟨t, rfl⟩)
    | tick t =>
      rw [ticks_tick]
      simp [escapedTick]
    | other c t hc hprefix =>
      rw [ticks_cons hc hprefix, or_iff_left hprefix, cons_prefix_cons, cons_prefix_cons]
      simp
  have hstarts : Starts completions = fun t => ['\x00'] <+: ticks backtickMark t :=
    funext fun t => propext (hzero t).symm
  rw [hstarts, ← @behind_ticks_iff backtickMark t c '\x00' (['\x00'] <+: ·) (by decide) (by decide)]
  constructor
  · rintro ⟨more, heq⟩
    exact ⟨'\x00' :: more, heq.symm, more, rfl⟩
  · rintro ⟨_, heq, more, rfl⟩
    exact ⟨more, heq.symm⟩

theorem replace_mark_tick (t : Text) :
    replace backtickMark escapedTick ('\\' :: '\x60' :: t) =
      '\\' :: '\x60' :: replace backtickMark escapedTick t := by
  have hfirst : ∀ c u, c ≠ '\x00' → ¬ backtickMark <+: c :: u := fun c u hc h =>
    hc (cons_prefix_cons.1 h).1.symm
  rw [replace_cons (hfirst _ _ (by decide)), replace_cons (hfirst _ _ (by decide))]

theorem replace_mark_escaped (t : Text) :
    replace backtickMark escapedTick (ticks backtickMark ('\\' :: '\x60' :: t)) =
      '\\' :: '\x60' :: replace backtickMark escapedTick (ticks backtickMark t) := by
  rw [ticks_escaped]
  exact replace_old_append (by decide) _

/-- Every backtick gets a backslash, and those that have one keep it. -/
theorem backticks_of_isClean {t : Text} (h : IsClean completions t) :
    backticks t = ticks ['\x60'] t := by
  rw [backticks_eq]
  change replace backtickMark escapedTick (ticks backtickMark t) = _
  induction t using ticks_induction with
  | nil => rfl
  | escaped t ih =>
    rw [replace_mark_escaped, ih (isClean_escaped.1 h), ticks_escaped]
    rfl
  | tick t ih =>
    rw [ticks_tick, ticks_tick, replace_mark_tick, ih ((isClean_cons_of_ne (by decide)).1 h)]
  | other c t hc hprefix ih =>
    obtain ⟨hmark, hclean⟩ := isClean_cons.1 h
    rw [ticks_cons hc hprefix, ticks_cons hc hprefix,
      replace_cons (mt mark_prefix_iff.1 hmark), ih hclean]

/-- Where the last step finds another mark, a character of the text is lost. -/
theorem isClean_of_adds {t : Text} (h : Adds t (backticks t)) : IsClean completions t := by
  rw [backticks_eq] at h
  change Adds t (replace backtickMark escapedTick (ticks backtickMark t)) at h
  induction t using ticks_induction with
  | nil => exact isClean_nil _
  | escaped t ih =>
    rw [replace_mark_escaped] at h
    cases h with
    | copy _ h =>
      cases h with
      | copy _ h => exact isClean_escaped.2 (ih h)
  | tick t ih =>
    rw [ticks_tick, replace_mark_tick] at h
    cases h with
    | tick h => exact (isClean_cons_of_ne (by decide)).2 (ih h)
  | other c t hc hprefix ih =>
    rw [ticks_cons hc hprefix] at h
    by_cases hmark : backtickMark <+: c :: ticks backtickMark t
    · obtain ⟨more, hmore⟩ := hmark
      rw [← hmore, replace_old_append (by decide)] at h
      obtain rfl : '\x00' = c := (List.cons.inj hmore).1
      cases h
    · rw [replace_cons hmark] at h
      cases h with
      | copy _ h => exact isClean_cons.2 ⟨mt mark_prefix_iff.2 hmark, ih h⟩

/-! ## The escaped text -/

/-- The text with one backslash more before each backtick that has none. -/
theorem adds_ticks (t : Text) : Adds t (ticks ['\x60'] t) := by
  induction t using ticks_induction with
  | nil => exact .nil
  | escaped t ih =>
    rw [ticks_escaped]
    exact .copy _ (.copy _ ih)
  | tick t ih =>
    rw [ticks_tick]
    exact .tick ih
  | other c t hc hprefix ih =>
    rw [ticks_cons hc hprefix]
    exact .copy c ih

theorem adds_refl (t : Text) : Adds t t := by
  induction t with
  | nil => exact .nil
  | cons c t ih => exact .copy c ih

theorem not_tick_prefix_ticked (t : Text) : ¬ ['\x60'] <+: ticked t := by
  intro h
  cases t with
  | nil => cases h.length_le
  | cons c t =>
    by_cases hc : c = '\x60'
    · subst hc
      exact absurd (cons_prefix_cons.1 h).1 (by decide)
    · rw [ticked_cons hc] at h
      exact hc (cons_prefix_cons.1 h).1.symm

theorem ticks_ticks (t : Text) : ticks ['\x60'] (ticks ['\x60'] t) = ticks ['\x60'] t := by
  have hback : ∀ t, replace escapedTick ['\x60'] (ticked t) = t := by
    intro t
    induction t with
    | nil => rfl
    | cons c t ih =>
      by_cases hc : c = '\x60'
      · subst hc
        exact (replace_old_append (by decide) (ticked t)).trans (congrArg _ ih)
      · rw [ticked_cons hc, replace_cons, ih]
        exact fun h => not_tick_prefix_ticked t (cons_prefix_cons.1 h).2
  rw [ticks, ticks, hback]

/-- A backtick without backslashes before it gets one. -/
theorem slashRuns_ticks {n : Nat} {t : Text} (h : n = 0 ∨ t.head? ≠ some '\x60') :
    slashRuns n (ticks ['\x60'] t) = (slashRuns n t).map (max 1) := by
  have hescaped : ∀ n u, slashRuns n ('\\' :: '\x60' :: u) = (n + 1) :: slashRuns 0 u :=
    fun _ _ => rfl
  induction t using ticks_induction generalizing n with
  | nil => rfl
  | escaped t ih =>
    have hticks : ticks ['\x60'] ('\\' :: '\x60' :: t) = '\\' :: '\x60' :: ticks ['\x60'] t :=
      ticks_escaped _ t
    rw [hticks, hescaped, hescaped, ih (.inl rfl), List.map_cons, Nat.max_eq_right (by omega)]
  | tick t ih =>
    obtain rfl := h.resolve_right fun hhead => hhead rfl
    rw [ticks_tick, hescaped, ih (.inl rfl)]
    rfl
  | other c t hc hprefix ih =>
    rw [ticks_cons hc hprefix, slashRuns, slashRuns, if_neg hc]
    split
    case isTrue hslash =>
      refine ih (.inr fun hhead => hprefix ?_)
      obtain ⟨t, rfl⟩ := List.head?_eq_some_iff.1 hhead
      exact hslash ▸ ⟨t, rfl⟩
    case isFalse => exact ih (.inl rfl)

/-- Escaping completes the first half of a mark before a backtick. -/
theorem isClean_ticks_iff {t : Text} :
    IsClean completions (ticks ['\x60'] t) ↔ IsClean (['\x60'] :: completions) t := by
  have hstarts : ∀ t, Starts completions (ticks ['\x60'] t) ↔
      Starts (['\x60'] :: completions) t := by
    intro t
    simp only [Starts, completions, mem_cons, List.not_mem_nil, or_false, exists_eq_or_imp,
      exists_eq_left]
    induction t using ticks_induction with
    | nil => decide
    | escaped t =>
      rw [ticks_escaped]
      exact iff_of_true (.inr ⟨_, rfl⟩) (.inr (.inr ⟨t, rfl⟩))
    | tick t =>
      rw [ticks_tick]
      exact iff_of_true (.inr ⟨_, rfl⟩) (.inl ⟨t, rfl⟩)
    | other c t hc hprefix =>
      have hescaped : ¬ escapedTick <+: c :: ticks ['\x60'] t := fun h =>
        not_tick_prefix_ticked _ (cons_prefix_cons.1 h).2
      have htick : ¬ ['\x60'] <+: c :: t := fun h => hc (cons_prefix_cons.1 h).1.symm
      rw [ticks_cons hc hprefix, or_iff_left hescaped, or_iff_right htick, or_iff_left hprefix]
      simp only [cons_prefix_cons, List.nil_prefix]
  induction t using ticks_induction with
  | nil => exact iff_of_true (isClean_nil _) (isClean_nil _)
  | escaped t ih =>
    rw [ticks_escaped, isClean_escaped]
    exact isClean_escaped.trans ih
  | tick t ih =>
    rw [ticks_tick, isClean_escaped, isClean_cons_of_ne (by decide)]
    exact ih
  | other c t hc hprefix ih =>
    rw [ticks_cons hc hprefix, isClean_cons, isClean_cons,
      @behind_ticks_iff ['\x60'] t c '\\' _ (by decide) (by decide)]
    simp only [hstarts]
    exact and_congr_right fun _ => ih

/-- **When backticks are escaped.** In the result every backtick has an odd number of backslashes
before it, escaping again changes nothing, and the result is the text with backslashes added in
front of backticks, exactly if in the text every backtick has no backslash or an odd number of them
before it, and the first half of a mark is nowhere followed by a zero, by a backtick or by an
escaped backtick. -/
theorem backticks_escapes_iff (t : Text) :
    ((∀ n ∈ slashRuns 0 (backticks t), n % 2 = 1) ∧ backticks (backticks t) = backticks t ∧
        Adds t (backticks t)) ↔
      (∀ n ∈ slashRuns 0 t, n = 0 ∨ n % 2 = 1) ∧
        ∀ ending ∈ [['\x60'], ['\x00'], ['\\', '\x60']], ¬ halfMark ++ ending <:+: t := by
  have hruns : (∀ n ∈ slashRuns 0 (ticks ['\x60'] t), n % 2 = 1) ↔
      ∀ n ∈ slashRuns 0 t, n = 0 ∨ n % 2 = 1 := by
    rw [slashRuns_ticks (.inl rfl), List.forall_mem_map]
    refine forall₂_congr fun n _ => ?_
    omega
  change _ ↔ _ ∧ IsClean (['\x60'] :: completions) t
  constructor
  · rintro ⟨hodd, hagain, hadds⟩
    have hclean := backticks_of_isClean (isClean_of_adds hadds)
    rw [hclean] at hodd hagain
    refine ⟨hruns.1 hodd, isClean_ticks_iff.1 (isClean_of_adds ?_)⟩
    rw [hagain]
    exact adds_refl _
  · rintro ⟨hodd, hends⟩
    have hclean := backticks_of_isClean (List.forall_mem_cons.1 hends).2
    rw [hclean, backticks_of_isClean (isClean_ticks_iff.2 hends), ticks_ticks]
    exact ⟨hruns.2 hodd, rfl, adds_ticks t⟩

end BladeView.Quoted
