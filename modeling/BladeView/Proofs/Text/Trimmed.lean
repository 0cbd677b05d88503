import Mathlib.Data.List.TakeWhile
import BladeView.Proofs.Text.Replace

/-!
# Trimmed lines

Trimming every line of a text takes blanks away and nothing else: what weighs something stays, and
so does every piece without blanks.
-/
namespace BladeView.Text

variable {before t after : Text}

/-! ## Trimming -/

theorem trim_blanks_append (h : ∀ c ∈ before, isBlank c = true) : trim (before ++ t) = trim t := by
  rw [trim, trimStart, List.dropWhile_append_of_pos h]
  rfl

theorem trimEnd_append_blanks (h : ∀ c ∈ after, isBlank c = true) :
    trimEnd (t ++ after) = trimEnd t := by
  have hreverse : ∀ c ∈ after.reverse, isBlank c = true := by simpa using h
  rw [trimEnd, dropEndWhile, List.reverse_append, List.dropWhile_append_of_pos hreverse]
  rfl

theorem trim_append_blanks (h : ∀ c ∈ after, isBlank c = true) : trim (t ++ after) = trim t := by
  rw [trim, trimStart, List.dropWhile_append]
  split
  case isTrue hempty =>
    rw [List.dropWhile_eq_nil_iff.2 h, trim, trimStart, List.isEmpty_iff.1 hempty]
  case isFalse => exact trimEnd_append_blanks h

/-- Blanks that come after other text are at the end of what follows it. -/
theorem trimEnd_append {a : Text} (h : a.getLast?.any isBlank = false) (s : Text) :
    trimEnd (a ++ s) = a ++ trimEnd s := by
  have ha : a.reverse.dropWhile isBlank = a.reverse := by
    refine dropWhile_eq_self_of_head? ?_
    rwa [List.head?_reverse]
  rw [trimEnd, dropEndWhile, List.reverse_append, List.dropWhile_append]
  split
  case isTrue hempty =>
    rw [trimEnd, dropEndWhile, List.isEmpty_iff.1 hempty, ha, List.reverse_reverse,
      List.reverse_nil, List.append_nil]
  case isFalse => rw [List.reverse_append, List.reverse_reverse, trimEnd, dropEndWhile]

/-- What stands between blanks is left, if it has none at its ends. -/
theorem trim_between (hbefore : ∀ c ∈ before, isBlank c = true)
    (hafter : ∀ c ∈ after, isBlank c = true) (hfirst : t.head?.any isBlank = false)
    (hlast : t.getLast?.any isBlank = false) : trim (before ++ t ++ after) = t := by
  have htrim : trimEnd t = t := by
    rw [trimEnd, dropEndWhile, dropWhile_eq_self_of_head? (by rwa [List.head?_reverse]),
      List.reverse_reverse]
  rw [List.append_assoc, trim_blanks_append hbefore, trim]
  cases t with
  | nil =>
    have hblank : trimStart after = [] := List.dropWhile_eq_nil_iff.2 hafter
    rw [List.nil_append, hblank]
    rfl
  | cons c t =>
    have hstart : trimStart (c :: t ++ after) = c :: t ++ after :=
      dropWhile_eq_self_of_head? hfirst
    rw [hstart, trimEnd_append_blanks hafter, htrim]

theorem getLast?_trim (t : Text) : (trim t).getLast?.any isBlank = false := by
  rw [trim, trimEnd, dropEndWhile, List.getLast?_reverse]
  exact head?_dropWhile isBlank (trimStart t).reverse

/-! ## Lines -/

/-- A text with every line trimmed. -/
def trimLines (t : Text) : Text := join "\n" ((splitOn '\n' t).map trim)

theorem notMem_trimLines {c : Char} (hbreak : c ≠ '\n') (h : c ∉ t) : c ∉ trimLines t := by
  refine join_induction (P := fun t => c ∉ t) (by simp) ?_ (by simpa using hbreak) ?_
  · intro s t hs ht
    rw [List.mem_append, not_or]
    exact ⟨hs, ht⟩
  · intro line hline hmem
    obtain ⟨line', hline', rfl⟩ := List.mem_map.1 hline
    exact h (mem_of_mem_splitOn hline' (mem_of_mem_trim hmem))

/-! ## Weights -/

/-- The weight of joined pieces, with that of the separators between them. -/
theorem weight_join_cons (w : Char → Nat) (separator first : Text) (rest : List Text) :
    weight w (join separator (first :: rest)) =
      weight (weight w) (first :: rest) + rest.length * weight w separator := by
  induction rest generalizing first with
  | nil => simp [join_singleton]
  | cons second rest ih =>
    rw [join_cons_cons, weight_append, weight_append, ih, weight_cons _ first, List.length_cons,
      Nat.succ_mul]
    omega

/-- Pieces weigh as much when they are joined, if what is put between them weighs nothing. -/
theorem weight_join {w : Char → Nat} {separator : Text} (h : weight w separator = 0)
    (pieces : List Text) : weight w (join separator pieces) = weight (weight w) pieces := by
  cases pieces with
  | nil => rfl
  | cons first rest => rw [weight_join_cons, h, Nat.mul_zero, Nat.add_zero]

section Weight

variable {w : Char → Nat} (hw : ∀ c, isBlank c = true → w c = 0)

include hw

theorem weight_blanks (h : ∀ c ∈ t, isBlank c = true) : weight w t = 0 := by
  induction t with
  | nil => rfl
  | cons c t ih =>
    rw [weight_cons, hw c (h c List.mem_cons_self), ih fun d hd => h d (List.mem_cons_of_mem c hd)]

theorem weight_trim (t : Text) : weight w (trim t) = weight w t := by
  obtain ⟨before, after, heq, hbefore, hafter⟩ := trim_spec t
  have hweight := congrArg (weight w) heq
  rw [weight_append, weight_append, weight_blanks hw hbefore, weight_blanks hw hafter] at hweight
  omega

theorem weight_trimStart (t : Text) : weight w (trimStart t) = weight w t := by
  have hsplit : t.takeWhile isBlank ++ trimStart t = t := List.takeWhile_append_dropWhile
  have hblanks : weight w (t.takeWhile isBlank) = 0 :=
    weight_blanks hw fun c hc => List.all_eq_true.1 List.all_takeWhile c hc
  have hweight := congrArg (weight w) hsplit
  rw [weight_append] at hweight
  omega

theorem weight_joinLines (lines : List Text) :
    weight w (join "\n" lines) = weight (weight w) lines :=
  weight_join (weight_blanks hw (by simp; decide)) lines

/-- The lines of a text weigh as much as the text. -/
theorem weight_splitOn (t : Text) : weight (weight w) (splitOn '\n' t) = weight w t := by
  rw [← weight_joinLines hw]
  exact congrArg (weight w) (join_splitOn '\n' t)

theorem weight_trimLines (t : Text) : weight w (trimLines t) = weight w t := by
  rw [trimLines, weight_joinLines hw, ← weight_splitOn hw t]
  induction splitOn '\n' t with
  | nil => rfl
  | cons line lines ih => rw [List.map_cons, weight_cons, weight_cons, weight_trim hw, ih]

end Weight

theorem weight_indicator (c : Char) (t : Text) :
    weight (fun d => if d = c then 1 else 0) t = t.count c := by
  induction t with
  | nil => rfl
  | cons d t ih => simp [ih, List.count_cons, Nat.add_comm]

theorem mem_trimLines_iff {c : Char} (hc : isBlank c = false) : c ∈ trimLines t ↔ c ∈ t := by
  have hcount : (trimLines t).count c = t.count c := by
    rw [← weight_indicator, ← weight_indicator]
    refine weight_trimLines (fun d hd => if_neg ?_) t
    rintro rfl
    rw [hc] at hd
    cases hd
  rw [← List.count_pos_iff, hcount, List.count_pos_iff]

/-! ## Pieces without blanks -/

section Piece

variable {piece : Text} (hne : piece ≠ []) (hplain : ∀ c ∈ piece, isBlank c = false)

include hne hplain

theorem not_isInfix_of_blanks (h : ∀ c ∈ t, isBlank c = true) : ¬ piece <:+: t := by
  intro hstands
  obtain ⟨c, rest, rfl⟩ := List.exists_cons_of_ne_nil hne
  have hblank := h c (hstands.subset List.mem_cons_self)
  rw [hplain c List.mem_cons_self] at hblank
  cases hblank

theorem isInfix_blanks_append (h : ∀ c ∈ before, isBlank c = true) :
    piece <:+: before ++ t ↔ piece <:+: t := by
  induction before with
  | nil => rfl
  | cons c before ih =>
    have hc : c ∉ piece := by
      intro hmem
      have hblank := h c List.mem_cons_self
      rw [hplain c hmem] at hblank
      cases hblank
    have hbefore := ih fun d hd => h d (List.mem_cons_of_mem c hd)
    rw [List.cons_append, ← List.nil_append (c :: _), isInfix_append_cons_iff hc, hbefore]
    exact or_iff_right (by simpa using hne)

theorem isInfix_append_blanks (h : ∀ c ∈ after, isBlank c = true) :
    piece <:+: t ++ after ↔ piece <:+: t := by
  cases after with
  | nil => rw [List.append_nil]
  | cons c after =>
    have hc : c ∉ piece := by
      intro hmem
      have hblank := h c List.mem_cons_self
      rw [hplain c hmem] at hblank
      cases hblank
    rw [isInfix_append_cons_iff hc]
    exact or_iff_left
      (not_isInfix_of_blanks hne hplain fun d hd => h d (List.mem_cons_of_mem c hd))

theorem isInfix_trim_iff : piece <:+: trim t ↔ piece <:+: t := by
  obtain ⟨before, after, heq, hbefore, hafter⟩ := trim_spec t
  calc piece <:+: trim t ↔ piece <:+: before ++ trim t :=
        (isInfix_blanks_append hne hplain hbefore).symm
    _ ↔ piece <:+: before ++ trim t ++ after := (isInfix_append_blanks hne hplain hafter).symm
    _ ↔ piece <:+: t := by rw [← heq]

end Piece

/-- A piece without the separator stands in one of the texts that are joined. -/
theorem isInfix_join_iff {piece : Text} (hne : piece ≠ []) {c : Char} (hc : c ∉ piece)
    {texts : List Text} : piece <:+: join [c] texts ↔ ∃ t ∈ texts, piece <:+: t := by
  induction texts with
  | nil => simp [join, hne]
  | cons first rest ih =>
    cases rest with
    | nil => simp [join_singleton]
    | cons second rest =>
      rw [join_char_cons, isInfix_append_cons_iff hc, ih]
      simp

theorem isInfix_joinLines_iff {piece : Text} (hne : piece ≠ []) (hbreak : '\n' ∉ piece)
    {lines : List Text} :
    piece <:+: join "\n" lines ↔ ∃ line ∈ lines, piece <:+: line :=
  isInfix_join_iff hne hbreak

theorem isInfix_trimLines_iff {piece : Text} (hne : piece ≠ [])
    (hplain : ∀ c ∈ piece, isBlank c = false) :
    piece <:+: trimLines t ↔ piece <:+: t := by
  have hbreak : '\n' ∉ piece := fun hmem => Bool.false_ne_true ((hplain _ hmem).symm.trans rfl)
  have htext : piece <:+: t ↔ ∃ line ∈ splitOn '\n' t, piece <:+: line := by
    rw [← isInfix_joinLines_iff hne hbreak]
    exact iff_of_eq (congrArg _ (join_splitOn '\n' t).symm)
  rw [trimLines, isInfix_joinLines_iff hne hbreak, htext]
  simp only [List.mem_map, exists_exists_and_eq_and, isInfix_trim_iff hne hplain]

end BladeView.Text
