import Mathlib.Data.List.Nodup
import BladeView.Proofs.Text.Basic

/-!
# Texts with their origins

A pass over a text copies some of its characters and writes or drops others. To say what becomes of
a certain part of a text, every character is given its place in the source, and the passes are run
on the characters together with their places: a character that is copied keeps its place, and one
that is written has none. Without the places the passes are those on plain texts.
-/
namespace BladeView

open List (cons_append mem_cons mem_cons_of_mem)

variable {x : Char × Option Nat} {i jump : Nat} {before : Option Char}

/-- A text in which each character has its place in the source, if it was copied from there. -/
abbrev Traced := List (Char × Option Nat)

namespace Traced

/-- The text without the places. -/
def chars (r : Traced) : Text := r.map Prod.fst

/-- A part of the source that begins at the place `n`. -/
def ofText (n : Nat) : Text → Traced
  | [] => []
  | c :: cs => (c, some n) :: ofText (n + 1) cs

/-- The places of the source that are copied. -/
def origins (r : Traced) : List Nat := r.filterMap Prod.snd

@[simp] theorem chars_nil : chars [] = [] := rfl

@[simp] theorem chars_cons (x : Char × Option Nat) (r : Traced) :
    chars (x :: r) = x.1 :: chars r := rfl

@[simp] theorem chars_append (r s : Traced) : chars (r ++ s) = chars r ++ chars s := List.map_append

@[simp] theorem length_chars (r : Traced) : (chars r).length = r.length := List.length_map _

/-- A split of the characters is a split of the text. -/
theorem exists_of_chars_eq_append {r : Traced} {t u : Text} (h : chars r = t ++ u) :
    ∃ r₁ r₂, r = r₁ ++ r₂ ∧ chars r₁ = t ∧ chars r₂ = u := List.map_eq_append_iff.1 h

theorem getLast?_chars (r : Traced) : (chars r).getLast? = r.getLast?.map Prod.fst :=
  List.getLast?_map

@[simp] theorem chars_ofText (n : Nat) (t : Text) : chars (ofText n t) = t := by
  induction t generalizing n with
  | nil => rfl
  | cons c t ih => rw [ofText, chars_cons, ih]

theorem ofText_append (n : Nat) (t u : Text) :
    ofText n (t ++ u) = ofText n t ++ ofText (n + t.length) u := by
  induction t generalizing n with
  | nil => rfl
  | cons c t ih =>
    rw [cons_append, ofText, ofText, ih, List.length_cons, cons_append, Nat.add_right_comm]
    rfl

theorem origins_ofText (n : Nat) (t : Text) : origins (ofText n t) = List.range' n t.length := by
  induction t generalizing n with
  | nil => rfl
  | cons c t ih =>
    rw [List.length_cons, List.range'_succ, ← ih (n + 1)]
    rfl

theorem nodup_origins_ofText (n : Nat) (t : Text) : (origins (ofText n t)).Nodup := by
  rw [origins_ofText]
  exact List.nodup_range'

theorem origins_append (r s : Traced) : origins (r ++ s) = origins r ++ origins s :=
  List.filterMap_append

theorem mem_origins {r : Traced} (hx : x.2 = some i) (h : x ∈ r) :
    i ∈ origins r := List.mem_filterMap.2 ⟨x, h, hx⟩

/-- A place is copied at most once. -/
theorem notMem_of_nodup {r s : Traced} (hx : x.2 = some i) (h : (origins (r ++ x :: s)).Nodup) :
    x ∉ r ∧ x ∉ s := by
  have hsplit : origins (r ++ x :: s) = origins r ++ i :: origins s := by
    rw [origins_append, origins, origins, List.filterMap_cons_some hx]
    rfl
  rw [hsplit, List.nodup_append, List.nodup_cons] at h
  obtain ⟨-, ⟨hs, -⟩, hdisjoint⟩ := h
  exact ⟨fun hr => hdisjoint i (mem_origins hx hr) i List.mem_cons_self rfl,
    fun hmem => hs (mem_origins hx hmem)⟩

/-- What stands before and after a copied character is determined. -/
theorem append_cons_unique {r s r' s' : Traced} (hx : x.2 = some i)
    (hnodup : (origins (r ++ x :: s)).Nodup) (h : r ++ x :: s = r' ++ x :: s') :
    r = r' ∧ s = s' := by
  obtain ⟨hr, hs⟩ := notMem_of_nodup hx hnodup
  rw [h] at hnodup
  obtain ⟨hr', -⟩ := notMem_of_nodup hx hnodup
  rw [List.append_eq_append_iff] at h
  rcases h with ⟨w, rfl, hw⟩ | ⟨w, rfl, hw⟩
  · cases w with
    | nil => simpa using hw
    | cons y w =>
      obtain ⟨rfl, -⟩ := List.cons.inj hw
      exact absurd (by simp) hr'
  · cases w with
    | nil =>
      obtain ⟨-, rfl⟩ := List.cons.inj hw
      simp
    | cons y w =>
      obtain ⟨rfl, -⟩ := List.cons.inj hw
      exact absurd (by simp) hr

/-! ## Passes -/

section Sweep

variable {σ : Type} {step : Option Char → σ → Text → Text × σ × Nat}

/-- What a step writes at a character. If it writes that character and reads no further, it copies
it. -/
def written (x : Char × Option Nat) (out : Text) (jump : Nat) : Traced :=
  if out == [x.1] && jump == 0 then [x] else out.map fun c => (c, none)

theorem chars_written (x : Char × Option Nat) (out : Text) (jump : Nat) :
    chars (written x out jump) = out := by
  unfold written
  split
  · next hcopy =>
    rw [Bool.and_eq_true, beq_iff_eq] at hcopy
    exact hcopy.1.symm
  · exact (List.map_map ..).trans (List.map_id _)

theorem written_self (x : Char × Option Nat) : written x [x.1] 0 = [x] := by simp [written]

/-- The copied characters, in order. -/
def copied (r : Traced) : Traced := r.filter fun x => x.2.isSome

theorem copied_append (r s : Traced) : copied (r ++ s) = copied r ++ copied s :=
  List.filter_append ..

theorem copied_sublist {r s : Traced} (h : List.Sublist r s) : List.Sublist (copied r) (copied s) :=
  h.filter _

theorem origins_copied (r : Traced) : origins (copied r) = origins r := by
  rw [origins, origins, copied, List.filterMap_filter]
  refine List.filterMap_congr fun x _ => ?_
  cases x.2 <;> rfl

theorem mem_of_mem_copied {r : Traced} (h : x ∈ copied r) : x ∈ r :=
  List.mem_of_mem_filter h

theorem mem_copied {r : Traced} (hx : x.2 = some i) (h : x ∈ r) :
    x ∈ copied r := List.mem_filter.2 ⟨h, by rw [hx]; rfl⟩

theorem copied_written (x : Char × Option Nat) (out : Text) (jump : Nat) :
    List.Sublist (copied (written x out jump)) (copied [x]) := by
  unfold written
  split
  · exact List.Sublist.refl _
  · have hnone : copied (out.map fun c => (c, none)) = [] := by
      rw [copied, List.filter_eq_nil_iff]
      simp
    rw [hnone]
    exact List.nil_sublist _

/-- A pass from left to right. -/
def sweep (step : Option Char → σ → Text → Text × σ × Nat) (before : Option Char) (state : σ) :
    Nat → Traced → Traced
  | _, [] => []
  | jump + 1, x :: r => sweep step (some x.1) state jump r
  | 0, x :: r =>
    match step before state (chars (x :: r)) with
    | (out, state', jump) => written x out jump ++ sweep step (some x.1) state' jump r

/-- **Without the places, a pass is the pass on the text.** -/
theorem chars_sweep (before : Option Char) (state : σ) (jump : Nat) (r : Traced) :
    chars (sweep step before state jump r) = Text.sweep step before state jump (chars r) := by
  fun_induction sweep step before state jump r with
  | case1 => rfl
  | case2 before state jump x r ih => exact ih
  | case3 before state x r out state' jump hstep ih =>
    rw [chars_append, chars_written, ih, chars_cons, Text.sweep, ← chars_cons, hstep]

/-- A pass copies only what is there, and in order. -/
theorem copied_sweep (before : Option Char) (state : σ) (jump : Nat) (r : Traced) :
    List.Sublist (copied (sweep step before state jump r)) (copied (r.drop jump)) := by
  fun_induction sweep step before state jump r with
  | case1 => exact List.nil_sublist _
  | case2 before state jump x r ih => exact ih
  | case3 before state x r out state' jump hstep ih =>
    have hrest := ih.trans (copied_sublist (List.drop_sublist jump r))
    have happend := (copied_written x out jump).append hrest
    rwa [← copied_append, ← copied_append] at happend

theorem mem_of_mem_sweep {state : σ} {r : Traced} (hx : x.2 = some i)
    (h : x ∈ sweep step before state jump r) :
    x ∈ r.drop jump :=
  mem_of_mem_copied ((copied_sweep before state jump r).subset (mem_copied hx h))

/-- A pass over a text goes on from where it is after the front part. -/
theorem sweep_append (before : Option Char) (state : σ) (jump : Nat) (r s : Traced) :
    ∃ out before' state' jump', sweep step before state jump (r ++ s) =
      out ++ sweep step before' state' jump' s ∧ ∀ x ∈ out, x.2.isSome = true → x ∈ r := by
  induction r generalizing before state jump with
  | nil => exact ⟨[], before, state, jump, rfl, by simp⟩
  | cons x r ih =>
    cases jump with
    | succ jump =>
      obtain ⟨out, before', state', jump', heq, hout⟩ := ih (some x.1) state jump
      exact ⟨out, before', state', jump', heq, fun y hy hsome =>
        mem_cons_of_mem x (hout y hy hsome)⟩
    | zero =>
      rw [cons_append, sweep]
      rcases step before state (chars (x :: (r ++ s))) with ⟨out₁, state₁, jump₁⟩
      obtain ⟨out, before', state', jump', heq, hout⟩ := ih (some x.1) state₁ jump₁
      refine ⟨written x out₁ jump₁ ++ out, before', state', jump', ?_, ?_⟩
      · simp only [heq, List.append_assoc]
      · intro y hy hsome
        rcases List.mem_append.1 hy with hy | hy
        · have hcopied : y ∈ copied (written x out₁ jump₁) := List.mem_filter.2 ⟨hy, hsome⟩
          have hmem := mem_of_mem_copied ((copied_written x out₁ jump₁).subset hcopied)
          exact mem_cons.2 (.inl (List.mem_singleton.1 hmem))
        · exact mem_cons_of_mem x (hout y hy hsome)

/-- Whatever follows, the steps of a pass copy a piece. -/
def Copies (step : Option Char → σ → Text → Text × σ × Nat) (piece : Text) : Prop :=
  ∀ before state c t rest, c :: t <:+ piece → step before state (c :: t ++ rest) = ([c], state, 0)

theorem sweep_of_copies {h : Traced} (hcopies : Copies step (chars h)) (before : Option Char)
    (state : σ) (r : Traced) :
    ∃ before', sweep step before state 0 (h ++ r) = h ++ sweep step before' state 0 r := by
  induction h generalizing before with
  | nil => exact ⟨before, rfl⟩
  | cons x h ih =>
    have hrest : Copies step (chars h) := fun before state c t rest hsuffix =>
      hcopies before state c t rest (hsuffix.trans (List.suffix_cons _ _))
    obtain ⟨before', heq⟩ := ih hrest (some x.1)
    refine ⟨before', ?_⟩
    have hstep := hcopies before state x.1 (chars h) (chars r) (List.suffix_refl _)
    have hchars : chars (x :: (h ++ r)) = x.1 :: chars h ++ chars r := by simp
    rw [cons_append, sweep, hchars, hstep]
    simp [written_self, heq]

/-- A text holds a piece of the source as a whole, or it has lost the first character of it. -/
structure Carries (x : Char × Option Nat) (h r : Traced) : Prop where
  nodup : (origins r).Nodup
  whole : x ∈ r → x :: h <:+: r

/-- **A pass that begins nothing inside a piece keeps the piece whole or drops its first
character.** -/
theorem Carries.sweep {h r : Traced} (hr : Carries x h r) (hx : x.2 = some i)
    (hcopies : Copies step (chars (x :: h))) (before : Option Char) (state : σ) :
    Carries x h (Traced.sweep step before state 0 r) where
  nodup := by
    have hsublist : List.Sublist (origins (copied (Traced.sweep step before state 0 r)))
        (origins (copied r)) := (copied_sweep before state 0 r).filterMap Prod.snd
    rw [origins_copied, origins_copied] at hsublist
    exact hr.nodup.sublist hsublist
  whole := by
    intro hmem
    obtain ⟨r₁, r₂, hsplit⟩ := hr.whole (mem_of_mem_sweep hx hmem)
    have heq : r = r₁ ++ x :: (h ++ r₂) := by simp [← hsplit]
    have hnodup := hr.nodup
    rw [heq] at hnodup hmem ⊢
    obtain ⟨hfront, hback⟩ := notMem_of_nodup hx hnodup
    obtain ⟨out, before', state', jump, hout, horigin⟩ :=
      @sweep_append σ step before state 0 r₁ (x :: (h ++ r₂))
    rw [hout] at hmem ⊢
    cases jump with
    | zero =>
      obtain ⟨before'', hcopy⟩ := sweep_of_copies hcopies before' state' r₂
      rw [cons_append] at hcopy
      rw [hcopy]
      exact ⟨out, Traced.sweep step before'' state' 0 r₂, by simp⟩
    | succ jump =>
      -- The first character has been read over, so it is nowhere in the output.
      rcases List.mem_append.1 hmem with hmem | hmem
      · exact absurd (horigin x hmem (by rw [hx]; rfl)) hfront
      · have hdrop : x ∈ (h ++ r₂).drop jump := mem_of_mem_sweep hx hmem
        exact absurd (List.mem_of_mem_drop hdrop) hback

end Sweep

/-! ## Substitution -/

section Substitute

variable {reader : Option Char → Text → Option (Text × Text)}

/-- Puts in place of each piece that `reader` reads the text that it gives. -/
def substitute (reader : Option Char → Text → Option (Text × Text)) (r : Traced) : Traced :=
  sweep (Text.substituteStep reader) none () 0 r

theorem chars_substitute (r : Traced) :
    chars (substitute reader r) = Text.substitute reader (chars r) := chars_sweep none () 0 r

/-- A reader that never begins inside a piece, whatever follows. -/
def Leaves (reader : Option Char → Text → Option (Text × Text)) (piece : Text) : Prop :=
  ∀ before c t rest, c :: t <:+ piece → reader before (c :: t ++ rest) = none

theorem Leaves.copies {piece : Text} (h : Leaves reader piece) :
    Copies (Text.substituteStep reader) piece := by
  intro before _ c t rest hsuffix
  rw [Text.substituteStep, h before c t rest hsuffix]
  rfl

end Substitute

/-! ## Reading -/

section Reads

variable {α : Type} {reader : Option Char → Traced → Option (α × Nat)}

/-- What `reader` reads, each from where the one before ended, with the pieces it was read from.
The reader gives the number of characters that it reads beyond the first. -/
def reads (reader : Option Char → Traced → Option (α × Nat)) (before : Option Char) :
    Nat → Traced → List (α × Traced)
  | _, [] => []
  | jump + 1, x :: r => reads reader (some x.1) jump r
  | 0, x :: r =>
    match reader before (x :: r) with
    | some (value, n) => (value, (x :: r).take (n + 1)) :: reads reader (some x.1) n r
    | none => reads reader (some x.1) 0 r

theorem reads_found {r : Traced} {value : α} {n : Nat}
    (h : reader before (x :: r) = some (value, n)) :
    reads reader before 0 (x :: r) =
      (value, (x :: r).take (n + 1)) :: reads reader (some x.1) n r := by
  rw [reads, h]

theorem reads_other {r : Traced} (h : reader before (x :: r) = none) :
    reads reader before 0 (x :: r) = reads reader (some x.1) 0 r := by
  rw [reads, h]

/-- The character before a place in a text. -/
def lastOr (r : Traced) (before : Option Char) : Option Char := (chars r).getLast?.or before

theorem lastOr_cons (x : Char × Option Nat) (r : Traced) (before : Option Char) :
    lastOr (x :: r) before = lastOr r (some x.1) := Text.getLast?_cons_or x.1 (chars r) before

theorem lastOr_append (r s : Traced) (before : Option Char) :
    lastOr (r ++ s) before = lastOr s (lastOr r before) := by
  rw [lastOr, lastOr, lastOr, chars_append, List.getLast?_append, Option.or_assoc]

theorem mem_drop_of_mem_reads {p : α × Traced} {r : Traced} (h : p ∈ reads reader before jump r) :
    ∀ x ∈ p.2, x ∈ r.drop jump := by
  fun_induction reads reader before jump r with
  | case1 => cases h
  | case2 before jump y r ih => exact ih h
  | case3 before y r value n hread ih =>
    rcases mem_cons.1 h with rfl | h
    · exact fun x hx => List.mem_of_mem_take hx
    · exact fun x hx => mem_cons_of_mem y (List.mem_of_mem_drop (ih h x hx))
  | case4 before y r hread ih => exact fun x hx => mem_cons_of_mem y (ih h x hx)

/-- What is read is read at some place. -/
theorem exists_of_mem_reads {p : α × Traced} {r : Traced} (h : p ∈ reads reader before jump r) :
    ∃ r₁ x r₂ n, r = r₁ ++ x :: r₂ ∧ reader (lastOr r₁ before) (x :: r₂) = some (p.1, n) ∧
      p.2 = (x :: r₂).take (n + 1) := by
  have hlater {before : Option Char} {y : Char × Option Nat} {r : Traced}
      (h : ∃ r₁ x r₂ n, r = r₁ ++ x :: r₂ ∧
        reader (lastOr r₁ (some y.1)) (x :: r₂) = some (p.1, n) ∧ p.2 = (x :: r₂).take (n + 1)) :
      ∃ r₁ x r₂ n, y :: r = r₁ ++ x :: r₂ ∧ reader (lastOr r₁ before) (x :: r₂) = some (p.1, n) ∧
        p.2 = (x :: r₂).take (n + 1) := by
    obtain ⟨r₁, x, r₂, n, rfl, hread, hspan⟩ := h
    exact ⟨y :: r₁, x, r₂, n, rfl, by rw [lastOr_cons]; exact hread, hspan⟩
  fun_induction reads reader before jump r with
  | case1 => cases h
  | case2 before jump y r ih => exact hlater (ih h)
  | case3 before y r value n hread ih =>
    rcases mem_cons.1 h with rfl | h
    · exact ⟨[], y, r, n, rfl, hread, rfl⟩
    · exact hlater (ih h)
  | case4 before y r hread ih => exact hlater (ih h)

/-- Two pieces that are read have no copied character in common. -/
theorem eq_of_mem_reads {p q : α × Traced} {r : Traced} (hx : x.2 = some i)
    (hnodup : (origins r).Nodup) (hp : p ∈ reads reader before jump r)
    (hq : q ∈ reads reader before jump r) (hxp : x ∈ p.2) (hxq : x ∈ q.2) : p = q := by
  have hrest {y : Char × Option Nat} {r : Traced} (h : (origins (y :: r)).Nodup) :
      (origins r).Nodup := h.sublist ((List.sublist_cons_self y r).filterMap Prod.snd)
  fun_induction reads reader before jump r with
  | case1 => cases hp
  | case2 before jump y r ih => exact ih (hrest hnodup) hp hq
  | case3 before y r value n hread ih =>
    -- A character of the first piece is not in what follows the piece.
    have hapart : x ∈ (y :: r).take (n + 1) → x ∉ r.drop n := by
      intro htake hdrop
      obtain ⟨s, s', hsplit⟩ := List.append_of_mem htake
      have hwhole : y :: r = s ++ x :: (s' ++ r.drop n) := by
        have heq := List.take_append_drop (n + 1) (y :: r)
        rw [hsplit, List.drop_succ_cons] at heq
        simpa using heq.symm
      rw [hwhole] at hnodup
      exact (notMem_of_nodup hx hnodup).2 (List.mem_append_right s' hdrop)
    rcases mem_cons.1 hp with rfl | hp <;> rcases mem_cons.1 hq with rfl | hq
    · rfl
    · exact absurd (mem_drop_of_mem_reads hq x hxq) (hapart hxp)
    · exact absurd (mem_drop_of_mem_reads hp x hxp) (hapart hxq)
    · exact ih (hrest hnodup) hp hq
  | case4 before y r hread ih => exact ih (hrest hnodup) hp hq

/-- A place has been read over, or the reading gets to it. -/
theorem reads_append_cons (x : Char × Option Nat) (r₁ r₂ : Traced) (before : Option Char)
    (hjump : jump ≤ r₁.length) :
    (∃ p ∈ reads reader before jump (r₁ ++ x :: r₂), x ∈ p.2.tail) ∨
      ∃ first, reads reader before jump (r₁ ++ x :: r₂) =
        first ++ reads reader (lastOr r₁ before) 0 (x :: r₂) := by
  induction r₁ generalizing before jump with
  | nil =>
    obtain rfl : jump = 0 := Nat.le_zero.1 hjump
    exact .inr ⟨[], rfl⟩
  | cons y r₁ ih =>
    rw [lastOr_cons]
    cases jump with
    | succ jump => exact ih (some y.1) (Nat.le_of_succ_le_succ hjump)
    | zero =>
      cases hread : reader before (y :: (r₁ ++ x :: r₂)) with
      | none =>
        rw [cons_append, reads_other hread]
        exact ih (some y.1) (Nat.zero_le _)
      | some found =>
        obtain ⟨value, n⟩ := found
        rw [cons_append, reads_found hread]
        by_cases hn : n ≤ r₁.length
        · rcases ih (some y.1) hn with ⟨p, hp, hxp⟩ | ⟨first, hfirst⟩
          · exact .inl ⟨p, mem_cons_of_mem _ hp, hxp⟩
          · exact .inr ⟨(value, (y :: (r₁ ++ x :: r₂)).take (n + 1)) :: first, by rw [hfirst]; rfl⟩
        · refine .inl ⟨_, List.mem_cons_self, ?_⟩
          obtain ⟨m, rfl⟩ : ∃ m, n = r₁.length + (m + 1) := ⟨n - r₁.length - 1, by omega⟩
          simp [List.take_append]

/-- **A reader reads at a place unless it has read over it.** -/
theorem mem_reads_iff {r₁ r₂ : Traced} (hx : x.2 = some i)
    (hnodup : (origins (r₁ ++ x :: r₂)).Nodup) (value : α) (span : Traced) :
    (value, span) ∈ reads reader before 0 (r₁ ++ x :: r₂) ∧ span.head? = some x ↔
      (∃ n, reader (lastOr r₁ before) (x :: r₂) = some (value, n) ∧
        span = (x :: r₂).take (n + 1)) ∧
      ∀ p ∈ reads reader before 0 (r₁ ++ x :: r₂), x ∉ p.2.tail := by
  constructor
  · rintro ⟨hmem, hhead⟩
    obtain ⟨s₁, y, s₂, n, hsplit, hread, hspan⟩ := exists_of_mem_reads hmem
    dsimp only at hread hspan
    obtain rfl : x = y := by
      rw [hspan] at hhead
      exact (Option.some.inj hhead).symm
    obtain ⟨rfl, rfl⟩ := append_cons_unique hx hnodup hsplit
    refine ⟨⟨n, hread, hspan⟩, ?_⟩
    intro p hp htail
    have hxspan : x ∈ span := List.mem_of_head? hhead
    obtain rfl := eq_of_mem_reads hx hnodup hmem hp hxspan (List.mem_of_mem_tail htail)
    dsimp only at htail
    rw [hspan, List.take_succ_cons, List.tail_cons] at htail
    exact (notMem_of_nodup hx hnodup).2 (List.mem_of_mem_take htail)
  · rintro ⟨⟨n, hread, rfl⟩, hover⟩
    refine ⟨?_, rfl⟩
    rcases @reads_append_cons 0 α reader x r₁ r₂ before (Nat.zero_le _) with
      ⟨p, hp, hxp⟩ | ⟨first, hfirst⟩
    · exact absurd hxp (hover p hp)
    · rw [hfirst, reads_found hread]
      simp

end Reads

end Traced
end BladeView
