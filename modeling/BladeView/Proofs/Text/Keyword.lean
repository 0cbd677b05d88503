import Mathlib.Data.List.Forall2
import BladeView.Proofs.Text.Pieces
import BladeView.Source.Region

/-!
# Keywords

Readers look for keywords, some as they are and some in any case. A keyword has its only sign in
front, so one that begins in a piece of text cannot go on into the next piece if that begins with an
at sign.
-/
namespace BladeView

variable {t rest p s v before : Text} {k c d : Char} {read close : Text → Option Text}

/-! ## Letters in any case -/

/-- Only letters have a case. -/
theorem eq_of_foldsTo (hk : k.isLower = false) (h : foldsTo k c = true) : c = k := by
  have hs : (k == 's') = false := by
    refine beq_false_of_ne ?_
    rintro rfl
    cases hk
  have hkelvin : (k == 'k') = false := by
    refine beq_false_of_ne ?_
    rintro rfl
    cases hk
  have hlower : c.toLower = k := by simpa [foldsTo, hs, hkelvin] using h
  by_cases hupper : c.val ≥ 'A'.val ∧ c.val ≤ 'Z'.val
  · -- A capital letter goes to a small one, and `k` is none.
    have hval : c.toLower.val = c.val + ('a'.val - 'A'.val) := congrArg Char.val (dif_pos hupper)
    have hnot := Bool.and_eq_false_iff.1 hk
    rw [← hlower, hval] at hnot
    simp only [decide_eq_false_iff_not, UInt32.le_iff_toNat_le, UInt32.toNat_add, ge_iff_le,
      Char.reduceVal, UInt32.reduceToNat, UInt32.reduceSub, Nat.reducePow] at hnot hupper
    omega
  · have hsame : c.toLower = c := dif_neg hupper
    exact hsame.symm.trans hlower

namespace Text

/-- A keyword that begins with a sign is read only there. -/
theorem afterFold?_eq_none (hk : k.isLower = false) (hc : c ≠ k) (word t : Text) :
    afterFold? (k :: word) (c :: t) = none := by
  rw [afterFold?, if_neg]
  exact fun hfolds => hc (eq_of_foldsTo hk hfolds)

/-- Whatever is read as a keyword in any case begins with its letters. -/
theorem afterFold?_eq_some {word : Text} (h : afterFold? word t = some rest) :
    ∃ p, t = p ++ rest ∧ List.Forall₂ (fun k c => foldsTo k c = true) word p := by
  induction word generalizing t with
  | nil =>
    obtain rfl := Option.some.inj h
    exact ⟨[], rfl, .nil⟩
  | cons k word ih =>
    cases t with
    | nil => cases h
    | cons c t =>
      rw [afterFold?] at h
      obtain ⟨hc, h⟩ := Option.ite_none_right_eq_some.1 h
      obtain ⟨p, rfl, hp⟩ := ih h
      exact ⟨c :: p, rfl, .cons hc hp⟩

theorem afterFold?_append {word : Text} (h : List.Forall₂ (fun k c => foldsTo k c = true) word p)
    (rest : Text) :
    afterFold? word (p ++ rest) = some rest := by
  induction h with
  | nil => rfl
  | cons hc _ ih => rw [List.cons_append, afterFold?, if_pos hc, ih]

theorem afterFold?_suffix {word : Text} (h : afterFold? word t = some rest) : rest <:+ t := by
  obtain ⟨p, rfl, -⟩ := afterFold?_eq_some h
  exact List.suffix_append p rest

theorem exists_piece_of_afterFold? {word inside : Text} (hne : word ≠ [])
    (h : afterFold? word t = some inside) (hrest : rest <:+ inside) :
    ∃ piece, piece ≠ [] ∧ t = piece ++ rest := by
  obtain ⟨more, rfl⟩ := hrest
  obtain ⟨p, rfl, hp⟩ := afterFold?_eq_some h
  refine ⟨p ++ more, ?_, (List.append_assoc _ _ _).symm⟩
  have hlength := hp.length_eq
  have hpos := List.length_pos_iff.2 hne
  intro hnil
  rw [(List.append_eq_nil_iff.1 hnil).1, List.length_nil] at hlength
  omega

theorem notMem_of_folds {word : Text} (h : List.Forall₂ (fun k c => foldsTo k c = true) word p)
    (hd : ∀ k ∈ word, foldsTo k d = false) : d ∉ p := by
  induction h with
  | nil => exact List.not_mem_nil
  | cons hc _ ih =>
    rw [List.mem_cons, not_or]
    refine ⟨?_, ih fun k hk => hd k (List.mem_cons_of_mem _ hk)⟩
    rintro rfl
    rw [hd _ List.mem_cons_self] at hc
    cases hc

/-- A keyword as it is given is one of its forms. -/
theorem afterFold?_of_after? {word : Text} (hword : ∀ k ∈ word, foldsTo k k = true)
    (h : after? word t = some rest) : afterFold? word t = some rest := by
  obtain rfl := after?_eq_some.1 h
  exact afterFold?_append (List.forall₂_same.2 hword) rest

/-- A keyword differs from a text at a place that both have. -/
def clashes : Text → Text → Bool
  | k :: word, c :: t => !foldsTo k c || clashes word t
  | _, _ => false

theorem afterFold?_eq_none_of_clashes {word : Text} (h : clashes word s = true) (u : Text) :
    afterFold? word (s ++ u) = none := by
  fun_induction clashes word s with
  | case1 k word c t ih =>
    rw [List.cons_append, afterFold?]
    split
    case isTrue hfolds =>
      rw [hfolds, Bool.not_true, Bool.false_or] at h
      exact ih h
    case isFalse => rfl
  | case2 => cases h

/-! ## Readers led by a keyword -/

/-- A reader reads a keyword first, and then some of what follows. -/
def LedBy {α : Type} (word : Text) (reader : Text → Option (α × Text)) : Prop :=
  ∀ t value rest, reader t = some (value, rest) →
    ∃ inside, afterFold? word t = some inside ∧ rest <:+ inside

section LedBy

variable {α : Type} {word : Text} {reader : Text → Option (α × Text)}

theorem LedBy.eq_none (h : LedBy word reader) (ht : afterFold? word t = none) :
    reader t = none := by
  rw [Option.eq_none_iff_forall_ne_some]
  rintro ⟨value, rest⟩ hread
  obtain ⟨inside, hinside, -⟩ := h _ _ _ hread
  cases ht.symm.trans hinside

theorem LedBy.consumes (h : LedBy word reader) (hne : word ≠ []) : Consumes reader := by
  intro t value rest hread
  obtain ⟨inside, hinside, hrest⟩ := h _ _ _ hread
  exact exists_piece_of_afterFold? hne hinside hrest

theorem LedBy.map {γ : Type} (h : LedBy word reader) (f : α × Text → γ) :
    LedBy word fun t => (reader t).map fun found => (f found, found.2) := by
  intro t value rest hread
  obtain ⟨found, hfound, heq⟩ := Option.map_eq_some_iff.1 hread
  cases heq
  exact h _ _ _ hfound

theorem ledBy_of_after? {β : Type} (value : β) (hword : ∀ k ∈ word, foldsTo k k = true)
    (h : ∀ t rest, read t = some rest → after? word t = some rest) :
    LedBy word fun t => (read t).map fun rest => (value, rest) := by
  intro t value rest hread
  obtain ⟨rest', hrest, heq⟩ := Option.map_eq_some_iff.1 hread
  cases heq
  exact ⟨rest, afterFold?_of_after? hword (h _ _ hrest), List.suffix_rfl⟩

/-- Where a keyword clashes, a reader led by it reads nothing. -/
theorem LedBy.silent (h : LedBy word reader) (hv : ∀ s, s <:+ v → s ≠ [] → clashes word s = true) :
    Silent reader v :=
  fun s hs hne u => h.eq_none (afterFold?_eq_none_of_clashes (hv s hs hne) u)

/-- A keyword that begins with a sign is read nowhere in a text without that sign. -/
theorem LedBy.silent_of_notMem (hk : k.isLower = false) (h : LedBy (k :: word) reader)
    (hv : k ∉ v) : Silent reader v := by
  refine h.silent fun s hs hne => ?_
  obtain ⟨c, s, rfl⟩ := List.exists_cons_of_ne_nil hne
  have hfolds : foldsTo k c = false := by
    rw [← Bool.not_eq_true]
    intro hc
    rw [eq_of_foldsTo hk hc] at hs
    exact hv (hs.subset List.mem_cons_self)
  rw [clashes, hfolds, Bool.not_false, Bool.true_or]

end LedBy

/-! ## Where keywords end -/

/-- A reader that reads the same from a text and from one with an at sign after it. -/
def EndsAtSign (reader : Text → Option Text) : Prop :=
  ∀ s, s ≠ [] → ∀ u, reader (s ++ '@' :: u) = (reader s).map (· ++ '@' :: u)

theorem EndsAtSign.settles {α : Type} (h : EndsAtSign read) (value : α) (p : Text) :
    Settles (fun t => (read t).map fun rest => (value, rest)) p := by
  intro s _ hne u
  simp only [h s hne u, Option.map_map]
  rfl

theorem endsAtSign_after? (k : Char) {word : Text} (hword : '@' ∉ word) :
    EndsAtSign (after? (k :: word)) := by
  intro s hs u
  obtain ⟨c, s, rfl⟩ := List.exists_cons_of_ne_nil hs
  rw [List.cons_append, after?, after?]
  split
  case isTrue => exact after?_append hword s u
  case isFalse => rfl

theorem afterFold?_append_cons {word : Text} (hword : ∀ k ∈ word, foldsTo k d = false)
    (s u : Text) : afterFold? word (s ++ d :: u) = (afterFold? word s).map (· ++ d :: u) := by
  induction word generalizing s with
  | nil => rfl
  | cons k word ih =>
    cases s with
    | nil =>
      rw [List.nil_append, afterFold?, afterFold?, hword k List.mem_cons_self]
      rfl
    | cons c s =>
      rw [List.cons_append, afterFold?, afterFold?]
      split
      case isTrue => exact ih (fun k hk => hword k (List.mem_cons_of_mem _ hk)) s
      case isFalse => rfl

theorem endsAtSign_afterFold? (k : Char) {word : Text}
    (hword : ∀ k ∈ word, foldsTo k '@' = false) : EndsAtSign (afterFold? (k :: word)) := by
  intro s hs u
  obtain ⟨c, s, rfl⟩ := List.exists_cons_of_ne_nil hs
  rw [List.cons_append, afterFold?, afterFold?]
  split
  case isTrue => exact afterFold?_append_cons hword s u
  case isFalse => rfl

theorem endsWord_append_cons (hd : isWordChar d = false) (s u : Text) :
    endsWord (s ++ d :: u) = endsWord s := by
  cases s with
  | nil => rw [List.nil_append, endsWord, endsWord, hd, Bool.not_false]
  | cons c s => rfl

/-- A word that ends before an at sign ends there with the sign as well. -/
theorem EndsAtSign.filter_endsWord {reader : Text → Option Text} (h : EndsAtSign reader) :
    EndsAtSign fun t => (reader t).filter endsWord := by
  intro s hs u
  simp only [h s hs u]
  cases reader s with
  | none => rfl
  | some rest =>
    simp only [Option.map_some, Option.filter_some, endsWord_append_cons (d := '@') (by decide)]
    split <;> rfl

section Bind

variable {α : Type} {more : Text → Option α} {f : α → α}

/-- What follows a keyword is read the same with an at sign after it. -/
theorem EndsAtSign.bind (h : EndsAtSign read) (hs : s ≠ []) (u : Text)
    (hmore : ∀ inside, read s = some inside → more (inside ++ '@' :: u) = (more inside).map f) :
    (read (s ++ '@' :: u)).bind more = ((read s).bind more).map f := by
  rw [h s hs u]
  cases hread : read s with
  | none => rfl
  | some inside => exact hmore inside hread

/-- What follows a keyword is read the same if it ends before the at sign. -/
theorem EndsAtSign.bind_of_isSome (h : EndsAtSign read) (hs : s ≠ []) (u : Text)
    (hclosed : (read s).isSome → ((read s).bind more).isSome)
    (hmore : ∀ inside found, more inside = some found →
      more (inside ++ '@' :: u) = some (f found)) :
    (read (s ++ '@' :: u)).bind more = ((read s).bind more).map f := by
  refine h.bind hs u fun inside hinside => ?_
  rw [hinside] at hclosed
  obtain ⟨found, hfound⟩ := Option.isSome_iff_exists.1 (hclosed rfl)
  have hfound : more inside = some found := hfound
  rw [hmore inside found hfound, hfound]
  rfl

end Bind

theorem trimStart_append_sign (s u : Text) : trimStart (s ++ '@' :: u) = trimStart s ++ '@' :: u :=
  dropWhile_append_cons (by decide) s u

theorem upTo?_suffix (hclose : ∀ s rest, close s = some rest → rest <:+ s)
    (h : upTo? close t = some (before, rest)) : rest <:+ t := by
  induction t generalizing before with
  | nil =>
    obtain ⟨rest', hread, heq⟩ := Option.map_eq_some_iff.1 h
    obtain ⟨-, rfl⟩ := Prod.mk.inj heq
    exact hclose _ _ hread
  | cons c t ih =>
    rw [upTo?] at h
    split at h
    case h_1 after hafter =>
      obtain ⟨-, rfl⟩ := Prod.mk.inj (Option.some.inj h)
      exact hclose _ _ hafter
    case h_2 =>
      obtain ⟨⟨more, after⟩, hmore, heq⟩ := Option.map_eq_some_iff.1 h
      obtain ⟨-, rfl⟩ := Prod.mk.inj heq
      exact (ih hmore).trans (List.suffix_cons c t)

/-- A text that is cut at a place is cut there with more text as well. -/
theorem EndsAtSign.upTo? (h : EndsAtSign close) (hnil : close [] = none)
    (hread : Text.upTo? close s = some (before, rest)) (u : Text) :
    Text.upTo? close (s ++ '@' :: u) = some (before, rest ++ '@' :: u) := by
  induction s generalizing before with
  | nil =>
    rw [Text.upTo?, hnil] at hread
    cases hread
  | cons c s ih =>
    have hclose := h (c :: s) (List.cons_ne_nil c s) u
    rw [List.cons_append] at hclose ⊢
    rw [Text.upTo?] at hread ⊢
    rw [hclose]
    cases hc : close (c :: s) with
    | some after =>
      rw [hc] at hread
      obtain ⟨rfl, rfl⟩ := Prod.mk.inj (Option.some.inj hread)
      rfl
    | none =>
      simp only [hc, Option.map_eq_some_iff] at hread
      obtain ⟨⟨more, after⟩, hmore, heq⟩ := hread
      obtain ⟨rfl, rfl⟩ := Prod.mk.inj heq
      simp only [Option.map_none, ih hmore, Option.map_some]

end Text
end BladeView
