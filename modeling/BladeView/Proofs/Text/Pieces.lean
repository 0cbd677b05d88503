import BladeView.Proofs.Text.Replace

/-!
# Passes over a text in pieces

A pass goes over a text piece by piece if no reading reaches from one piece into the next. The piece
after begins with an at sign, so all that matters is that whatever a reader can begin in a piece, it
also ends there.
-/
namespace BladeView.Text

open List (append_assoc cons_append cons_ne_nil suffix_cons suffix_rfl)
open Option (map_map map_none none_or)

variable {t p v : Text}

variable {α β : Type} {reader : Text → Option (α × Text)}

/-! ## Passes -/

theorem sweep_congr {σ : Type} {step step' : Option Char → σ → Text → List β × σ × Nat}
    (h : ∀ before state c t, step before state (c :: t) = step' before state (c :: t))
    (before : Option Char) (state : σ) (jump : Nat) (t : Text) :
    sweep step before state jump t = sweep step' before state jump t := by
  induction t generalizing before state jump with
  | nil => cases jump <;> rfl
  | cons c t ih =>
    cases jump with
    | zero =>
      rw [sweep, sweep, h]
      exact congrArg _ (ih ..)
    | succ jump => exact ih ..

/-! ## The first value -/

theorem readFirst?_eq_none {reader : Option Char → Text → Option (α × Text)}
    (h : ∀ before s, s <:+ t → reader before s = none) (before : Option Char) :
    readFirst? reader before t = none := by
  induction t generalizing before with
  | nil => rw [readFirst?, h before [] suffix_rfl, map_none]
  | cons c t ih =>
    rw [readFirst?, h before _ suffix_rfl]
    simp only [ih (fun before s hs => h before s (hs.trans (suffix_cons c t))), map_none]

/-- The first value stands where the reader first reads something. -/
theorem readFirst?_append {reader : Option Char → Text → Option (α × Text)} {u rest : Text}
    {value : α} (h : ∀ before s, s <:+ p → s ≠ [] → reader before (s ++ u) = none)
    (hu : ∀ before, reader before u = some (value, rest)) (before : Option Char) :
    readFirst? reader before (p ++ u) = some (p, value, rest) := by
  induction p generalizing before with
  | nil =>
    cases u with
    | nil => simp [readFirst?, hu]
    | cons c u => simp [readFirst?, hu]
  | cons c p ih =>
    have hnone := h before (c :: p) suffix_rfl (by simp)
    have hrest := ih (fun before s hs => h before s (hs.trans (suffix_cons c p))) (some c)
    rw [cons_append] at hnone ⊢
    simp [readFirst?, hnone, hrest]

/-- The first value that a reader can read in a text, with what comes after it. -/
def first? (reader : Text → Option (α × Text)) (t : Text) : Option (α × Text) :=
  (readFirst? (fun _ => reader) none t).map Prod.snd

theorem map_readFirst? (before : Option Char) (t : Text) :
    (readFirst? (fun _ => reader) before t).map Prod.snd = first? reader t := by
  cases t <;> rfl

theorem first?_cons (c : Char) (t : Text) :
    first? reader (c :: t) = (reader (c :: t)).or (first? reader t) := by
  rw [← map_readFirst? (some c) t, first?, readFirst?]
  cases reader (c :: t) with
  | some found => rfl
  | none =>
    simp only [none_or, map_map]
    rfl

theorem isSome_readFirst? (t : Text) :
    (readFirst? (fun _ => reader) none t).isSome = (first? reader t).isSome := by
  rw [first?, Option.isSome_map]

theorem first?_eq_none (h : ∀ s, s <:+ t → reader s = none) : first? reader t = none := by
  rw [first?, readFirst?_eq_none fun _ => h]
  rfl

theorem first?_eq_some {found : α × Text} (h : first? reader t = some found) :
    ∃ s, s <:+ t ∧ reader s = some found := by
  induction t with
  | nil =>
    rw [first?, readFirst?, map_map] at h
    obtain ⟨found', hread, rfl⟩ := Option.map_eq_some_iff.1 h
    exact ⟨[], suffix_rfl, hread⟩
  | cons c t ih =>
    rw [first?_cons, Option.or_eq_some_iff] at h
    obtain hread | ⟨-, hread⟩ := h
    · exact ⟨c :: t, suffix_rfl, hread⟩
    · obtain ⟨s, hs, hfound⟩ := ih hread
      exact ⟨s, hs.trans (suffix_cons c t), hfound⟩

theorem first?_map {γ : Type} (f : α × Text → γ) (t : Text) :
    first? (fun t => (reader t).map fun found => (f found, found.2)) t =
      (first? reader t).map fun found => (f found, found.2) := by
  induction t with
  | nil =>
    simp only [first?, readFirst?, map_map]
    rfl
  | cons c t ih =>
    rw [first?_cons, first?_cons, ih]
    cases reader (c :: t) <;> rfl

/-- The first of several readings, each with something done to it. -/
theorem findSome?_eq_map {ι γ δ : Type} {f : ι → Option γ} {g : ι → Option δ} {change : γ → δ}
    {xs : List ι} (h : ∀ x ∈ xs, g x = (f x).map change) :
    xs.findSome? g = (xs.findSome? f).map change := by
  induction xs with
  | nil => rfl
  | cons x xs ih =>
    rw [List.findSome?_cons, List.findSome?_cons, h x List.mem_cons_self,
      ih fun y hy => h y (List.mem_cons_of_mem _ hy)]
    cases f x <;> rfl

/-! ## Readings that do not leave a piece -/

/-- A reader reads the same at each place of a piece whatever follows an at sign after it. -/
def Settles (reader : Text → Option (α × Text)) (p : Text) : Prop :=
  ∀ s, s <:+ p → s ≠ [] → ∀ u,
    reader (s ++ '@' :: u) = (reader s).map fun found => (found.1, found.2 ++ '@' :: u)

theorem Settles.suffix {q : Text} (h : Settles reader p) (hq : q <:+ p) : Settles reader q :=
  fun s hs => h s (hs.trans hq)

/-- A reader reads nothing at the places of a piece, whatever follows. -/
def Silent (reader : Text → Option (α × Text)) (v : Text) : Prop :=
  ∀ s, s <:+ v → s ≠ [] → ∀ u, reader (s ++ u) = none

theorem Silent.tail {c : Char} (h : Silent reader (c :: v)) : Silent reader v :=
  fun s hs => h s (hs.trans (suffix_cons c v))

section Map

variable {γ : Type} (f : α → γ)

theorem Consumes.map (h : Consumes reader) :
    Consumes fun t => (reader t).map fun found => (f found.1, found.2) := by
  intro t value rest hread
  obtain ⟨found, hfound, heq⟩ := Option.map_eq_some_iff.1 hread
  cases heq
  exact h _ _ _ hfound

theorem Settles.map (h : Settles reader p) :
    Settles (fun t => (reader t).map fun found => (f found.1, found.2)) p := by
  intro s hs hne u
  simp only [h s hs hne u, map_map]
  rfl

theorem Silent.map (h : Silent reader v) :
    Silent (fun t => (reader t).map fun found => (f found.1, found.2)) v := by
  intro s hs hne u
  simp only [h s hs hne u, map_none]

end Map

section Pass

variable {found : α → Nat → List β} {other : Char → List β}

/-- A pass over a piece in which the reader settles goes on after the piece. -/
theorem pass_append (h : Consumes reader) (hp : Settles reader p) (u : Text) :
    pass reader found other (p ++ '@' :: u) =
      pass reader found other p ++ pass reader found other ('@' :: u) := by
  induction p using substitute_induction h with
  | nil => rfl
  | found t value rest hread ih =>
    obtain ⟨piece, hne, hsplit⟩ := h _ _ _ hread
    have hrest : rest <:+ t := ⟨piece, hsplit.symm⟩
    have hnil : t ≠ [] := by
      rw [hsplit]
      exact List.append_ne_nil_of_left_ne_nil hne rest
    have hmore : reader (t ++ '@' :: u) = some (value, rest ++ '@' :: u) := by
      rw [hp t suffix_rfl hnil u, hread, Option.map_some]
    have hlength : (t ++ '@' :: u).length - (rest ++ '@' :: u).length = t.length - rest.length := by
      simp only [List.length_append]
      omega
    rw [pass_found h hmore, hlength, ih (hp.suffix hrest), pass_found h hread, append_assoc]
  | other c t hread ih =>
    have hmore : reader (c :: (t ++ '@' :: u)) = none := by
      have hsettled := hp (c :: t) suffix_rfl (cons_ne_nil c t) u
      rwa [hread, map_none] at hsettled
    rw [cons_append, pass_other hmore, ih (hp.suffix (suffix_cons c t)), pass_other hread,
      append_assoc]

/-- A pass copies or drops a piece in which the reader is silent. -/
theorem pass_silent (hv : Silent reader v) (u : Text) :
    pass reader found other (v ++ u) = v.flatMap other ++ pass reader found other u := by
  induction v with
  | nil => rfl
  | cons c v ih =>
    have hread := hv (c :: v) suffix_rfl (cons_ne_nil c v) u
    rw [cons_append] at hread ⊢
    rw [pass_other hread, ih hv.tail, List.flatMap_cons, append_assoc]

end Pass

/-- What is read first stands in the piece or after it. -/
theorem first?_append (hnil : reader [] = none) (hp : Settles reader p) (u : Text) :
    first? reader (p ++ '@' :: u) =
      ((first? reader p).map fun found => (found.1, found.2 ++ '@' :: u)).or
        (first? reader ('@' :: u)) := by
  induction p with
  | nil =>
    have hfirst : first? reader [] = none := by
      rw [first?, readFirst?, hnil]
      rfl
    rw [hfirst]
    rfl
  | cons c p ih =>
    have hread := hp (c :: p) suffix_rfl (cons_ne_nil c p) u
    rw [cons_append] at hread ⊢
    rw [first?_cons, first?_cons, hread, ih (hp.suffix (suffix_cons c p))]
    cases reader (c :: p) <;> rfl

theorem first?_silent (hv : Silent reader v) (u : Text) :
    first? reader (v ++ u) = first? reader u := by
  induction v with
  | nil => rfl
  | cons c v ih =>
    have hread := hv (c :: v) suffix_rfl (cons_ne_nil c v) u
    rw [cons_append] at hread ⊢
    rw [first?_cons, hread, ih hv.tail, none_or]

end BladeView.Text
