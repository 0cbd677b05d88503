import BladeView.Proofs.Text.Basic

/-!
# Replacement

A pass that puts texts in place of pieces goes from left to right: at each place either a piece is
read there and replaced, or one character is copied. Replacing all occurrences of one piece is the
main case.
-/
namespace BladeView.Text

variable {c : Char}

/-! ## Passes -/

section Sweep

variable {σ β : Type} {step : σ → Text → List β × σ × Nat} {state : σ}

/-- A pass whose steps do not look back does not depend on what comes before. -/
theorem sweep_before (before before' : Option Char) (jump : Nat) (t : Text) :
    sweep (fun _ => step) before state jump t = sweep (fun _ => step) before' state jump t := by
  cases t <;> cases jump <;> rfl

/-- A pass goes on after what it jumps over, with the last of it in view. -/
theorem sweep_jump {step : Option Char → σ → Text → List β × σ × Nat} (before : Option Char)
    (p t : Text) :
    sweep step before state p.length (p ++ t) = sweep step (p.getLast?.or before) state 0 t := by
  induction p generalizing before with
  | nil => rfl
  | cons c p ih =>
    rw [getLast?_cons_or]
    exact ih (some c)

theorem sweep_skip (before : Option Char) (p t : Text) :
    sweep (fun _ => step) before state p.length (p ++ t) =
      sweep (fun _ => step) none state 0 t := by
  rw [sweep_jump]
  exact sweep_before ..

theorem sweep_drop (before : Option Char) (jump : Nat) (t : Text) :
    sweep (fun _ => step) before state jump t =
      sweep (fun _ => step) none state 0 (t.drop jump) := by
  induction t generalizing before jump with
  | nil =>
    rw [List.drop_nil]
    cases jump <;> rfl
  | cons c t ih =>
    cases jump with
    | zero => exact sweep_before ..
    | succ jump => exact ih (some c) jump

end Sweep

theorem readBeyond_append (c : Char) (p t : Text) : readBeyond (c :: p ++ t) t = p.length := by
  simp [readBeyond]
  omega

/-- Whatever the reader reads, it reads from the front, and at least one character. -/
def Consumes {α : Type} (reader : Text → Option (α × Text)) : Prop :=
  ∀ t value rest, reader t = some (value, rest) → ∃ piece, piece ≠ [] ∧ t = piece ++ rest

section Consumes

variable {α : Type} {reader : Text → Option (α × Text)}

theorem Consumes.nil (h : Consumes reader) : reader [] = none := by
  rw [Option.eq_none_iff_forall_ne_some]
  rintro ⟨value, rest⟩ hread
  obtain ⟨piece, hne, hsplit⟩ := h _ _ _ hread
  exact hne (List.append_eq_nil_iff.mp hsplit.symm).1

/-- Induction over the places that a pass looks at. -/
theorem substitute_induction (h : Consumes reader) {P : Text → Prop} (nil : P [])
    (found : ∀ t value rest, reader t = some (value, rest) → P rest → P t)
    (other : ∀ c t, reader (c :: t) = none → P t → P (c :: t)) (t : Text) : P t := by
  induction hlength : t.length using Nat.strongRecOn generalizing t with
  | _ n ih =>
    subst hlength
    cases t with
    | nil => exact nil
    | cons c t =>
      cases hread : reader (c :: t) with
      | none => exact other c t hread (ih _ (by simp) t rfl)
      | some read =>
        obtain ⟨value, rest⟩ := read
        obtain ⟨piece, hne, hsplit⟩ := h _ _ _ hread
        have hpos : 0 < piece.length := List.length_pos_iff.mpr hne
        have hshort : rest.length < (c :: t).length := by
          rw [hsplit, List.length_append]
          omega
        exact found _ value rest hread (ih _ hshort rest rfl)

end Consumes

/-- A pass without a state: what it gives for a value that is read and for its length, and for a
character at which nothing is read. -/
def pass {α β : Type} (reader : Text → Option (α × Text)) (found : α → Nat → List β)
    (other : Char → List β) (t : Text) : List β :=
  sweep (fun _ (_ : Unit) t =>
    match reader t with
    | some (value, rest) => (found value (t.length - rest.length), (), readBeyond t rest)
    | none => ((t.take 1).flatMap other, (), 0)) none () 0 t

section Pass

variable {α β : Type} {reader : Text → Option (α × Text)} {found : α → Nat → List β}
  {other : Char → List β}

theorem pass_piece {p rest : Text} {value : α}
    (hread : reader (c :: (p ++ rest)) = some (value, rest)) :
    pass reader found other (c :: (p ++ rest)) =
      found value ((c :: (p ++ rest)).length - rest.length) ++ pass reader found other rest := by
  have hjump : readBeyond (c :: (p ++ rest)) rest = p.length := readBeyond_append c p rest
  simp only [pass, sweep, hread, hjump]
  rw [sweep_skip]

theorem pass_found (h : Consumes reader) {t rest : Text} {value : α}
    (hread : reader t = some (value, rest)) :
    pass reader found other t =
      found value (t.length - rest.length) ++ pass reader found other rest := by
  obtain ⟨piece, hne, rfl⟩ := h _ _ _ hread
  obtain ⟨c, p, rfl⟩ := List.exists_cons_of_ne_nil hne
  exact pass_piece hread

theorem pass_other {t : Text} (hread : reader (c :: t) = none) :
    pass reader found other (c :: t) = other c ++ pass reader found other t := by
  simp only [pass, sweep, hread, List.take_succ_cons, List.take_zero, List.flatMap_cons,
    List.flatMap_nil, List.append_nil]
  rw [sweep_before (some c) none]

theorem readAll_eq_pass (t : Text) :
    readAll (fun _ => reader) t = pass reader (fun value _ => [value]) (fun _ => []) t := by
  unfold readAll pass
  congr 1
  funext before state t
  cases hread : reader t with
  | none => simp [hread]
  | some found => simp only [hread]

end Pass

section Substitute

variable {reader : Text → Option (Text × Text)} {t new rest : Text}

theorem substitute_eq_pass (t : Text) :
    substitute (fun _ => reader) t = pass reader (fun new _ => new) (fun c => [c]) t := by
  unfold substitute pass
  congr 1
  funext before state t
  cases hread : reader t with
  | none => simp [substituteStep, hread]
  | some found => simp only [substituteStep, hread]

theorem substitute_found (h : Consumes reader) (hread : reader t = some (new, rest)) :
    substitute (fun _ => reader) t = new ++ substitute (fun _ => reader) rest := by
  rw [substitute_eq_pass, substitute_eq_pass, pass_found h hread]

theorem substitute_other (hread : reader (c :: t) = none) :
    substitute (fun _ => reader) (c :: t) = c :: substitute (fun _ => reader) t := by
  rw [substitute_eq_pass, substitute_eq_pass, pass_other hread, List.singleton_append]

end Substitute

/-! ## Passes that make texts lighter -/

/-- The weight of a list whose members have weights. -/
def weight {α : Type} (w : α → Nat) (t : List α) : Nat := t.foldr (fun c n => w c + n) 0

section Weight

variable {α : Type} (w : α → Nat)

@[simp] theorem weight_nil : weight w [] = 0 := rfl

@[simp] theorem weight_cons (c : α) (t : List α) : weight w (c :: t) = w c + weight w t := by
  rw [weight, List.foldr_cons, ← weight]

@[simp] theorem weight_append (s t : List α) : weight w (s ++ t) = weight w s + weight w t := by
  induction s with
  | nil => simp
  | cons c s ih => simp [ih, Nat.add_assoc]

theorem weight_one (t : List α) : weight (fun _ => 1) t = t.length := by
  induction t with
  | nil => rfl
  | cons c t ih => rw [weight_cons, ih, List.length_cons, Nat.add_comm]

theorem weight_map_le {w : α → Nat} {f : α → α} {t : List α} (h : ∀ c ∈ t, w (f c) ≤ w c) :
    weight w (t.map f) ≤ weight w t := by
  induction t with
  | nil => exact Nat.le_refl _
  | cons c t ih =>
    have hc := h c List.mem_cons_self
    have ht := ih fun d hd => h d (List.mem_cons_of_mem c hd)
    rw [List.map_cons, weight_cons, weight_cons]
    omega

theorem weight_map_lt {w : α → Nat} {f : α → α} {t : List α} {c : α}
    (h : ∀ c ∈ t, w (f c) ≤ w c) (hc : c ∈ t) (hlt : w (f c) < w c) :
    weight w (t.map f) < weight w t := by
  obtain ⟨front, back, rfl⟩ := List.append_of_mem hc
  have hfront : weight w (front.map f) ≤ weight w front :=
    weight_map_le fun d hd => h d (by simp [hd])
  have hback : weight w (back.map f) ≤ weight w back :=
    weight_map_le fun d hd => h d (by simp [hd])
  rw [List.map_append, List.map_cons, weight_append, weight_append, weight_cons, weight_cons]
  omega

end Weight

/-- A pass that leaves a text alone or makes it lighter. -/
def Lightens (w : Char → Nat) (f : Text → Text) : Prop :=
  ∀ t, f t = t ∨ weight w (f t) < weight w t

section Lighten

variable {w : Char → Nat} {f g : Text → Text}

theorem Lightens.weight_le (h : Lightens w f) (t : Text) : weight w (f t) ≤ weight w t := by
  rcases h t with heq | hlt
  · exact Nat.le_of_eq (congrArg (weight w) heq)
  · exact Nat.le_of_lt hlt

theorem Lightens.comp (hg : Lightens w g) (hf : Lightens w f) : Lightens w fun t => g (f t) := by
  intro t
  rcases hf t with hsame | hlt
  · simp only [hsame]
    exact hg t
  · exact .inr (Nat.lt_of_le_of_lt (hg.weight_le (f t)) hlt)

/-- So does one that puts lighter texts in place of what it reads. -/
theorem lightens_substitute {reader : Text → Option (Text × Text)} (h : Consumes reader)
    (hlight : ∀ t new rest, reader t = some (new, rest) →
      weight w new + weight w rest < weight w t) :
    Lightens w (substitute fun _ => reader) := by
  intro t
  induction t using substitute_induction h with
  | nil => exact .inl rfl
  | found t new rest hread ih =>
    have hlt := hlight t new rest hread
    have hle : weight w (substitute (fun _ => reader) rest) ≤ weight w rest := by
      rcases ih with heq | hlt
      · exact Nat.le_of_eq (congrArg (weight w) heq)
      · exact Nat.le_of_lt hlt
    rw [substitute_found h hread, weight_append]
    exact .inr (by omega)
  | other c t hread ih =>
    rw [substitute_other hread, weight_cons, weight_cons]
    rcases ih with heq | hlt
    · rw [heq]
      exact .inl rfl
    · exact .inr (by omega)

end Lighten

/-! ## Passes that make texts shorter -/

/-- A pass that leaves a text alone or makes it shorter. -/
def Shrinks (f : Text → Text) : Prop := ∀ t, f t = t ∨ (f t).length < t.length

theorem Shrinks.length_le {f : Text → Text} (h : Shrinks f) (t : Text) :
    (f t).length ≤ t.length := by
  rcases h t with heq | hlt
  · exact Nat.le_of_eq (congrArg List.length heq)
  · exact Nat.le_of_lt hlt

/-- What one such pass has made shorter, no later one makes whole. -/
theorem Shrinks.comp_eq_self_iff {f g : Text → Text} (hg : Shrinks g) (hf : Shrinks f) (t : Text) :
    g (f t) = t ↔ f t = t ∧ g t = t := by
  constructor
  · intro heq
    rcases hf t with hsame | hlt
    · rw [hsame] at heq
      exact ⟨hsame, heq⟩
    · have hle := hg.length_le (f t)
      rw [heq] at hle
      omega
  · intro ⟨hf, hg⟩
    rw [hf, hg]

theorem Shrinks.comp {f g : Text → Text} (hg : Shrinks g) (hf : Shrinks f) :
    Shrinks fun t => g (f t) := by
  intro t
  rcases hf t with hsame | hlt
  · simp only [hsame]
    exact hg t
  · exact .inr (Nat.lt_of_le_of_lt (hg.length_le (f t)) hlt)

section Shrink

variable {reader : Text → Option (Text × Text)} (h : Consumes reader)
  (hshort : ∀ t new rest, reader t = some (new, rest) → new.length + rest.length < t.length)

include h hshort

/-- So does one that puts shorter texts in place of what it reads. -/
theorem shrinks_substitute : Shrinks (substitute fun _ => reader) := by
  intro t
  simp only [← weight_one] at hshort ⊢
  exact lightens_substitute h hshort t

/-- It leaves a text alone just if it reads nothing in it. -/
theorem substitute_eq_self_iff (t : Text) :
    substitute (fun _ => reader) t = t ↔ ∀ s, s <:+ t → reader s = none := by
  constructor
  · intro heq
    induction t using substitute_induction h with
    | nil =>
      intro s hs
      rw [List.suffix_nil.1 hs, h.nil]
    | found t new rest hread ih =>
      have hlt := hshort t new rest hread
      have hle := (shrinks_substitute h hshort).length_le rest
      rw [substitute_found h hread] at heq
      replace heq := congrArg List.length heq
      rw [List.length_append] at heq
      omega
    | other c t hread ih =>
      rw [substitute_other hread] at heq
      intro s hs
      rcases List.suffix_cons_iff.1 hs with rfl | hs
      · exact hread
      · exact ih (List.cons.inj heq).2 s hs
  · intro hnone
    exact substitute_eq_self fun _ c cs hs => hnone (c :: cs) hs

end Shrink

/-! ## Replacing a piece -/

variable {old new : Text}

theorem consumes_after? (hne : old ≠ []) :
    Consumes fun t => (after? old t).map fun rest => (new, rest) := by
  intro t value rest hread
  obtain ⟨rest', hafter, hfound⟩ := Option.map_eq_some_iff.mp hread
  obtain ⟨-, rfl⟩ := Prod.mk.inj hfound
  exact ⟨old, hne, after?_eq_some.mp hafter⟩

theorem after?_eq_none_iff {t : Text} : after? old t = none ↔ ¬ old <+: t := by
  rw [Option.eq_none_iff_forall_ne_some]
  constructor
  · rintro h ⟨rest, hrest⟩
    exact h rest (after?_eq_some.mpr hrest.symm)
  · intro h rest hrest
    exact h ⟨rest, (after?_eq_some.mp hrest).symm⟩

theorem cut?_eq_none_iff (hne : old ≠ []) {t : Text} : cut? old t = none ↔ ¬ old <:+: t := by
  induction t with
  | nil => simp [cut?, hne]
  | cons c t ih =>
    rw [List.infix_cons_iff, not_or, ← ih, cut?]
    cases hread : after? old (c :: t) with
    | none => simp [after?_eq_none_iff.1 hread]
    | some rest => simp [after?_eq_some.1 hread]

theorem contains_iff (hne : old ≠ []) {t : Text} : contains old t = true ↔ old <:+: t := by
  rw [contains, Option.isSome_iff_ne_none, ne_eq, cut?_eq_none_iff hne, Decidable.not_not]

/-- A text that is cut at a piece is what comes before, the piece, and what comes after. -/
theorem cut?_eq_append {piece t before rest : Text} (h : cut? piece t = some (before, rest)) :
    t = before ++ (piece ++ rest) := by
  induction t generalizing before with
  | nil =>
    rw [cut?] at h
    obtain ⟨hempty, h⟩ := Option.ite_none_right_eq_some.1 h
    obtain ⟨rfl, rfl⟩ := Prod.mk.inj (Option.some.inj h)
    rw [List.isEmpty_iff.1 hempty]
    rfl
  | cons c t ih =>
    rw [cut?] at h
    split at h
    case h_1 after hafter =>
      obtain ⟨rfl, rfl⟩ := Prod.mk.inj (Option.some.inj h)
      rw [after?_eq_some.1 hafter, List.nil_append]
    case h_2 =>
      obtain ⟨⟨more, after⟩, hmore, heq⟩ := Option.map_eq_some_iff.1 h
      obtain ⟨rfl, rfl⟩ := Prod.mk.inj heq
      rw [ih hmore, List.cons_append]

/-- A piece does not begin before the place where a text is cut at it. -/
theorem not_prefix_of_cut? {piece t skipped rest : Text} (h : cut? piece t = some (skipped, rest))
    {u v : Text} {d : Char} (hskipped : skipped = u ++ d :: v) :
    ¬ piece <+: d :: v ++ (piece ++ rest) := by
  induction t generalizing skipped u with
  | nil => simp [cut?, hskipped] at h
  | cons c t ih =>
    have ht := cut?_eq_append h
    rw [cut?] at h
    split at h
    case h_1 => simp [hskipped] at h
    case h_2 hafter =>
      obtain ⟨⟨more, rest'⟩, hmore, heq⟩ := Option.map_eq_some_iff.1 h
      obtain ⟨rfl, rfl⟩ := Prod.mk.inj heq
      cases u with
      | nil =>
        rw [List.nil_append] at hskipped
        rw [← hskipped, ← ht]
        exact after?_eq_none_iff.1 hafter
      | cons e u => exact ih hmore (List.cons.inj hskipped).2

/-- A text is cut at a character where it first stands. -/
theorem cut?_singleton_eq_some {t before rest : Text} :
    cut? [c] t = some (before, rest) ↔ c ∉ before ∧ t = before ++ c :: rest := by
  induction t generalizing before with
  | nil => simp [cut?]
  | cons d t ih =>
    by_cases hd : c = d
    · subst hd
      cases before with
      | nil => simp [cut?, after?, eq_comm]
      | cons e before => simp [cut?, after?]; grind
    · cases before with
      | nil => simp [cut?, after?, hd, Ne.symm hd]
      | cons e before => simp [cut?, after?, hd]; grind

/-- A piece that stands after a character it does not have is found there. -/
theorem cut?_append_cons {piece u : Text} {d : Char} (hne : piece ≠ []) (hd : d ∉ piece)
    (hu : ¬ piece <:+: u) (rest : Text) :
    cut? piece (u ++ d :: (piece ++ rest)) = some (u ++ [d], rest) := by
  have hfound : cut? piece (piece ++ rest) = some ([], rest) := by
    obtain ⟨c, more, rfl⟩ := List.exists_cons_of_ne_nil hne
    rw [List.cons_append, cut?, ← List.cons_append, after?_eq_some.2 rfl]
  induction u with
  | nil =>
    have hnone : after? piece (d :: (piece ++ rest)) = none := by
      rw [after?_eq_none_iff]
      intro hprefix
      obtain ⟨c, more, rfl⟩ := List.exists_cons_of_ne_nil hne
      obtain ⟨rfl, -⟩ := List.cons_prefix_cons.1 hprefix
      exact hd List.mem_cons_self
    rw [List.nil_append, cut?, hnone, hfound]
    rfl
  | cons c u ih =>
    have hnone : after? piece (c :: (u ++ d :: (piece ++ rest))) = none := by
      have happend := after?_append hd (c :: u) (piece ++ rest)
      rw [List.cons_append] at happend
      rw [happend, after?_eq_none_iff.2 fun hprefix => hu hprefix.isInfix]
      rfl
    rw [List.cons_append, cut?, hnone, ih fun hin => hu (hin.trans (List.suffix_cons c u).isInfix)]
    rfl

@[simp] theorem replace_nil (old new : Text) : replace old new [] = [] := rfl

theorem replace_old_append (hne : old ≠ []) (t : Text) :
    replace old new (old ++ t) = new ++ replace old new t := by
  refine substitute_found (consumes_after? hne) ?_
  rw [after?_eq_some.mpr rfl, Option.map_some]

theorem replace_cons {t : Text} (h : ¬ old <+: c :: t) :
    replace old new (c :: t) = c :: replace old new t := by
  refine substitute_other ?_
  rw [after?_eq_none_iff.mpr h, Option.map_none]

/-- Induction over the places that a replacement looks at. -/
theorem replace_induction (hne : old ≠ []) {P : Text → Prop} (nil : P [])
    (found : ∀ t, P t → P (old ++ t)) (other : ∀ c t, ¬ old <+: c :: t → P t → P (c :: t))
    (t : Text) : P t := by
  induction t using substitute_induction (@consumes_after? old [] hne) with
  | nil => exact nil
  | found t new rest hread ih =>
    obtain ⟨rest', hafter, hfound⟩ := Option.map_eq_some_iff.mp hread
    obtain ⟨-, rfl⟩ := Prod.mk.inj hfound
    rw [after?_eq_some.mp hafter]
    exact found rest' ih
  | other c t hread ih =>
    exact other c t (after?_eq_none_iff.mp (Option.map_eq_none_iff.mp hread)) ih

theorem replace_eq_self {t : Text} (h : ¬ old <:+: t) : replace old new t = t := by
  induction t with
  | nil => rfl
  | cons c t ih =>
    rw [replace_cons fun hprefix => h hprefix.isInfix,
      ih fun hstands => h (hstands.trans (List.suffix_cons c t).isInfix)]

theorem weight_lt_of_after? {w : Char → Nat} (hlight : weight w new < weight w old)
    (t new' rest : Text)
    (hread : (after? old t).map (fun rest => (new, rest)) = some (new', rest)) :
    weight w new' + weight w rest < weight w t := by
  obtain ⟨rest', hafter, hfound⟩ := Option.map_eq_some_iff.1 hread
  obtain ⟨rfl, rfl⟩ := Prod.mk.inj hfound
  rw [after?_eq_some.1 hafter, weight_append]
  omega

theorem lightens_replace {w : Char → Nat} (hlight : weight w new < weight w old) :
    Lightens w (replace old new) := by
  have hne : old ≠ [] := by
    rintro rfl
    exact Nat.not_lt_zero _ hlight
  exact lightens_substitute (consumes_after? hne) (weight_lt_of_after? hlight)

theorem length_lt_of_after? (hshort : new.length < old.length) (t new' rest : Text)
    (hread : (after? old t).map (fun rest => (new, rest)) = some (new', rest)) :
    new'.length + rest.length < t.length := by
  simp only [← weight_one] at hshort ⊢
  exact weight_lt_of_after? hshort t new' rest hread

theorem shrinks_replace (hshort : new.length < old.length) : Shrinks (replace old new) :=
  shrinks_substitute (consumes_after? (List.ne_nil_of_length_pos (by omega)))
    (length_lt_of_after? hshort)

/-- Replacing a piece by a shorter one changes a text just if the piece stands in it. -/
theorem replace_eq_self_iff (hshort : new.length < old.length) (t : Text) :
    replace old new t = t ↔ ¬ old <:+: t := by
  have hne : old ≠ [] := List.ne_nil_of_length_pos (by omega)
  refine (substitute_eq_self_iff (consumes_after? hne) (length_lt_of_after? hshort) t).trans ?_
  simp only [Option.map_eq_none_iff, after?_eq_none_iff, List.infix_iff_prefix_suffix, not_exists,
    not_and]
  exact forall_congr' fun s => ⟨fun hs hprefix hsuffix => hs hsuffix hprefix,
    fun hs hsuffix hprefix => hs hprefix hsuffix⟩

/-- A replacement of one character goes character by character. -/
theorem replace_singleton (c : Char) (new t : Text) :
    replace [c] new t = t.flatMap fun d => if d = c then new else [d] := by
  induction t with
  | nil => rfl
  | cons d t ih =>
    by_cases hd : d = c
    · subst hd
      have hfound := @replace_old_append [d] new (List.cons_ne_nil d []) t
      rw [List.singleton_append] at hfound
      simp [hfound, ih]
    · rw [replace_cons (by simp [Ne.symm hd]), ih]
      simp [hd]

/-! ## Pieces in longer texts -/

theorem prefix_append_cons_iff {w : Text} (hc : c ∉ w) (x y : Text) :
    w <+: x ++ c :: y ↔ w <+: x := by
  constructor
  · intro h
    rcases List.prefix_or_prefix_of_prefix h (List.prefix_append x (c :: y)) with hshort | hlong
    · exact hshort
    · obtain ⟨more, rfl⟩ := hlong
      rw [List.prefix_append_right_inj] at h
      cases more with
      | nil => simp
      | cons d more =>
        obtain ⟨rfl, -⟩ := List.cons_prefix_cons.mp h
        simp at hc
  · exact fun h => h.trans (List.prefix_append _ _)

/-- A piece without a character does not reach across it. -/
theorem isInfix_append_cons_iff {piece : Text} (hc : c ∉ piece) (x y : Text) :
    piece <:+: x ++ c :: y ↔ piece <:+: x ∨ piece <:+: y := by
  have hbegins := prefix_append_cons_iff hc
  induction x with
  | nil =>
    have hnil : piece <+: c :: y ↔ piece <+: [] := hbegins [] y
    rw [List.nil_append, List.infix_cons_iff, hnil, List.prefix_nil, List.infix_nil]
  | cons d x ih =>
    have hcons := hbegins (d :: x) y
    rw [List.cons_append] at hcons ⊢
    rw [List.infix_cons_iff, hcons, List.infix_cons_iff, or_assoc]
    exact or_congr_right ih

end BladeView.Text
