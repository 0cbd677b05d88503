import BladeView.Prerender
import BladeView.Proofs.Text.Replace

/-!
# Taking sections out of a template

The fragments of the sections are taken out one after the other. That a fragment stands in what is
left does not mean that it was overlooked: it was put together when others were taken out, or when
it was itself.
-/
namespace BladeView

namespace Text

variable {x t m f g : Text} {pieces : List Text} {c d : Char}

/-- A text, and what is left when some copies of a piece are taken out of it. -/
inductive Thinned (x : Text) : Text → Text → Prop
  | nil : Thinned x [] []
  | copy (c : Char) {t m : Text} : Thinned x t m → Thinned x (c :: t) (c :: m)
  | drop {t m : Text} : Thinned x t m → Thinned x (x ++ t) m

/-- What is left before a character was made of what stands before it. -/
theorem exists_thinned (hx : x ≠ []) {rest : Text} (h : replace x [] t = m ++ d :: rest) :
    ∃ u v, t = u ++ d :: v ∧ Thinned x u m := by
  induction t using replace_induction hx generalizing m with
  | nil => simp at h
  | found t ih =>
    rw [replace_old_append hx, List.nil_append] at h
    obtain ⟨u, v, rfl, hu⟩ := ih h
    exact ⟨x ++ u, v, by simp, .drop hu⟩
  | other c t hc ih =>
    rw [replace_cons hc] at h
    cases m with
    | nil =>
      obtain ⟨rfl, -⟩ := List.cons.inj h
      exact ⟨[], t, rfl, .nil⟩
    | cons b m =>
      obtain ⟨rfl, hrest⟩ := List.cons.inj h
      obtain ⟨u, v, rfl, hu⟩ := ih hrest
      exact ⟨c :: u, v, rfl, .copy c hu⟩

/-- A text that is left was made of a text with the same ends. If it is the piece that was taken
out, it was not there before. -/
theorem exists_thinned_isInfix (hx : x ≠ []) (h : c :: (m ++ [d]) <:+: replace x [] t) :
    ∃ u, c :: (u ++ [d]) <:+: t ∧ Thinned x u m ∧ (x = c :: (m ++ [d]) → u ≠ m) := by
  obtain ⟨before, after, h⟩ := h
  induction t using replace_induction hx generalizing before with
  | nil => simp at h
  | found t ih =>
    rw [replace_old_append hx, List.nil_append] at h
    obtain ⟨u, hu, hmore⟩ := ih before h
    exact ⟨u, hu.trans (List.suffix_append x t).isInfix, hmore⟩
  | other b t hb ih =>
    rw [replace_cons hb] at h
    cases before with
    | nil =>
      obtain ⟨rfl, hrest⟩ := List.cons.inj h
      have hcut : replace x [] t = m ++ d :: after := by simp [← hrest]
      obtain ⟨u, v, rfl, hu⟩ := exists_thinned hx hcut
      refine ⟨u, ⟨[], v, by simp⟩, hu, ?_⟩
      rintro rfl rfl
      exact hb ⟨v, by simp⟩
    | cons a before =>
      obtain ⟨-, hrest⟩ := List.cons.inj h
      obtain ⟨u, hu, hmore⟩ := ih before hrest
      exact ⟨u, hu.trans (List.suffix_cons b t).isInfix, hmore⟩

/-- A text with some pieces inserted, one after the other, each strictly inside of what there was
before. -/
inductive Woven (pieces : List Text) (f : Text) : Text → Prop
  | refl : Woven pieces f f
  | insert {a b x : Text} : Woven pieces f (a ++ b) → a ≠ [] → b ≠ [] → x ∈ pieces →
      Woven pieces f (a ++ x ++ b)

namespace Woven

theorem trans {k : Text} (h : Woven pieces f g) (h' : Woven pieces g k) : Woven pieces f k := by
  induction h' with
  | refl => exact h
  | insert _ ha hb hx ih => exact ih.insert ha hb hx

theorem mono {more : List Text} (h : Woven pieces f g) (hsub : ∀ x ∈ pieces, x ∈ more) :
    Woven more f g := by
  induction h with
  | refl => exact .refl
  | insert _ ha hb hx ih => exact ih.insert ha hb (hsub _ hx)

theorem eq_or_lt (h : Woven pieces f g) (hne : ∀ x ∈ pieces, x ≠ []) :
    g = f ∨ f.length < g.length := by
  induction h with
  | refl => exact .inl rfl
  | @insert a b x _ _ _ hx ih =>
    have hpos : 0 < x.length := List.length_pos_iff.mpr (hne x hx)
    refine .inr ?_
    rcases ih with heq | hlt
    · rw [← heq]
      simp
      omega
    · simp at hlt ⊢
      omega

theorem length_le (h : Woven pieces f g) (hne : ∀ x ∈ pieces, x ≠ []) :
    f.length ≤ g.length := by
  rcases h.eq_or_lt hne with heq | hlt
  · exact Nat.le_of_eq (congrArg List.length heq.symm)
  · exact Nat.le_of_lt hlt

theorem of_thinned (hx : x ∈ pieces) {u : Text} (h : Thinned x u m) {a b : Text} (ha : a ≠ [])
    (hb : b ≠ []) : Woven pieces (a ++ m ++ b) (a ++ u ++ b) := by
  induction h generalizing a with
  | nil => exact .refl
  | copy c _ ih => simpa using @ih (a ++ [c]) (by simp)
  | @drop u m _ ih =>
    have hmore : Woven pieces (a ++ m ++ b) (a ++ (u ++ b)) := by simpa using ih ha
    have hinsert := hmore.insert ha (by simp [hb]) hx
    simpa using hinsert

end Woven

/-- A text that is left when pieces have been taken out one after the other. -/
theorem exists_woven (hne : ∀ x ∈ pieces, x ≠ [])
    (h : c :: (m ++ [d]) <:+: pieces.foldl (fun out x => replace x [] out) t) :
    ∃ u, c :: (u ++ [d]) <:+: t ∧ Woven pieces (c :: (m ++ [d])) (c :: (u ++ [d])) := by
  induction pieces generalizing t with
  | nil => exact ⟨m, h, .refl⟩
  | cons x pieces ih =>
    rw [List.forall_mem_cons] at hne
    obtain ⟨v, hv, hwoven⟩ := ih hne.2 h
    obtain ⟨u, hu, hthinned, -⟩ := exists_thinned_isInfix hne.1 hv
    have hlast : Woven (x :: pieces) (c :: (v ++ [d])) (c :: (u ++ [d])) :=
      .of_thinned List.mem_cons_self hthinned (List.cons_ne_nil c []) (List.cons_ne_nil d [])
    exact ⟨u, hu, (hwoven.mono fun _ => List.mem_cons_of_mem x).trans hlast⟩

/-- If it is one of the pieces, it was not there before. -/
theorem exists_woven_lt (hne : ∀ x ∈ pieces, x ≠ []) (hpiece : c :: (m ++ [d]) ∈ pieces)
    (h : c :: (m ++ [d]) <:+: pieces.foldl (fun out x => replace x [] out) t) :
    ∃ g, g <:+: t ∧ Woven pieces (c :: (m ++ [d])) g ∧ (c :: (m ++ [d])).length < g.length := by
  obtain ⟨before, after, hpieces⟩ := List.append_of_mem hpiece
  rw [hpieces, List.foldl_append, List.foldl_cons] at h
  have hbefore : ∀ x ∈ before, x ∈ pieces := fun x hx => by simp [hpieces, hx]
  have hafter : ∀ x ∈ after, x ∈ pieces := fun x hx => by simp [hpieces, hx]
  obtain ⟨v, hv, hlater⟩ := exists_woven (fun x hx => hne x (hafter x hx)) h
  obtain ⟨w, hw, hthinned, hnew⟩ := exists_thinned_isInfix (hne _ hpiece) hv
  obtain ⟨u, hu, hearlier⟩ := exists_woven (fun x hx => hne x (hbefore x hx)) hw
  have hself : Woven pieces (c :: (v ++ [d])) (c :: (w ++ [d])) :=
    .of_thinned hpiece hthinned (List.cons_ne_nil c []) (List.cons_ne_nil d [])
  have hfirst : Woven pieces (c :: (m ++ [d])) (c :: (w ++ [d])) :=
    (hlater.mono hafter).trans hself
  refine ⟨_, hu, hfirst.trans (hearlier.mono hbefore), ?_⟩
  have hlt : (c :: (m ++ [d])).length < (c :: (w ++ [d])).length := by
    refine (hfirst.eq_or_lt hne).resolve_left fun heq => ?_
    have hwm : w = m := by simpa using heq
    -- nothing was inserted by what was taken out later either
    have hle := hself.length_le hne
    rw [heq] at hle
    have hvm : v = m := by
      simpa using ((hlater.mono hafter).eq_or_lt hne).resolve_right (Nat.not_lt.mpr hle)
    exact hnew (by rw [hvm]) (hwm.trans hvm.symm)
  exact Nat.lt_of_lt_of_le hlt ((hearlier.mono hbefore).length_le hne)

end Text

namespace Section

variable {sections : List Section} {s : Section} {template : Text} {c d : Char} {m : Text}

/-- A fragment that is left in a template was made of a longer text, with fragments strictly inside
of it. -/
theorem exists_woven (hs : s ∈ sections) (hfragment : s.fragment = c :: (m ++ [d]))
    (h : s.fragment <:+: removeAll sections template) :
    ∃ g, g <:+: template ∧
      Text.Woven ((sections.filter fun s => !s.fragment.isEmpty).map (·.fragment)) s.fragment g ∧
      s.fragment.length < g.length := by
  have hne : ∀ x ∈ (sections.filter fun s => !s.fragment.isEmpty).map (·.fragment), x ≠ [] := by
    intro x hx
    simp only [List.mem_map, List.mem_filter] at hx
    obtain ⟨s', ⟨-, hs'⟩, rfl⟩ := hx
    simpa using hs'
  have hpiece : s.fragment ∈ (sections.filter fun s => !s.fragment.isEmpty).map (·.fragment) :=
    List.mem_map.mpr ⟨s, List.mem_filter.mpr ⟨hs, by simp [hfragment]⟩, rfl⟩
  have hleft : s.fragment <:+: ((sections.filter fun s => !s.fragment.isEmpty).map
      (·.fragment)).foldl (fun out x => Text.replace x [] out) template := by
    rwa [List.foldl_map]
  rw [hfragment] at hpiece hleft ⊢
  exact Text.exists_woven_lt hne hpiece hleft

end Section

end BladeView
