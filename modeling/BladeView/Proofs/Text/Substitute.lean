import BladeView.Proofs.Text.Replace

/-!
# Substitution and braces

Passes that put texts in place of the pieces that a reader reads. If no piece reaches into a brace
or into the start of an interpolation, an interpolation can be taken out of its text: it becomes the
same on its own.
-/
namespace BladeView

/-! ## Functions that keep braces -/

/-- A brace. -/
def isBrace (c : Char) : Bool := c == '\x7b' || c == '\x7d'

/-- A text that begins as an interpolation and ends with a brace. -/
def IsInterpolation (t : Text) : Prop := ∃ inner, t = '$' :: '\x7b' :: (inner ++ ['\x7d'])

/-- Braces, and the starts of interpolations, stay and divide a text. -/
structure KeepsBraces (f : Text → Text) : Prop where
  nil : f [] = []
  brace : ∀ c, isBrace c = true → ∀ u w, f (u ++ c :: w) = f u ++ c :: f w
  start : ∀ u w, f (u ++ '$' :: '\x7b' :: w) = f u ++ '$' :: '\x7b' :: f w

/-- All braces come from the text, and so does a dollar sign at the end. -/
structure ReflectsBraces (f : Text → Text) : Prop extends KeepsBraces f where
  of_brace : ∀ c, isBrace c = true → ∀ {t u w}, f t = u ++ c :: w →
    ∃ u' w', t = u' ++ c :: w' ∧ f u' = u ∧ f w' = w
  of_dollar : ∀ {t u}, f t = u ++ ['$'] → ∃ u', t = u' ++ ['$']

section Braces

variable {f g : Text → Text} {t part : Text}

theorem KeepsBraces.comp (hf : KeepsBraces f) (hg : KeepsBraces g) :
    KeepsBraces fun t => f (g t) where
  nil := by rw [hg.nil, hf.nil]
  brace c hc u w := by rw [hg.brace c hc, hf.brace c hc]
  start u w := by rw [hg.start, hf.start]

theorem ReflectsBraces.comp (hf : ReflectsBraces f) (hg : ReflectsBraces g) :
    ReflectsBraces fun t => f (g t) where
  toKeepsBraces := hf.toKeepsBraces.comp hg.toKeepsBraces
  of_brace c hc t u w h := by
    obtain ⟨u', w', hsplit, rfl, rfl⟩ := hf.of_brace c hc h
    obtain ⟨u'', w'', rfl, rfl, rfl⟩ := hg.of_brace c hc hsplit
    exact ⟨u'', w'', rfl, rfl, rfl⟩
  of_dollar h := by
    obtain ⟨u', hsplit⟩ := hf.of_dollar h
    exact hg.of_dollar hsplit

theorem KeepsBraces.interpolation (h : KeepsBraces f) (inner : Text) :
    f ('$' :: '\x7b' :: (inner ++ ['\x7d'])) = '$' :: '\x7b' :: (f inner ++ ['\x7d']) := by
  have hstart := h.start [] (inner ++ ['\x7d'])
  rwa [h.brace '\x7d' rfl, h.nil] at hstart

/-- What an interpolation becomes stands in what a text with it becomes. -/
theorem KeepsBraces.isInfix (h : KeepsBraces f) (hpart : IsInterpolation part)
    (hstands : part <:+: t) : f part <:+: f t := by
  obtain ⟨inner, rfl⟩ := hpart
  obtain ⟨front, rest, rfl⟩ := hstands
  have hsplit : front ++ '$' :: '\x7b' :: (inner ++ ['\x7d']) ++ rest =
      front ++ '$' :: '\x7b' :: (inner ++ '\x7d' :: rest) := by simp
  refine ⟨f front, f rest, ?_⟩
  rw [hsplit, h.start, h.brace '\x7d' rfl, h.interpolation]
  simp

/-- If what an interpolation becomes stands in what a text becomes, the text has a part that becomes
the same. -/
theorem ReflectsBraces.exists_isInfix (h : ReflectsBraces f) (hpart : IsInterpolation part)
    (hstands : f part <:+: f t) : ∃ g, IsInterpolation g ∧ g <:+: t ∧ f g = f part := by
  obtain ⟨inner, rfl⟩ := hpart
  obtain ⟨front, rest, hsplit⟩ := hstands
  rw [h.interpolation] at hsplit ⊢
  have hopen : f t = (front ++ ['$']) ++ '\x7b' :: (f inner ++ '\x7d' :: rest) := by
    simp [← hsplit]
  obtain ⟨before, after, rfl, hbefore, hafter⟩ := h.of_brace '\x7b' rfl hopen
  obtain ⟨before, rfl⟩ := h.of_dollar hbefore
  obtain ⟨inner', rest', rfl, hinner, -⟩ := h.of_brace '\x7d' rfl hafter
  refine ⟨'$' :: '\x7b' :: (inner' ++ ['\x7d']), ⟨inner', rfl⟩, ⟨before, rest', by simp⟩, ?_⟩
  rw [h.interpolation, hinner]

end Braces

/-! ## Passes -/

namespace Text

section Readers

variable {α : Type}

/-- No piece that the reader reads goes beyond a stop, or depends on what follows it. -/
def StopsAt (reader : Text → Option (α × Text)) (stop : Text) : Prop :=
  ∀ u w, reader (u ++ stop ++ w) = (reader u).map fun found => (found.1, found.2 ++ stop ++ w)

/-- The pieces that a reader reads end at braces and at interpolations. -/
structure StopsAtBraces (reader : Text → Option (α × Text)) : Prop where
  consumes : Consumes reader
  brace : ∀ c, isBrace c = true → StopsAt reader [c]
  start : StopsAt reader ['$', '\x7b']

theorem StopsAt.map {reader : Text → Option (α × Text)} {stop : Text} (h : StopsAt reader stop)
    (new : α → Text) :
    StopsAt (fun t => (reader t).map fun found => (new found.1, found.2)) stop := by
  intro u w
  simp only [h u w, Option.map_map]
  rfl

/-- What a reader gives for a piece does not matter. -/
theorem StopsAtBraces.map {reader : Text → Option (α × Text)} (h : StopsAtBraces reader)
    (new : α → Text) :
    StopsAtBraces fun t => (reader t).map fun found => (new found.1, found.2) := by
  refine ⟨fun t value rest hread => ?_, fun c hc => (h.brace c hc).map new, h.start.map new⟩
  obtain ⟨⟨value', rest'⟩, hread', hfound⟩ := Option.map_eq_some_iff.mp hread
  obtain ⟨-, rfl⟩ := Prod.mk.inj hfound
  exact h.consumes _ _ _ hread'

/-- A reader that reads a fixed piece first, and stops before each of the characters that braces
and interpolations begin with. -/
theorem stopsAtBraces_of_append {reader : Text → Option (α × Text)} {first : Text}
    (hne : first ≠ [])
    (hread : ∀ t value rest, reader t = some (value, rest) →
      ∃ more, t = first ++ more ∧ rest <:+ more)
    (hcut : ∀ c w, isBrace c = true ∨ c = '$' ∧ w.head? = some '\x7b' → ∀ u,
      reader (u ++ c :: w) = (reader u).map fun found => (found.1, found.2 ++ c :: w)) :
    StopsAtBraces reader := by
  refine ⟨fun t value rest h => ?_, fun c hc u w => ?_, fun u w => ?_⟩
  · obtain ⟨more, rfl, front, rfl⟩ := hread t value rest h
    exact ⟨first ++ front, List.append_ne_nil_of_left_ne_nil hne _, by simp⟩
  · simpa using hcut c w (.inl hc) u
  · simpa using hcut '$' ('\x7b' :: w) (.inr ⟨rfl, rfl⟩) u

end Readers

variable {reader : Text → Option (Text × Text)} {t new rest stop : Text}

theorem substitute_stop (h : Consumes reader) (hstop : StopsAt reader stop) (u w : Text) :
    substitute (fun _ => reader) (u ++ stop ++ w) =
      substitute (fun _ => reader) u ++ substitute (fun _ => reader) (stop ++ w) := by
  induction u using substitute_induction h with
  | nil => rfl
  | found t new rest hread ih =>
    have hmore : reader (t ++ stop ++ w) = some (new, rest ++ stop ++ w) := by
      rw [hstop, hread, Option.map_some]
    rw [substitute_found h hmore, ih, substitute_found h hread, List.append_assoc]
  | other c t hread ih =>
    have hmore : reader (c :: (t ++ stop ++ w)) = none := by
      have hcut := hstop (c :: t) w
      rwa [hread, Option.map_none] at hcut
    rw [List.cons_append, List.cons_append, substitute_other hmore, ih, substitute_other hread,
      List.cons_append]

/-- A pass copies the first character of a stop. -/
theorem substitute_cons_of_stopsAt (h : Consumes reader) {c : Char} {more : Text}
    (hstop : StopsAt reader (c :: more)) (w : Text) :
    substitute (fun _ => reader) (c :: (more ++ w)) =
      c :: substitute (fun _ => reader) (more ++ w) := by
  refine substitute_other ?_
  have hcut := hstop [] w
  rwa [h.nil, Option.map_none] at hcut

/-- A character that no piece goes beyond divides a text. -/
theorem substitute_append_cons (h : Consumes reader) {c : Char} (hstop : StopsAt reader [c])
    (u w : Text) : substitute (fun _ => reader) (u ++ c :: w) =
      substitute (fun _ => reader) u ++ c :: substitute (fun _ => reader) w := by
  have hdivide := substitute_stop h hstop u w
  rw [List.append_assoc, List.singleton_append] at hdivide
  rw [hdivide]
  exact congrArg _ (substitute_cons_of_stopsAt h hstop w)

theorem keepsBraces_substitute (h : StopsAtBraces reader) :
    KeepsBraces (substitute fun _ => reader) := by
  refine ⟨rfl, fun c hc u w => ?_, fun u w => ?_⟩
  · exact substitute_append_cons h.consumes (h.brace c hc) u w
  · have hstop := substitute_stop h.consumes h.start u w
    rw [List.append_assoc, List.cons_append, List.singleton_append] at hstop
    have hdollar := substitute_cons_of_stopsAt h.consumes h.start w
    rw [List.singleton_append] at hdollar
    rw [hstop, hdollar]
    exact congrArg (_ ++ '$' :: ·)
      (substitute_cons_of_stopsAt h.consumes (h.brace '\x7b' rfl) w)

/-- No brace is in a text that had none. -/
theorem brace_notMem_substitute (h : Consumes reader) {c : Char}
    (hnew : ∀ t new rest, reader t = some (new, rest) → c ∉ new) (hc : c ∉ t) :
    c ∉ substitute (fun _ => reader) t := by
  induction t using substitute_induction h with
  | nil => simp [substitute, sweep]
  | found t new rest hread ih =>
    obtain ⟨piece, -, rfl⟩ := h _ _ _ hread
    rw [List.mem_append, not_or] at hc
    rw [substitute_found h hread, List.mem_append, not_or]
    exact ⟨hnew _ _ _ hread, ih hc.2⟩
  | other d t hread ih =>
    rw [List.mem_cons, not_or] at hc
    rw [substitute_other hread, List.mem_cons, not_or]
    exact ⟨hc.1, ih hc.2⟩

theorem getLast?_substitute (h : Consumes reader) {c : Char}
    (hnew : ∀ t new rest, reader t = some (new, rest) → new.getLast? = some c) (t : Text) :
    (substitute (fun _ => reader) t).getLast? = t.getLast? ∨
      (substitute (fun _ => reader) t).getLast? = some c := by
  induction t using substitute_induction h with
  | nil => exact .inl rfl
  | found t new rest hread ih =>
    obtain ⟨piece, -, rfl⟩ := h _ _ _ hread
    rw [substitute_found h hread, List.getLast?_append, List.getLast?_append, hnew _ _ _ hread]
    rcases ih with hsame | hlast
    · rw [hsame]
      cases rest.getLast? with
      | none => exact .inr rfl
      | some d => exact .inl rfl
    · exact .inr (by rw [hlast, Option.some_or])
  | other d t hread ih =>
    rw [substitute_other hread, List.getLast?_cons, List.getLast?_cons]
    rcases ih with hsame | hlast
    · exact .inl (by rw [hsame])
    · exact .inr (by rw [hlast, Option.getD_some])

/-- A pass whose new texts have no braces and end with a parenthesis makes no braces, and no dollar
sign at the end. -/
theorem reflectsBraces_substitute (h : StopsAtBraces reader)
    (hnew : ∀ t new rest, reader t = some (new, rest) →
      (∀ c ∈ new, isBrace c = false) ∧ new.getLast? = some '(') :
    ReflectsBraces (substitute fun _ => reader) where
  toKeepsBraces := keepsBraces_substitute h
  of_brace c hc t u w hout := by
    have hkeeps := keepsBraces_substitute h
    have hnone : ∀ t, c ∉ t → c ∉ substitute (fun _ => reader) t := fun t =>
      brace_notMem_substitute h.consumes fun t new rest hread hmem =>
        absurd hc (Bool.eq_false_iff.mp ((hnew t new rest hread).1 c hmem))
    induction hlength : t.length using Nat.strongRecOn generalizing t u with
    | _ n ih =>
      have hmem : c ∈ t := Decidable.byContradiction fun hc => hnone t hc (by simp [hout])
      obtain ⟨x, y, rfl, hx⟩ := List.eq_append_cons_of_mem hmem
      rw [hkeeps.brace c hc] at hout
      by_cases hu : c ∈ u
      · obtain ⟨u₁, u₂, rfl, hu₁⟩ := List.eq_append_cons_of_mem hu
        rw [List.append_assoc, List.cons_append] at hout
        obtain ⟨hfirst, hrest⟩ := append_cons_inj (hnone x hx) hu₁ hout
        have hshort : y.length < n := by
          rw [← hlength]
          simp
          omega
        obtain ⟨u', w', rfl, hu', hw'⟩ := ih _ hshort y u₂ hrest rfl
        refine ⟨x ++ c :: u', w', by simp, ?_, hw'⟩
        rw [hkeeps.brace c hc, hfirst, hu']
      · obtain ⟨hfirst, hrest⟩ := append_cons_inj (hnone x hx) hu hout
        exact ⟨x, y, rfl, hfirst, hrest⟩
  of_dollar {t u} hout := by
    have hlast := getLast?_substitute h.consumes (fun t new rest hread => (hnew t new rest hread).2) t
    rw [hout, List.getLast?_concat] at hlast
    exact List.getLast?_eq_some_iff.mp (hlast.resolve_right (by decide)).symm

end Text
end BladeView
