import BladeView.Proofs.Expression.Step

/-!
# Flat code

Code is flat if it has no brackets and every quoted run in it is closed and holds the characters of
a name. The arguments of directives are flat if they are made of variables and quoted names. The
conversion to script keeps code flat, whatever signs and words stand in it, and flat code opens and
closes nothing.
-/
namespace BladeView

open List (all_eq_true cons_append forall_mem_cons)

variable {inside rest : Text} {quote c : Char}

/-! ## Flat code -/

namespace Flat

/-- What may stand within a quoted run. A run in backticks holds no dollar signs. -/
def isQuoted (quote c : Char) : Bool := isNameChar c && !(quote == '\x60' && c == '$')

/-- Reads one character; the state is the mark of the open quoted run. -/
def step? : Option Char → Char → Option (Option Char)
  | none, c => if isQuote c then some (some c) else if isPlainCode c then some none else none
  | some quote, c =>
    if c == quote then some none else if isQuoted quote c then some (some quote) else none

/-- The open quoted run after a text. -/
def read? (quote : Option Char) : Text → Option (Option Char)
  | [] => some quote
  | c :: t => (step? quote c).bind fun quote' => read? quote' t

theorem read?_append (quote : Option Char) (t u : Text) :
    read? quote (t ++ u) = (read? quote t).bind fun quote' => read? quote' u := by
  induction t generalizing quote with
  | nil => rfl
  | cons c t ih =>
    simp only [cons_append, read?]
    cases step? quote c with
    | none => rfl
    | some quote' => exact ih quote'

theorem read?_plain {t : Text} (ht : ∀ c ∈ t, isPlainCode c = true) : read? none t = some none := by
  induction t with
  | nil => rfl
  | cons c t ih =>
    have hc := ht c (by simp)
    have hstep : step? none c = some none := by
      simp [step?, hc, isQuote_eq_false_of_isPlainCode hc]
    simpa [read?, hstep] using ih fun d hd => ht d (by simp [hd])

/-- Flat code has no brackets, and only quotation marks open quoted runs in it. -/
theorem step?_spec {quote next : Option Char} (hquote : ∀ q ∈ quote, isQuote q = true)
    (h : step? quote c = some next) :
    (isQuote c = true ∨ isPlainCode c = true) ∧ ∀ q ∈ next, isQuote q = true := by
  cases quote with
  | none =>
    simp only [step?] at h
    split at h
    case isTrue hc =>
      cases h
      exact ⟨.inl hc, fun q hq => Option.some.inj hq ▸ hc⟩
    case isFalse =>
      obtain ⟨hc, h⟩ := Option.ite_none_right_eq_some.1 h
      cases h
      exact ⟨.inr hc, by simp⟩
  | some mark =>
    have hmark := hquote mark rfl
    simp only [step?] at h
    split at h
    case isTrue hc =>
      cases h
      have hc : c = mark := by simpa using hc
      exact ⟨.inl (hc ▸ hmark), by simp⟩
    case isFalse =>
      obtain ⟨hc, h⟩ := Option.ite_none_right_eq_some.1 h
      cases h
      simp only [isQuoted, Bool.and_eq_true] at hc
      exact ⟨.inr (isPlainCode_of_isNameChar hc.1), hquote⟩

theorem read?_spec {quote final : Option Char} {t : Text} (hquote : ∀ q ∈ quote, isQuote q = true)
    (h : read? quote t = some final) :
    (∀ c ∈ t, isQuote c = true ∨ isPlainCode c = true) ∧ ∀ q ∈ final, isQuote q = true := by
  induction t generalizing quote with
  | nil =>
    cases h
    exact ⟨by simp, hquote⟩
  | cons c t ih =>
    obtain ⟨next, hstep, hrest⟩ := Option.bind_eq_some_iff.mp h
    obtain ⟨hc, hnext⟩ := step?_spec hquote hstep
    obtain ⟨ht, hfinal⟩ := ih hnext hrest
    exact ⟨forall_mem_cons.mpr ⟨hc, ht⟩, hfinal⟩

/-- The quoted run that is open at the front of flat code. -/
theorem exists_run {t : Text} (h : read? (some quote) t = some none) :
    ∃ inside rest, t = inside ++ quote :: rest ∧ read? none rest = some none ∧
      ∀ c ∈ inside, c ≠ quote ∧ isQuoted quote c = true := by
  induction t with
  | nil => cases h
  | cons c t ih =>
    obtain ⟨next, hstep, hrest⟩ := Option.bind_eq_some_iff.mp h
    simp only [step?] at hstep
    split at hstep
    case isTrue hc =>
      cases hstep
      have hc : c = quote := by simpa using hc
      exact ⟨[], t, by rw [hc]; rfl, hrest, by simp⟩
    case isFalse hc =>
      obtain ⟨hquoted, hstep⟩ := Option.ite_none_right_eq_some.1 hstep
      cases hstep
      obtain ⟨inside, rest, rfl, hflat, hinside⟩ := ih hrest
      refine ⟨c :: inside, rest, rfl, hflat, ?_⟩
      intro d hd
      rcases List.mem_cons.mp hd with rfl | hd
      · exact ⟨by simpa using hc, hquoted⟩
      · exact hinside d hd

theorem read?_run (hinside : ∀ c ∈ inside, c ≠ quote ∧ isQuoted quote c = true) (rest : Text) :
    read? (some quote) (inside ++ quote :: rest) = read? none rest := by
  induction inside with
  | nil => simp [read?, step?]
  | cons c inside ih =>
    obtain ⟨hne, hquoted⟩ := hinside c (by simp)
    simpa [read?, step?, hne, hquoted] using ih fun d hd => hinside d (by simp [hd])

end Flat

/-- Code without brackets in which every quoted run is closed and holds the characters of a name. -/
def IsFlat (t : Text) : Prop := Flat.read? none t = some none

namespace IsFlat

variable {t u : Text}

theorem nil : IsFlat [] := rfl

theorem of_plain (ht : ∀ c ∈ t, isPlainCode c = true) : IsFlat t := Flat.read?_plain ht

theorem append (ht : IsFlat t) (hu : IsFlat u) : IsFlat (t ++ u) := by
  rw [IsFlat, Flat.read?_append, ht]
  exact hu

theorem of_append_plain (h : IsFlat (t ++ u)) (ht : ∀ c ∈ t, isPlainCode c = true) : IsFlat u := by
  rwa [IsFlat, Flat.read?_append, Flat.read?_plain ht] at h

/-- A quoted run before flat code. -/
theorem quoted (hquote : isQuote quote = true)
    (hinside : ∀ c ∈ inside, c ≠ quote ∧ Flat.isQuoted quote c = true) (ht : IsFlat t) :
    IsFlat (quote :: (inside ++ quote :: t)) := by
  have hrun := Flat.read?_run hinside t
  rw [ht] at hrun
  simpa [IsFlat, Flat.read?, Flat.step?, hquote] using hrun

/-- Flat code may be cut before a sign: no quoted run goes on there. -/
theorem cut (hquote : isQuote c = false) (hname : isNameChar c = false) (h : IsFlat (t ++ c :: u)) :
    IsFlat t ∧ IsFlat (c :: u) := by
  rw [IsFlat, Flat.read?_append] at h
  obtain ⟨state, hstate, hrest⟩ := Option.bind_eq_some_iff.mp h
  cases state with
  | none => exact ⟨hstate, hrest⟩
  | some mark =>
    have hmark := (Flat.read?_spec (by simp) hstate).2 mark rfl
    have hne : c ≠ mark := by
      rintro rfl
      rw [hmark] at hquote
      cases hquote
    simp [Flat.read?, Flat.step?, hne, Flat.isQuoted, hname] at hrest

theorem of_cons (hc : isPlainCode c = true) (h : IsFlat (c :: t)) : IsFlat t :=
  of_append_plain (t := [c]) h (by simpa using hc)

theorem isPlainCode_head (hquote : isQuote c = false) (h : IsFlat (c :: t)) :
    isPlainCode c = true := by
  cases hc : isPlainCode c with
  | true => rfl
  | false => simp [IsFlat, Flat.read?, Flat.step?, hquote, hc] at h

/-- The quoted run at the front of flat code. -/
theorem exists_quoted (hquote : isQuote c = true) (h : IsFlat (c :: t)) :
    ∃ inside rest, t = inside ++ c :: rest ∧ IsFlat rest ∧
      ∀ d ∈ inside, d ≠ c ∧ Flat.isQuoted c d = true :=
  Flat.exists_run (by simpa [IsFlat, Flat.read?, Flat.step?, hquote] using h)

/-- Flat code is made of plain characters and quoted runs. -/
@[elab_as_elim]
theorem induction {P : Text → Prop} (nil : P [])
    (plain : ∀ c t, isPlainCode c = true → P t → P (c :: t))
    (quoted : ∀ c inside t, isQuote c = true → (∀ d ∈ inside, d ≠ c ∧ Flat.isQuoted c d = true) →
      P t → P (c :: (inside ++ c :: t)))
    {t : Text} (h : IsFlat t) : P t := by
  induction hlength : t.length using Nat.strongRecOn generalizing t with
  | ind length ih =>
    cases t with
    | nil => exact nil
    | cons c t =>
      cases hquote : isQuote c with
      | false =>
        have hplain := h.isPlainCode_head hquote
        exact plain c t hplain (ih t.length (by rw [← hlength]; simp) (h.of_cons hplain) rfl)
      | true =>
        obtain ⟨inside, rest, rfl, hrest, hinside⟩ := h.exists_quoted hquote
        refine quoted c inside rest hquote hinside (ih rest.length ?_ hrest rfl)
        rw [← hlength, List.length_cons, List.length_append, List.length_cons]
        omega

theorem dropWhile {p : Char → Bool} (hp : ∀ c, p c = true → isPlainCode c = true)
    (h : IsFlat t) : IsFlat (t.dropWhile p) := by
  rw [← List.takeWhile_append_dropWhile (p := p) (l := t)] at h
  exact of_append_plain h fun c hc => hp c (all_eq_true.mp List.all_takeWhile c hc)

/-- Flat code has no brackets. -/
theorem ne_bracket (h : IsFlat t) (hc : c ∈ t) : c ≠ '[' ∧ c ≠ ']' := by
  have hclass := (Flat.read?_spec (by simp) h).1 c hc
  constructor <;> rintro rfl <;> exact absurd hclass (by decide)

/-! ### Trimming -/

theorem dropEndWhile_isBlank (h : IsFlat t) : IsFlat (Text.dropEndWhile isBlank t) := by
  obtain ⟨dropped, heq, hblank⟩ := Text.dropEndWhile_append isBlank t
  cases dropped with
  | nil =>
    rw [List.append_nil] at heq
    rwa [← heq]
  | cons c dropped =>
    have hc := hblank c (by simp)
    rw [heq] at h
    exact (cut (isQuote_eq_false_of_isPlainCode (isPlainCode_of_isBlank hc))
      (isNameChar_eq_false_of_isBlank hc) h).1

theorem trim (h : IsFlat t) : IsFlat (Text.trim t) :=
  dropEndWhile_isBlank (dropWhile (fun _ => isPlainCode_of_isBlank) h)

end IsFlat

/-! ## Conversion -/

namespace Expression

/-! ### Tokens -/

theorem quotedRest_append (hinside : ∀ c ∈ inside, c ≠ quote ∧ c ≠ '\\') (hquote : quote ≠ '\\')
    (rest : Text) :
    quotedRest quote (inside ++ quote :: rest) = inside ++ [quote] := by
  induction inside with
  | nil => rw [List.nil_append, quotedRest.eq_def]; simp [hquote]
  | cons c inside ih =>
    obtain ⟨⟨hne, hslash⟩, hinside⟩ := forall_mem_cons.mp hinside
    rw [cons_append, quotedRest.eq_def]
    simp [hslash, hne, ih hinside]

/-- A quoted name stays one. -/
theorem isFlat_literal (hquote : isQuote quote = true)
    (hinside : ∀ c ∈ inside, c ≠ quote ∧ Flat.isQuoted quote c = true) :
    IsFlat (literal (quote :: (inside ++ [quote]))) := by
  have hsame : IsFlat (quote :: (inside ++ [quote])) := IsFlat.quoted hquote hinside .nil
  unfold literal
  split
  case h_2 => exact hsame
  case h_1 inner henclosed =>
    split
    · exact hsame
    · have hq : quote = '\x27' ∧ inner = inside := by
        unfold Text.enclosed? at henclosed
        by_cases hq : quote = '\x27' <;> simp_all
      obtain ⟨rfl, rfl⟩ := hq
      have hinside' : ∀ c ∈ inner, c ≠ '\x22' ∧ Flat.isQuoted '\x22' c = true := by
        intro c hc
        have hname : isNameChar c = true := by
          simpa [Flat.isQuoted] using (hinside c hc).2
        refine ⟨?_, by simpa [Flat.isQuoted] using hname⟩
        rintro rfl
        exact absurd hname (by decide)
      exact IsFlat.quoted rfl hinside' .nil

/-! ### The pass -/

variable {bindings : Bindings} {convert : Text → Text}

theorem isFlat_qualify {name : Text} (hname : ∀ c ∈ name, isPlainCode c = true) :
    IsFlat (Callee.qualify name) := by
  have howner : IsFlat (Callee.owner name) := by
    unfold Callee.owner
    split <;> rfl
  exact (howner.append (by rfl)).append (.of_plain hname)

/-- A quoted run of flat code is read as a whole. -/
theorem isFlat_quoted (hquote : isQuote quote = true)
    (hinside : quotedRest quote (inside ++ rest) = inside)
    (h : IsFlat (quote :: (inside ++ rest))) :
    IsFlat rest ∧ IsFlat (literal (quote :: inside)) := by
  obtain ⟨name, rest', heq, hrest, hname⟩ := h.exists_quoted hquote
  have hslash : quote ≠ '\\' := by
    rintro rfl
    cases hquote
  have hplain : ∀ d ∈ name, d ≠ quote ∧ d ≠ '\\' := by
    intro d hd
    refine ⟨(hname d hd).1, ?_⟩
    rintro rfl
    simpa [Flat.isQuoted, isNameChar] using (hname _ hd).2
  rw [heq, quotedRest_append hplain hslash] at hinside
  subst hinside
  rw [List.append_assoc, List.singleton_append] at heq
  obtain rfl : rest = rest' := (List.cons.inj (List.append_cancel_left heq)).2
  exact ⟨hrest, isFlat_literal hquote hname⟩

/-- A turn keeps what is left, and what is written, flat. -/
theorem isFlat_turn {p p' : Pass} {read : Text} (hturn : Turn bindings convert p read rest p')
    (h : IsFlat (read ++ rest)) :
    IsFlat rest ∧ (IsFlat p.written.reverse → IsFlat p'.written.reverse) := by
  have hwrite : ∀ {w : Text}, IsFlat w →
      IsFlat p.written.reverse → IsFlat (w.reverse ++ p.written).reverse := by
    intro w hw hp
    rw [List.reverse_append, List.reverse_reverse]
    exact hp.append hw
  have hcopy : (∀ c ∈ read, isPlainCode c = true) →
      IsFlat rest ∧ (IsFlat p.written.reverse → IsFlat (read.reverse ++ p.written).reverse) :=
    fun hread => ⟨h.of_append_plain hread, hwrite (.of_plain hread)⟩
  have hname : ∀ {c : Char} {name : Text}, isNameStart c = true →
      (∀ d ∈ name, isNameChar d = true) → ∀ d ∈ c :: name, isPlainCode d = true :=
    fun hc hchars => forall_mem_cons.mpr ⟨isPlainCode_of_isNameChar
      (isNameChar_of_isNameStart hc), fun d hd => isPlainCode_of_isNameChar (hchars d hd)⟩
  have hblank : ∀ {blanks : Text}, (∀ d ∈ blanks, isBlank d = true) →
      ∀ d ∈ blanks, isPlainCode d = true := fun hblanks d hd => isPlainCode_of_isBlank (hblanks d hd)
  cases hturn with
  | escape | escapeEnd | group | bracket => exact absurd (h.isPlainCode_head (by decide)) (by decide)
  | quoted hquote hinside =>
    obtain ⟨hrest, hliteral⟩ := isFlat_quoted hquote hinside h
    exact ⟨hrest, hwrite hliteral⟩
  | sigil _ hc hchars =>
    refine ⟨h.of_append_plain ?_, hwrite (.of_plain (hname hc hchars))⟩
    exact forall_mem_cons.mpr ⟨rfl, hname hc hchars⟩
  | nameTail _ hc => exact hcopy (List.forall_mem_singleton.mpr (isPlainCode_of_isNameChar hc))
  | parameters _ hblanks =>
    refine ⟨h.of_append_plain ?_, id⟩
    exact forall_mem_cons.mpr ⟨rfl, forall_mem_cons.mpr ⟨rfl, hblank hblanks⟩⟩
  | routed _ hc hchars =>
    exact ⟨h.of_append_plain (hname hc hchars), hwrite (isFlat_qualify (hname hc hchars))⟩
  | word _ hc hchars => exact hcopy (hname hc hchars)
  | number _ _ hnumber =>
    obtain ⟨-, -, hdigits⟩ := number_prefix (_ :: (_ ++ rest))
    exact hcopy (hnumber ▸ hdigits)
  | arrow | optionalArrow | static | append =>
    exact ⟨h.of_append_plain (all_eq_true.mp rfl), hwrite rfl⟩
  | optional | spread | dot => exact hcopy (all_eq_true.mp rfl)
  | concatenation hblanks =>
    refine ⟨h.of_append_plain (forall_mem_cons.mpr ⟨rfl, hblank hblanks⟩), fun hp => ?_⟩
    have htrimmed : IsFlat (p.written.dropWhile isBlank).reverse := by
      have hend := hp.dropEndWhile_isBlank
      rwa [Text.dropEndWhile, List.reverse_reverse] at hend
    have hplus : IsFlat " + " := rfl
    simpa [Pass.token, Pass.write] using htrimmed.append hplus
  | blank hc => exact hcopy (List.forall_mem_singleton.mpr (isPlainCode_of_isBlank hc))
  | sign hc =>
    simp only [isSign, Bool.not_eq_true', Bool.or_eq_false_iff] at hc
    exact hcopy (List.forall_mem_singleton.mpr (h.isPlainCode_head hc.1.1.1.1.1.2))

theorem isFlat_run {p : Pass} {t : Text} (ht : IsFlat t) (hp : IsFlat p.written.reverse) :
    IsFlat (run bindings convert p 0 t) := by
  refine @run_induction bindings convert
    (fun p t out => IsFlat t → IsFlat p.written.reverse → IsFlat out) ?_ ?_ p t ht hp
  · exact fun p _ hp => hp
  · intro p p' read rest out last hturn hout ht hp
    obtain ⟨hrest, hwritten⟩ := isFlat_turn hturn ht
    exact hout hrest (hwritten hp)

/-- The script form of flat code is flat. -/
theorem isFlat_toScript (bindings : Bindings) {t : Text} (h : IsFlat t) :
    IsFlat (toScript bindings t) :=
  isFlat_run h.trim .nil

end Expression

/-! ## Nesting -/

namespace Nesting

variable {part : Part} {stack : List Context}

/-- Quiet text opens and closes nothing. -/
theorem read?_quiet_append {t : Text} (hin : InText part stack)
    (ht : ∀ c ∈ t, isQuietText c = true) (u : Text) :
    read? part stack (t ++ u) = read? part stack u := by
  induction t with
  | nil => rfl
  | cons c t ih =>
    rw [cons_append, read?_quiet hin (ht c (by simp)), ih fun d hd => ht d (by simp [hd])]

theorem read?_string_append (hinside : ∀ c ∈ inside, c ≠ quote ∧ c ≠ '\x60' ∧ c ≠ '\\') (u : Text) :
    read? part (.string quote :: stack) (inside ++ quote :: u) = read? part stack u := by
  induction inside with
  | nil => simp [read?, step?]
  | cons c inside ih =>
    have hc := hinside c (by simp)
    simpa [read?, step?, hc] using ih fun d hd => hinside d (by simp [hd])

/-- A quoted name opens and closes its quotation. -/
theorem read?_quoted (hin : InCode part stack) (hquote : isQuote quote = true)
    (hinside : ∀ c ∈ inside, c ≠ quote ∧ Flat.isQuoted quote c = true) (u : Text) :
    read? part stack (quote :: (inside ++ quote :: u)) = read? part stack u := by
  by_cases hbacktick : quote = '\x60'
  · subst hbacktick
    have hquiet : ∀ c ∈ inside, isQuietText c = true := by
      intro c hc
      have hquoted := (hinside c hc).2
      simp only [Flat.isQuoted, beq_self_eq_true, Bool.true_and, Bool.and_eq_true,
        Bool.not_eq_true', beq_eq_false_iff_ne] at hquoted
      have hplain := isPlainCode_of_isNameChar hquoted.1
      simp only [isPlainCode, Bool.not_eq_true', Bool.or_eq_false_iff] at hplain
      simp [isQuietText, hplain, hquoted.2]
    rw [read?_backtick hin, read?_quiet_append (.inr ⟨_, rfl⟩) hquiet]
    simp [read?, step?]
  · have hstring : ∀ c ∈ inside, c ≠ quote ∧ c ≠ '\x60' ∧ c ≠ '\\' := by
      intro c hc
      obtain ⟨hne, hquoted⟩ := hinside c hc
      have hname : isNameChar c = true := by
        simp only [Flat.isQuoted, Bool.and_eq_true] at hquoted
        exact hquoted.1
      refine ⟨hne, ?_, ?_⟩ <;> rintro rfl <;> exact absurd hname (by decide)
    have hmark : quote = '\x27' ∨ quote = '\x22' := by
      simpa [isQuote, hbacktick] using hquote
    rw [read?_quote hin hmark, read?_string_append hstring]

/-- Flat code opens and closes nothing. -/
theorem read?_flat_append {t : Text} (hin : InCode part stack) (ht : IsFlat t) (u : Text) :
    read? part stack (t ++ u) = read? part stack u := by
  refine IsFlat.induction rfl (fun c t hplain ih => ?_) (fun c inside t hquote hinside ih => ?_) ht
  · rw [cons_append, read?_plain hin hplain, ih]
  · rw [cons_append, List.append_assoc, cons_append, read?_quoted hin hquote hinside, ih]

end Nesting
end BladeView
