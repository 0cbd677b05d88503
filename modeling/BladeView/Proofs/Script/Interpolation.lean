import BladeView.Proofs.Group.Reading
import BladeView.Proofs.Script.Nesting

/-!
# The end of an interpolation

The reader of groups has no stack. It counts braces, and takes a backtick for the start or the end
of a quoted run. From the inside of an interpolation on, it is in a quoted run at every odd level of
template literals, text and code alike, and sees all the others. On a text that `Nesting.read?`
accepts it finds the end of every interpolation all the same.
-/
namespace BladeView.Nesting

open List (append_assoc cons_append nil_append)

/-- The depth and the quote of the reader of groups inside some open delimiters. -/
def scanState : List Context → Nat × Option Char
  | [] => (0, none)
  | .literal :: outer =>
    match scanState outer with
    | (depth, none) => (depth, some '\x60')
    | (depth, some _) => (depth, none)
  | .dollar :: outer => scanState outer
  | .interpolation :: outer =>
    match scanState outer with
    | (depth, none) => (depth + 1, none)
    | hidden => hidden
  | .group opening :: outer =>
    match scanState outer with
    | (depth, none) => (if opening = '\x7b' then depth + 1 else depth, none)
    | hidden => hidden
  | .string quote :: outer =>
    match scanState outer with
    | (depth, none) => (depth, some quote)
    | hidden => hidden

/-- The group that the reader of groups finds from inside some open delimiters. -/
def scan? (stack : List Context) (t : Text) : Option (Text × Text) :=
  Group.inside? '\x7b' '\x7d' (scanState stack).1 (scanState stack).2 t

/-- Strings hold no further delimiters, so only the innermost one can be a string. -/
def IsProper (stack : List Context) : Prop :=
  (∀ quote, .string quote ∉ stack.tail) ∧
    ∀ quote, stack.head? = some (.string quote) → quote = '\x27' ∨ quote = '\x22'

theorem scanState_of_forall {stack : List Context} (h : ∀ quote, .string quote ∉ stack) :
    ∃ depth, scanState stack = (depth, none) ∨ scanState stack = (depth, some '\x60') := by
  induction stack with
  | nil => exact ⟨0, .inl rfl⟩
  | cons x outer ih =>
    obtain ⟨depth, hs⟩ := ih fun quote hmem => h quote (List.mem_cons_of_mem _ hmem)
    cases x with
    | string quote => exact absurd (List.mem_cons_self ..) (h quote)
    | literal | dollar | interpolation | group => rcases hs with hs | hs <;> simp [scanState, hs]

theorem IsProper.of_forall {stack : List Context} (h : ∀ quote, .string quote ∉ stack) :
    IsProper stack := by
  refine ⟨fun quote hmem => h quote (List.mem_of_mem_tail hmem), fun quote hhead => ?_⟩
  exact absurd (List.mem_of_mem_head? hhead) (h quote)

/-- In text and in code no string is open. -/
theorem IsProper.string_notMem {part : Part} {stack : List Context} (h : IsProper stack)
    (hin : InText part stack ∨ InCode part stack) (quote : Char) : .string quote ∉ stack := by
  rcases hin with (⟨rfl, -⟩ | ⟨outer, rfl⟩) | (⟨rfl, -⟩ | ⟨inner, outer, rfl, hinner⟩)
  · simp
  · simpa using h.1 quote
  · simp
  · have hne : .string quote ≠ inner := by
      rintro rfl
      cases hinner
    simpa [hne] using h.1 quote

section Step

variable {part : Part} {stack stack' : List Context} {c : Char}

theorem IsProper.step (h : IsProper stack) (hstep : Step part stack c stack') :
    IsProper stack' := by
  cases hstep with
  | quiet | plain | string => exact h
  | dollar hin => exact .of_forall (by simpa using h.string_notMem (.inl hin))
  | group hin | backtick hin => exact .of_forall (by simpa using h.string_notMem (.inr hin))
  | quote hin hc =>
    refine ⟨h.string_notMem (.inr hin), fun quote hhead => ?_⟩
    cases hhead
    exact hc
  | interpolation => exact .of_forall (by simpa using h.1)
  | interpolation_end | group_end | quote_end | backtick_end => exact .of_forall h.1

/-- Where the stack moves from `stack` to `stack'`, the reader of groups moves between their
states. It sees no backslash and does not leave the group. -/
theorem scanState_step (hproper : IsProper stack) (hstep : Step part stack c stack') :
    c ≠ '\\' ∧ ((scanState stack).2 = none → c = '\x7d' → 0 < (scanState stack).1) ∧
      Group.next '\x7b' '\x7d' c (scanState stack) = scanState stack' := by
  cases hstep with
  | quiet hin hc =>
    obtain ⟨depth, hs | hs⟩ := scanState_of_forall (hproper.string_notMem (.inl hin)) <;>
      simp_all [isQuietText, isQuote, Group.next]
  | dollar hin =>
    obtain ⟨depth, hs | hs⟩ := scanState_of_forall (hproper.string_notMem (.inl hin)) <;>
      simp [scanState, Group.next, hs, isQuote]
  | plain hin hc =>
    obtain ⟨depth, hs | hs⟩ := scanState_of_forall (hproper.string_notMem (.inr hin)) <;>
      simp_all [isPlainCode, isQuote, Group.next]
  | backtick hin =>
    obtain ⟨depth, hs | hs⟩ := scanState_of_forall (hproper.string_notMem (.inr hin)) <;>
      simp [scanState, Group.next, hs, isQuote]
  | quote hin hc =>
    obtain ⟨depth, hs | hs⟩ := scanState_of_forall (hproper.string_notMem (.inr hin)) <;>
      rcases hc with rfl | rfl <;> simp [scanState, Group.next, hs, isQuote]
  | group hin hc =>
    obtain ⟨closing, hclosing⟩ := Option.isSome_iff_exists.mp hc
    obtain ⟨depth, hs | hs⟩ := scanState_of_forall (hproper.string_notMem (.inr hin)) <;>
      rcases Group.closer?_eq_some.mp hclosing with ⟨rfl, -⟩ | ⟨rfl, -⟩ | ⟨rfl, -⟩ <;>
      simp [scanState, Group.next, hs, isQuote]
  | group_end hc =>
    obtain ⟨depth, hs | hs⟩ := scanState_of_forall hproper.1 <;>
      rcases Group.closer?_eq_some.mp hc with ⟨rfl, rfl⟩ | ⟨rfl, rfl⟩ | ⟨rfl, rfl⟩ <;>
      simp_all [scanState, Group.next, isQuote]
  | interpolation | interpolation_end | backtick_end =>
    obtain ⟨depth, hs | hs⟩ := scanState_of_forall hproper.1 <;>
      simp_all [scanState, Group.next, isQuote]
  | string hc =>
    obtain ⟨depth, hs | hs⟩ := scanState_of_forall hproper.1 <;>
      simp_all [scanState, Group.next]
  | quote_end =>
    obtain ⟨depth, hs | hs⟩ := scanState_of_forall hproper.1 <;>
      rcases hproper.2 _ rfl with rfl | rfl <;> simp_all [scanState, Group.next]

/-- **One character keeps the two readers together.** -/
theorem scan?_step (hproper : IsProper stack) (hstep : Step part stack c stack') (t : Text) :
    scan? stack (c :: t) = Group.extend [c] (scan? stack' t) := by
  obtain ⟨hslash, hends, hnext⟩ := scanState_step hproper hstep
  rw [scan?, Group.inside?_cons hslash hends, hnext, scan?]

end Step

section Below

variable {part : Part} {stack stack' base : List Context} {c : Char}

theorem textStep?_append (stack base : List Context) (c : Char) :
    textStep? (stack ++ base) c = (textStep? stack c).map (· ++ base) := by
  unfold textStep?
  split
  · rfl
  · split <;> rfl

theorem codeStep?_append (stack base : List Context) (c : Char) :
    codeStep? (stack ++ base) c = (codeStep? stack c).map (· ++ base) := by
  unfold codeStep?
  split
  · rfl
  · split
    · rfl
    · split
      · rfl
      · split <;> rfl

/-- A step looks at the innermost delimiter only. -/
theorem step?_append (piece : Part) (hne : stack ≠ []) :
    step? part (stack ++ base) c = (step? piece stack c).map (· ++ base) := by
  cases stack with
  | nil => exact absurd rfl hne
  | cons x rest =>
    cases x with
    | literal =>
      simp only [cons_append, step?]
      split
      · rfl
      · exact textStep?_append (.literal :: rest) base c
    | dollar =>
      simp only [cons_append, step?]
      split <;> rfl
    | interpolation =>
      simp only [cons_append, step?]
      split
      · rfl
      · exact codeStep?_append (.interpolation :: rest) base c
    | group opening =>
      simp only [cons_append, step?]
      split
      · rfl
      · exact codeStep?_append (.group opening :: rest) base c
    | string quote =>
      simp only [cons_append, step?]
      split
      · rfl
      · split <;> rfl

/-- Below an interpolation the stack does not matter, until the interpolation is closed. -/
theorem step?_interpolation {outer : List Context} (hc : ¬(stack = [] ∧ c = '\x7d')) :
    step? part (stack ++ .interpolation :: outer) c
      = (step? .code stack c).map (· ++ .interpolation :: outer) := by
  by_cases hstack : stack = []
  · subst hstack
    have hc : c ≠ '\x7d' := fun heq => hc ⟨rfl, heq⟩
    simpa [step?, hc] using codeStep?_append [] (.interpolation :: outer) c
  · exact step?_append .code hstack

theorem step?_append_piece {piece : Part} (hin : Within piece part base)
    (h : step? piece stack c = some stack') :
    step? part (stack ++ base) c = some (stack' ++ base) := by
  by_cases hstack : stack = []
  · subst hstack
    -- Outside of all delimiters nothing can be closed.
    cases piece with
    | template =>
      have hc : c ≠ '\x60' := by
        rintro rfl
        cases h
      have htext : textStep? [] c = some stack' := h
      rw [nil_append, step?_text hin hc]
      simpa [htext] using textStep?_append [] base c
    | code =>
      have hc : c ≠ ')' ∧ c ≠ ']' ∧ c ≠ '\x7d' := by
        refine ⟨?_, ?_, ?_⟩ <;> rintro rfl <;> cases h
      have hcode : codeStep? [] c = some stack' := h
      rw [nil_append, step?_code hin hc]
      simpa [hcode] using codeStep?_append [] base c
  · rw [step?_append piece hstack, h]
    rfl

/-- What is accepted is accepted wherever a piece of its kind stands. -/
theorem read?_append_piece {piece : Part} {t : Text} (hin : Within piece part base)
    (h : read? piece stack t = some stack') :
    read? part (stack ++ base) t = some (stack' ++ base) := by
  induction t generalizing stack with
  | nil =>
    cases h
    rfl
  | cons c t ih =>
    obtain ⟨next, hstep, hrest⟩ := Option.bind_eq_some_iff.mp h
    rw [read?, step?_append_piece hin hstep]
    exact ih hrest

/-- Reading on after an accepted piece is reading on from before it. -/
theorem read?_over {piece : Part} {t : Text} (hin : Within piece part stack)
    (h : read? piece [] t = some []) (rest : Text) :
    read? part stack (t ++ rest) = read? part stack rest := by
  rw [read?_append, ← nil_append stack, read?_append_piece hin h]
  rfl

end Below

/-! ## Well-formed pieces are accepted

The grammar is deterministic: where a well-formed piece stands in an accepted text, it is accepted
by itself. So a position after a well-formed beginning is a position outside of all delimiters. -/

/-- The inside of an accepted string is accepted wherever such a string stands. -/
theorem read?_string {part part' : Part} {outer outer' final : List Context} {quote : Char}
    {inside rest : Text} (hinside : ∀ c ∈ inside, c ≠ quote ∧ c ≠ '\\')
    (h : read? part (.string quote :: outer) (inside ++ quote :: rest) = some final)
    (rest' : Text) :
    read? part' (.string quote :: outer') (inside ++ quote :: rest') = read? part' outer' rest' := by
  induction inside with
  | nil => simp [read?, step?]
  | cons c inside ih =>
    obtain ⟨next, hstep, hrest⟩ := Option.bind_eq_some_iff.mp h
    have hc := (hinside c (by simp)).1
    simp only [step?, beq_iff_eq, hc, if_false] at hstep
    obtain ⟨hother, heq⟩ := Option.ite_none_left_eq_some.mp hstep
    cases heq
    rw [cons_append, read?, step?, if_neg (by simpa using hc), if_neg hother]
    exact ih (fun d hd => hinside d (by simp [hd])) hrest

/-- **A well-formed piece of an accepted text is accepted.** -/
theorem read?_of_wellFormed {piece part : Part} {t rest : Text} {stack final : List Context}
    {c : Char} (ht : WellFormed piece t) (hin : Within piece part stack)
    (hc : piece = .template → c ≠ '\x7b') (h : read? part stack (t ++ c :: rest) = some final) :
    read? piece [] t = some [] := by
  induction ht generalizing part stack c rest with
  | nil => rfl
  | @text d t hd _ hdollar _ ih =>
    obtain ⟨next, hstep, hrest⟩ := Option.bind_eq_some_iff.mp h
    rw [step?_text hin hd, textStep?] at hstep
    split at hstep
    case isTrue hdd =>
      -- A dollar sign is accepted before a brace only, and there is none here.
      have hdd : d = '$' := by simpa using hdd
      cases hstep
      have hbrace : ∃ e u, t ++ c :: rest = e :: u ∧ e ≠ '\x7b' := by
        cases t with
        | nil => exact ⟨c, rest, rfl, hc rfl⟩
        | cons e u => exact ⟨e, _, rfl, fun he => hdollar ⟨hdd, by simp [he]⟩⟩
      obtain ⟨e, u, heq, he⟩ := hbrace
      simp [heq, read?, step?, he] at hrest
    case isFalse =>
      obtain ⟨hquiet, heq⟩ := Option.ite_none_right_eq_some.mp hstep
      cases heq
      rw [read?_quiet (.inl ⟨rfl, rfl⟩) hquiet]
      exact ih hin hc hrest
  | @interpolation code t _ _ ihcode iht =>
    simp only [cons_append, append_assoc] at h
    rw [read?_interpolation hin] at h
    have hread := ihcode (.of_isCode rfl) (by simp) h
    rw [read?_over (.of_isCode rfl) hread] at h
    rw [read?_interpolation (.inl ⟨rfl, rfl⟩), read?_over (.of_isCode rfl) hread]
    exact iht hin hc h
  | plain hd _ ih =>
    rw [cons_append, read?_plain hin hd] at h
    rw [read?_plain (.inl ⟨rfl, rfl⟩) hd]
    exact ih hin hc h
  | @group opening closing code t hcloser _ _ ihcode iht =>
    have hopening : (Group.closer? opening).isSome = true := by simp [hcloser]
    simp only [cons_append, append_assoc] at h
    rw [read?_group hin hopening] at h
    have hread := ihcode (.of_isCode rfl) (by simp) h
    rw [read?_over (.of_isCode rfl) hread, read?_group_end hcloser] at h
    rw [read?_group (.inl ⟨rfl, rfl⟩) hopening, read?_over (.of_isCode rfl) hread,
      read?_group_end hcloser]
    exact iht hin hc h
  | @string quote inside t hquote hinside _ ih =>
    simp only [cons_append, append_assoc] at h
    rw [read?_quote hin hquote] at h
    rw [read?_quote (.inl ⟨rfl, rfl⟩) hquote, read?_string hinside h]
    rw [read?_string hinside h] at h
    exact ih hin hc h
  | @literal body t _ _ ihbody iht =>
    have htext {part : Part} {stack : List Context} :
        Within .template part (.literal :: stack) := .inr ⟨_, rfl⟩
    simp only [cons_append, append_assoc] at h
    rw [read?_backtick hin] at h
    have hread := ihbody htext (fun _ => by decide) h
    rw [read?_over htext hread] at h
    rw [read?_backtick (.inl ⟨rfl, rfl⟩), read?_over htext hread]
    exact iht hin hc h

/-- The reader of groups reads over accepted code. -/
theorem scan?_append {stack stack' : List Context} {code : Text} (hproper : IsProper stack)
    (h : read? .code stack code = some stack') (t : Text) :
    scan? stack (code ++ t) = Group.extend code (scan? stack' t) := by
  induction code generalizing stack with
  | nil =>
    cases h
    cases hscan : scan? stack' t <;> simp [Group.extend, hscan]
  | cons c code ih =>
    obtain ⟨next, hstep, hrest⟩ := Option.bind_eq_some_iff.mp h
    rw [cons_append, scan?_step hproper (step_of_step? hstep),
      ih (hproper.step (step_of_step? hstep)) hrest]
    cases scan? stack' t <;> rfl

/-- The reader of groups reads an interpolation with accepted code, whatever follows it. -/
theorem group_read?_interpolation {code : Text} (h : read? .code [] code = some []) (t : Text) :
    Group.read? ('\x7b' :: (code ++ '\x7d' :: t)) = some (code, t) := by
  have hend : scan? [] ('\x7d' :: t) = some ([], t) := by
    simp [scan?, scanState, Group.inside?.eq_def, isQuote]
  calc Group.read? ('\x7b' :: (code ++ '\x7d' :: t))
      = scan? [] (code ++ '\x7d' :: t) := rfl
    _ = Group.extend code (scan? [] ('\x7d' :: t)) := scan?_append (.of_forall (by simp)) h _
    _ = some (code, t) := by simp [hend, Group.extend]

/-- The reader of groups finds the end of an interpolation in every accepted text that goes on
beyond it: the code up to the brace that closes the interpolation, and what follows. -/
theorem scan?_of_read? {part : Part} {stack outer final : List Context} {t : Text}
    (hproper : IsProper stack)
    (h : read? part (stack ++ .interpolation :: outer) t = some final)
    (hfinal : final.length ≤ outer.length) :
    ∃ code after, t = code ++ '\x7d' :: after ∧ read? .code stack code = some [] ∧
      read? part outer after = some final ∧ scan? stack t = some (code, after) := by
  induction t generalizing stack with
  | nil =>
    cases h
    simp at hfinal
    omega
  | cons c t ih =>
    by_cases hc : stack = [] ∧ c = '\x7d'
    · obtain ⟨rfl, rfl⟩ := hc
      refine ⟨[], t, rfl, rfl, h, ?_⟩
      simp [scan?, scanState, Group.inside?.eq_def, isQuote]
    · obtain ⟨next, hstep, hrest⟩ := Option.bind_eq_some_iff.mp h
      rw [step?_interpolation hc] at hstep
      obtain ⟨stack', hstep', rfl⟩ := Option.map_eq_some_iff.mp hstep
      have hmove := step_of_step? hstep'
      obtain ⟨code, after, rfl, hcode, hafter, hscan⟩ := ih (hproper.step hmove) hrest
      refine ⟨c :: code, after, rfl, ?_, hafter, ?_⟩
      · simp [read?, hstep', hcode]
      · rw [scan?_step hproper hmove, hscan]
        rfl

/-- **The reader of groups finds the end of every interpolation** that stands outside of all
others in an accepted text. The brace it gives is the only one that can close the interpolation. -/
theorem at?_interpolation {t before rest : Text} (h : read? .template [] t = some [])
    (ht : t = before ++ '$' :: '\x7b' :: rest) (hbefore : WellFormed .template before) :
    ∃ code after, rest = code ++ '\x7d' :: after ∧ WellFormed .code code ∧
      WellFormed .template after ∧
      (∀ code' after', WellFormed .code code' → rest = code' ++ '\x7d' :: after' →
        code' = code) ∧
      Group.at? t (Text.byteSize before + 1) =
        some ⟨Text.byteSize before + 1, Text.byteSize before + 2 + Text.byteSize code, code⟩ := by
  subst ht
  have hin : Within .template .template [] := .inl ⟨rfl, rfl⟩
  rw [read?_over hin (read?_of_wellFormed hbefore hin (fun _ => by decide) h),
    read?_interpolation hin] at h
  obtain ⟨code, after, hcut, hcode, hafter, hscan⟩ :=
    scan?_of_read? (IsProper.of_forall (by simp) : IsProper []) h (Nat.zero_le _)
  have hread : Group.read? ('\x7b' :: rest) = some (code, after) := hscan
  refine ⟨code, after, hcut, wellFormed_of_read? hcode, wellFormed_of_read? hafter, ?_, ?_⟩
  · rintro code' after' hcode' rfl
    have hread' := read?_of_wellFormed hcode' (.of_isCode rfl) nofun h
    rw [group_read?_interpolation hread'] at hread
    exact (Prod.mk.inj (Option.some.inj hread)).1
  · rw [Group.at?_brace, hread, Option.map_some]

end BladeView.Nesting
