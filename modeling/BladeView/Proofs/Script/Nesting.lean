import BladeView.Group

/-!
# Nested template literals

The body of a template literal is text with interpolations, an interpolation holds code, and code
may hold template literals again. `WellFormed` says when such a text nests as it should.

`Nesting.read?` follows the nesting with a stack, one character at a time. It is strict about
characters that a reader of groups could take for something else: quotes and braces in text,
backticks in strings, backslashes. What it accepts is well-formed.
-/
namespace BladeView

variable {t : Text} {opening closing : Char}

theorem Group.closer?_eq_some :
    closer? opening = some closing ↔ opening = '(' ∧ closing = ')' ∨
      opening = '\x7b' ∧ closing = '\x7d' ∨ opening = '[' ∧ closing = ']' := by
  unfold closer?
  split <;> simp_all [eq_comm]

/-- The two kinds of text that nest in each other. -/
inductive Part where
  | template
  | code
  deriving DecidableEq

/-- A character of code that opens and closes nothing. -/
def isPlainCode (c : Char) : Bool :=
  !(isQuote c || c == '\\' || c == '(' || c == ')' || c == '[' || c == ']' || c == '\x7b' ||
    c == '\x7d')

/-- Bodies of template literals, and the code in them. A dollar sign is text unless a brace follows
it. -/
inductive WellFormed : Part → Text → Prop
  | nil {part : Part} : WellFormed part []
  | text {c : Char} {t : Text} : c ≠ '\x60' → c ≠ '\\' → ¬(c = '$' ∧ t.head? = some '\x7b') →
      WellFormed .template t → WellFormed .template (c :: t)
  | interpolation {code t : Text} : WellFormed .code code → WellFormed .template t →
      WellFormed .template ('$' :: '\x7b' :: (code ++ '\x7d' :: t))
  | plain {c : Char} {t : Text} : isPlainCode c = true → WellFormed .code t →
      WellFormed .code (c :: t)
  | group {opening closing : Char} {code t : Text} : Group.closer? opening = some closing →
      WellFormed .code code → WellFormed .code t →
      WellFormed .code (opening :: (code ++ closing :: t))
  | string {quote : Char} {inside t : Text} : quote = '\x27' ∨ quote = '\x22' →
      (∀ c ∈ inside, c ≠ quote ∧ c ≠ '\\') → WellFormed .code t →
      WellFormed .code (quote :: (inside ++ quote :: t))
  | literal {body t : Text} : WellFormed .template body → WellFormed .code t →
      WellFormed .code ('\x60' :: (body ++ '\x60' :: t))

namespace WellFormed

theorem append_code {u : Text} (ht : WellFormed .code t) (hu : WellFormed .code u) :
    WellFormed .code (t ++ u) := by
  generalize hpart : Part.code = part at ht
  induction ht with
  | nil => exact hpart ▸ hu
  | text => cases hpart
  | interpolation => cases hpart
  | plain hc _ ih => exact .plain hc (ih hpart)
  | group hcloser hcode _ _ ih => simpa using group hcloser hcode (ih hpart)
  | string hquote hinside _ ih => simpa using string hquote hinside (ih hpart)
  | literal hbody _ _ ih => simpa using literal hbody (ih hpart)

/-- A brace at the front of the second text could complete a dollar sign at the end of the
first. -/
theorem append_template {u : Text} (ht : WellFormed .template t) (hu : WellFormed .template u)
    (hbrace : u.head? ≠ some '\x7b') : WellFormed .template (t ++ u) := by
  generalize hpart : Part.template = part at ht
  induction ht with
  | nil => exact hpart ▸ hu
  | @text c t hc hc' hdollar _ ih =>
    refine .text hc hc' ?_ (ih hpart)
    rintro ⟨hc, hhead⟩
    cases t with
    | nil => exact hbrace hhead
    | cons d t => exact hdollar ⟨hc, hhead⟩
  | interpolation hcode _ _ ih => simpa using interpolation hcode (ih hpart)
  | plain => cases hpart
  | group => cases hpart
  | string => cases hpart
  | literal => cases hpart

end WellFormed

/-! ## The stack of open delimiters -/

namespace Nesting

/-- What a position is inside of. -/
inductive Context where
  /-- The text of a template literal. -/
  | literal
  /-- A dollar sign was read that must open an interpolation. -/
  | dollar
  | interpolation
  | group (opening : Char)
  | string (quote : Char)
  deriving DecidableEq

namespace Context

/-- What stands directly inside is code. -/
def isCode : Context → Bool
  | interpolation | group _ => true
  | _ => false

end Context

/-- Text that nothing takes for a delimiter. -/
def isQuietText (c : Char) : Bool :=
  !(isQuote c || c == '\\' || c == '$' || c == '\x7b' || c == '\x7d')

/-- Reads a character of template text. -/
def textStep? (stack : List Context) (c : Char) : Option (List Context) :=
  if c == '$' then some (.dollar :: stack) else if isQuietText c then some stack else none

/-- Reads a character of code that closes nothing. -/
def codeStep? (stack : List Context) (c : Char) : Option (List Context) :=
  if c == '\x27' || c == '\x22' then some (.string c :: stack)
  else if c == '\x60' then some (.literal :: stack)
  else if (Group.closer? c).isSome then some (.group c :: stack)
  else if isPlainCode c then some stack
  else none

/-- Reads one character. `part` is what stands outside of all open delimiters. -/
def step? (part : Part) : List Context → Char → Option (List Context)
  | [], c =>
    match part with
    | .template => textStep? [] c
    | .code => codeStep? [] c
  | .literal :: stack, c => if c == '\x60' then some stack else textStep? (.literal :: stack) c
  | .dollar :: stack, c => if c == '\x7b' then some (.interpolation :: stack) else none
  | .interpolation :: stack, c =>
    if c == '\x7d' then some stack else codeStep? (.interpolation :: stack) c
  | .group opening :: stack, c =>
    if Group.closer? opening == some c then some stack else codeStep? (.group opening :: stack) c
  | .string quote :: stack, c =>
    if c == quote then some stack
    else if c == '\x60' || c == '\\' then none
    else some (.string quote :: stack)

/-- The stack after a text. -/
def read? (part : Part) (stack : List Context) : Text → Option (List Context)
  | [] => some stack
  | c :: t => (step? part stack c).bind fun stack' => read? part stack' t

@[simp] theorem read?_nil (part : Part) (stack : List Context) :
    read? part stack [] = some stack := rfl

theorem read?_append (part : Part) (stack : List Context) (t u : Text) :
    read? part stack (t ++ u) = (read? part stack t).bind fun stack' => read? part stack' u := by
  induction t generalizing stack with
  | nil => rfl
  | cons c t ih =>
    simp only [List.cons_append, read?]
    cases step? part stack c with
    | none => rfl
    | some stack' => exact ih stack'

/-- The position just inside the open delimiters is in the text of a template literal. -/
def InText (part : Part) (stack : List Context) : Prop :=
  stack = [] ∧ part = .template ∨ ∃ outer, stack = .literal :: outer

/-- The position just inside the open delimiters is in code. -/
def InCode (part : Part) (stack : List Context) : Prop :=
  stack = [] ∧ part = .code ∨ ∃ inner outer, stack = inner :: outer ∧ inner.isCode = true

/-- The position just inside the open delimiters is in a piece of this kind. -/
def Within : (piece part : Part) → List Context → Prop
  | .template => InText
  | .code => InCode

theorem Within.of_isCode {part : Part} {inner : Context} {outer : List Context}
    (h : inner.isCode = true) : Within .code part (inner :: outer) := .inr ⟨_, _, rfl, h⟩

theorem step?_text {part : Part} {stack : List Context} (hin : InText part stack) {c : Char}
    (hc : c ≠ '\x60') : step? part stack c = textStep? stack c := by
  rcases hin with ⟨rfl, rfl⟩ | ⟨outer, rfl⟩
  · rfl
  · simp [step?, hc]

theorem step?_code {part : Part} {stack : List Context} (hin : InCode part stack) {c : Char}
    (hc : c ≠ ')' ∧ c ≠ ']' ∧ c ≠ '\x7d') : step? part stack c = codeStep? stack c := by
  rcases hin with ⟨rfl, rfl⟩ | ⟨inner, outer, rfl, hinner⟩
  · rfl
  · cases inner with
    | interpolation => simp [step?, hc]
    | group opening =>
      have hcloser : Group.closer? opening ≠ some c := by
        simp [Group.closer?_eq_some, hc]
      simp [step?, hcloser]
    | literal => cases hinner
    | dollar => cases hinner
    | string => cases hinner

/-! ## Steps -/

/-- How one character takes the open delimiters on. -/
inductive Step (part : Part) : List Context → Char → List Context → Prop
  | quiet {stack : List Context} {c : Char} : InText part stack → isQuietText c = true →
      Step part stack c stack
  | dollar {stack : List Context} : InText part stack → Step part stack '$' (.dollar :: stack)
  | interpolation {stack : List Context} :
      Step part (.dollar :: stack) '\x7b' (.interpolation :: stack)
  | interpolation_end {stack : List Context} : Step part (.interpolation :: stack) '\x7d' stack
  | plain {stack : List Context} {c : Char} : InCode part stack → isPlainCode c = true →
      Step part stack c stack
  | group {stack : List Context} {c : Char} : InCode part stack →
      (Group.closer? c).isSome = true → Step part stack c (.group c :: stack)
  | group_end {stack : List Context} {opening c : Char} : Group.closer? opening = some c →
      Step part (.group opening :: stack) c stack
  | quote {stack : List Context} {c : Char} : InCode part stack → c = '\x27' ∨ c = '\x22' →
      Step part stack c (.string c :: stack)
  | string {stack : List Context} {quote c : Char} : c ≠ quote ∧ c ≠ '\x60' ∧ c ≠ '\\' →
      Step part (.string quote :: stack) c (.string quote :: stack)
  | quote_end {stack : List Context} {quote : Char} : Step part (.string quote :: stack) quote stack
  | backtick {stack : List Context} : InCode part stack →
      Step part stack '\x60' (.literal :: stack)
  | backtick_end {stack : List Context} : Step part (.literal :: stack) '\x60' stack

section Step

variable {part : Part} {stack stack' : List Context} {c : Char}

theorem step_of_textStep? (hin : InText part stack) (h : textStep? stack c = some stack') :
    Step part stack c stack' := by
  unfold textStep? at h
  split at h
  case isTrue hc =>
    cases h
    exact eq_of_beq hc ▸ .dollar hin
  case isFalse =>
    obtain ⟨hquiet, heq⟩ := Option.ite_none_right_eq_some.mp h
    cases heq
    exact .quiet hin hquiet

theorem step_of_codeStep? (hin : InCode part stack) (h : codeStep? stack c = some stack') :
    Step part stack c stack' := by
  unfold codeStep? at h
  split at h
  case isTrue hc =>
    cases h
    exact .quote hin (by simpa using hc)
  case isFalse =>
    split at h
    case isTrue hc =>
      cases h
      exact eq_of_beq hc ▸ .backtick hin
    case isFalse =>
      split at h
      case isTrue hc =>
        cases h
        exact .group hin hc
      case isFalse =>
        obtain ⟨hplain, heq⟩ := Option.ite_none_right_eq_some.mp h
        cases heq
        exact .plain hin hplain

theorem step_of_step? (h : step? part stack c = some stack') : Step part stack c stack' := by
  cases stack with
  | nil =>
    cases part with
    | template => exact step_of_textStep? (.inl ⟨rfl, rfl⟩) h
    | code => exact step_of_codeStep? (.inl ⟨rfl, rfl⟩) h
  | cons x outer =>
    cases x <;> simp only [step?] at h <;> split at h
    case literal.isTrue hc => cases h; exact eq_of_beq hc ▸ .backtick_end
    case literal.isFalse => exact step_of_textStep? (.inr ⟨_, rfl⟩) h
    case dollar.isTrue hc => cases h; exact eq_of_beq hc ▸ .interpolation
    case dollar.isFalse => cases h
    case interpolation.isTrue hc => cases h; exact eq_of_beq hc ▸ .interpolation_end
    case interpolation.isFalse => exact step_of_codeStep? (.inr ⟨_, _, rfl, rfl⟩) h
    case group.isTrue hc => cases h; exact .group_end (eq_of_beq hc)
    case group.isFalse => exact step_of_codeStep? (.inr ⟨_, _, rfl, rfl⟩) h
    case string.isTrue hc => cases h; exact eq_of_beq hc ▸ .quote_end
    case string.isFalse hc =>
      obtain ⟨hother, heq⟩ := Option.ite_none_left_eq_some.mp h
      cases heq
      exact .string (by simpa [not_or] using And.intro hc hother)

end Step

/-! ## Reading a delimiter -/

section Delimiters

variable {part : Part} {stack : List Context} {c : Char}

theorem read?_quiet (hin : InText part stack) (hc : isQuietText c = true) (t : Text) :
    read? part stack (c :: t) = read? part stack t := by
  have hne : c ≠ '\x60' ∧ c ≠ '$' := by
    constructor <;> rintro rfl <;> exact absurd hc (by decide)
  simp [read?, step?_text hin hne.1, textStep?, hne.2, hc]

theorem read?_interpolation (hin : InText part stack) (t : Text) :
    read? part stack ('$' :: '\x7b' :: t) = read? part (.interpolation :: stack) t := by
  have hdollar : step? part stack '$' = some (.dollar :: stack) := step?_text hin (by decide)
  simp only [read?, hdollar, Option.bind_some]
  rfl

theorem read?_plain (hin : InCode part stack) (hc : isPlainCode c = true) (t : Text) :
    read? part stack (c :: t) = read? part stack t := by
  have hne : ∀ d, isPlainCode d = false → c ≠ d := by
    rintro d hd rfl
    simp [hc] at hd
  have hopening : Group.closer? c = none := by
    rw [Option.eq_none_iff_forall_ne_some]
    simp [Group.closer?_eq_some, hne '(' rfl, hne '\x7b' rfl, hne '[' rfl]
  have hstep : step? part stack c = some stack := by
    rw [step?_code hin ⟨hne _ rfl, hne _ rfl, hne _ rfl⟩]
    simp [codeStep?, hne '\x27' rfl, hne '\x22' rfl, hne '\x60' rfl, hopening, hc]
  simp only [read?, hstep, Option.bind_some]

theorem read?_group (hin : InCode part stack) (hc : (Group.closer? c).isSome = true) (t : Text) :
    read? part stack (c :: t) = read? part (.group c :: stack) t := by
  obtain ⟨closing, hclosing⟩ := Option.isSome_iff_exists.mp hc
  have hstep : step? part stack c = some (.group c :: stack) := by
    rcases Group.closer?_eq_some.mp hclosing with ⟨rfl, -⟩ | ⟨rfl, -⟩ | ⟨rfl, -⟩ <;>
      exact step?_code hin (by decide)
  simp only [read?, hstep, Option.bind_some]

theorem read?_group_end (hc : Group.closer? opening = some c) (t : Text) :
    read? part (.group opening :: stack) (c :: t) = read? part stack t := by
  simp [read?, step?, hc]

theorem read?_quote (hin : InCode part stack) (hc : c = '\x27' ∨ c = '\x22') (t : Text) :
    read? part stack (c :: t) = read? part (.string c :: stack) t := by
  have hstep : step? part stack c = some (.string c :: stack) := by
    rcases hc with rfl | rfl <;> exact step?_code hin (by decide)
  simp only [read?, hstep, Option.bind_some]

theorem read?_backtick (hin : InCode part stack) (t : Text) :
    read? part stack ('\x60' :: t) = read? part (.literal :: stack) t := by
  have hstep : step? part stack '\x60' = some (.literal :: stack) := step?_code hin (by decide)
  simp only [read?, hstep, Option.bind_some]

end Delimiters

/-! ## What is accepted is well-formed

`Open part stack t` says that a text is well-formed as far as it goes: there is a complete piece
for each open delimiter. Reading a character takes one open text to the next. -/

/-- The text leaves the delimiters of `stack` open, and nests as it should up to there. -/
inductive Open (part : Part) : List Context → Text → Prop
  | base {t : Text} : WellFormed part t → Open part [] t
  | literal {stack : List Context} {u v : Text} : Open part stack u → InCode part stack →
      WellFormed .template v → Open part (.literal :: stack) (u ++ '\x60' :: v)
  | dollar {stack : List Context} {u : Text} : Open part stack u → InText part stack →
      Open part (.dollar :: stack) (u ++ ['$'])
  | interpolation {stack : List Context} {u v : Text} : Open part stack u → InText part stack →
      WellFormed .code v → Open part (.interpolation :: stack) (u ++ '$' :: '\x7b' :: v)
  | group {stack : List Context} {opening : Char} {u v : Text} : Open part stack u →
      InCode part stack → WellFormed .code v →
      Open part (.group opening :: stack) (u ++ opening :: v)
  | string {stack : List Context} {quote : Char} {u v : Text} : Open part stack u →
      InCode part stack → quote = '\x27' ∨ quote = '\x22' → (∀ c ∈ v, c ≠ quote ∧ c ≠ '\\') →
      Open part (.string quote :: stack) (u ++ quote :: v)

namespace Open

variable {part : Part} {stack stack' : List Context} {u w : Text} {c : Char}

theorem append_text (h : Open part stack u) (hin : InText part stack)
    (hw : WellFormed .template w) (hbrace : w.head? ≠ some '\x7b') : Open part stack (u ++ w) := by
  rcases hin with ⟨rfl, rfl⟩ | ⟨outer, rfl⟩
  · cases h with
    | base ht => exact .base (ht.append_template hw hbrace)
  · cases h with
    | literal hu hcode hv => simpa using literal hu hcode (hv.append_template hw hbrace)

theorem append_code (h : Open part stack u) (hin : InCode part stack)
    (hw : WellFormed .code w) : Open part stack (u ++ w) := by
  rcases hin with ⟨rfl, rfl⟩ | ⟨inner, outer, rfl, hinner⟩
  · cases h with
    | base ht => exact .base (ht.append_code hw)
  · cases h with
    | literal => cases hinner
    | dollar => cases hinner
    | interpolation hu htext hv => simpa using interpolation hu htext (hv.append_code hw)
    | group hu hcode hv => simpa using group hu hcode (hv.append_code hw)
    | string => cases hinner

/-- Reading one character keeps the text open. A closing delimiter completes the innermost piece,
which then belongs to the piece around it. -/
theorem step (h : Open part stack u) (hstep : Step part stack c stack') :
    Open part stack' (u ++ [c]) := by
  cases hstep with
  | quiet hin hc =>
    have hne : c ≠ '\x60' ∧ c ≠ '\\' ∧ c ≠ '$' ∧ c ≠ '\x7b' := by
      refine ⟨?_, ?_, ?_, ?_⟩ <;> rintro rfl <;> exact absurd hc (by decide)
    exact h.append_text hin (.text hne.1 hne.2.1 (fun hand => hne.2.2.1 hand.1) .nil)
      (by simpa using hne.2.2.2)
  | dollar hin => exact .dollar h hin
  | plain hin hc => exact h.append_code hin (.plain hc .nil)
  | group hin => exact .group h hin .nil
  | quote hin hc => exact .string h hin hc (by simp)
  | backtick hin => exact .literal h hin .nil
  | interpolation =>
    cases h with
    | dollar hu htext => simpa using interpolation hu htext .nil
  | interpolation_end =>
    cases h with
    | interpolation hu htext hv =>
      simpa using hu.append_text htext (.interpolation hv .nil) (by simp)
  | group_end hc =>
    cases h with
    | group hu hcode hv => simpa using hu.append_code hcode (.group hc hv .nil)
  | @string _ quote _ hc =>
    cases h with
    | @string _ _ _ v hu hcode hquote hv =>
      have hv' : ∀ d ∈ v ++ [c], d ≠ quote ∧ d ≠ '\\' := by
        intro d hd
        rcases List.mem_append.mp hd with hd | hd
        · exact hv d hd
        · exact List.mem_singleton.mp hd ▸ ⟨hc.1, hc.2.2⟩
      simpa using string hu hcode hquote hv'
  | quote_end =>
    cases h with
    | string hu hcode hquote hv => simpa using hu.append_code hcode (.string hquote hv .nil)
  | backtick_end =>
    cases h with
    | literal hu hcode hv => simpa using hu.append_code hcode (.literal hv .nil)

theorem read (h : Open part stack u) (hread : read? part stack t = some stack') :
    Open part stack' (u ++ t) := by
  induction t generalizing stack u with
  | nil =>
    cases hread
    simpa using h
  | cons c t ih =>
    obtain ⟨next, hstep, hrest⟩ := Option.bind_eq_some_iff.mp hread
    simpa using ih (h.step (step_of_step? hstep)) hrest

end Open

/-- What is read back to where it started is well-formed. -/
theorem wellFormed_of_read? {part : Part} (h : read? part [] t = some []) : WellFormed part t := by
  have hopen : Open part [] ([] ++ t) := (Open.base .nil).read h
  cases hopen with
  | base ht => exact ht

end Nesting
end BladeView
