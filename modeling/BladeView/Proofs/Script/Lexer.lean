import BladeView.Proofs.Reference.Mention
import BladeView.Proofs.Script.Interpolation
import BladeView.Proofs.Text.Word
import BladeView.Script.Quoted

/-!
# Variables of a template

Where a name stands in a template as a variable. `Lexer` follows text, interpolations, code and
strings with a stack of open delimiters, as `Nesting.read?` does, but it reads every text: quotes
and braces in text are text, and a backslash hides the character after it in text and in strings.
-/
namespace BladeView

open Nesting (codeStep? Context read? step? textStep?)
open Quoted (single singleChar)

variable {c : Char} {stack stack' : List Context}

/-- What a position is inside of, the innermost first, and whether a backslash precedes it. -/
structure Lexer where
  stack : List Context := []
  escaped : Bool := false
  deriving DecidableEq

namespace Lexer

/-- After a character of text. -/
def text (stack : List Context) (c : Char) : Lexer :=
  if c == '$' then ⟨.dollar :: stack, false⟩ else ⟨stack, c == '\\'⟩

/-- After a character of code that closes nothing. -/
def code (stack : List Context) (c : Char) : Lexer :=
  if c == '\x27' || c == '\x22' then ⟨.string c :: stack, false⟩
  else if c == '\x60' then ⟨.literal :: stack, false⟩
  else if (Group.closer? c).isSome then ⟨.group c :: stack, false⟩
  else ⟨stack, false⟩

/-- After a character that no backslash hides. -/
def step : List Context → Char → Lexer
  | [], c => text [] c
  | .literal :: outer, c => if c == '\x60' then ⟨outer, false⟩ else text (.literal :: outer) c
  | .dollar :: outer, c => if c == '\x7b' then ⟨.interpolation :: outer, false⟩ else step outer c
  | .interpolation :: outer, c =>
    if c == '\x7d' then ⟨outer, false⟩ else code (.interpolation :: outer) c
  | .group opening :: outer, c =>
    if Group.closer? opening == some c then ⟨outer, false⟩ else code (.group opening :: outer) c
  | .string quote :: outer, c =>
    if c == quote then ⟨outer, false⟩ else ⟨.string quote :: outer, c == '\\'⟩

def next (l : Lexer) (c : Char) : Lexer := if l.escaped then ⟨l.stack, false⟩ else step l.stack c

/-- After a text. -/
def read (l : Lexer) (t : Text) : Lexer := t.foldl next l

/-- The position is in code. -/
def inCode (l : Lexer) : Bool := l.stack.head?.any Context.isCode

@[simp] theorem read_nil (l : Lexer) : l.read [] = l := rfl

@[simp] theorem read_cons (l : Lexer) (c : Char) (t : Text) :
    l.read (c :: t) = (l.next c).read t := rfl

theorem read_append (l : Lexer) (t u : Text) : l.read (t ++ u) = (l.read t).read u :=
  List.foldl_append

/-! ## Agreement with the strict reader -/

theorem text_of_textStep? (h : textStep? stack c = some stack') :
    text stack c = ⟨stack', false⟩ := by
  unfold textStep? at h
  unfold text
  split_ifs at h ⊢ with hdollar hquiet
  · cases h
    rfl
  · cases h
    have hslash : c ≠ '\\' := by
      rintro rfl
      cases hquiet
    rw [beq_false_of_ne hslash]

theorem code_of_codeStep? (h : codeStep? stack c = some stack') :
    code stack c = ⟨stack', false⟩ := by
  unfold codeStep? at h
  unfold code
  split_ifs at h ⊢ <;> cases h <;> rfl

/-- Where the strict reader goes on, the lexer goes the same way. -/
theorem step_of_step? (h : step? .template stack c = some stack') :
    step stack c = ⟨stack', false⟩ := by
  cases stack with
  | nil => exact text_of_textStep? h
  | cons x outer =>
    cases x <;> simp only [step?] at h <;> unfold step <;> split at h
    case literal.isFalse hc => simpa [hc] using text_of_textStep? h
    case dollar.isFalse => cases h
    case interpolation.isFalse hc => simpa [hc] using code_of_codeStep? h
    case group.isFalse hc => simpa [hc] using code_of_codeStep? h
    case string.isFalse hc =>
      obtain ⟨hother, h⟩ := Option.ite_none_left_eq_some.1 h
      cases h
      simp_all
    all_goals
      cases h
      simp_all

theorem read_of_read? {t : Text} (h : read? .template stack t = some stack') :
    read ⟨stack, false⟩ t = ⟨stack', false⟩ := by
  induction t generalizing stack with
  | nil =>
    cases h
    rfl
  | cons c t ih =>
    obtain ⟨next, hstep, hrest⟩ := Option.bind_eq_some_iff.mp h
    have hnext : Lexer.next ⟨stack, false⟩ c = ⟨next, false⟩ := step_of_step? hstep
    rw [read_cons, hnext, ih hrest]

/-- The lexer reads over an interpolation with accepted code. -/
theorem read_interpolation {outer : List Context} {code : Text}
    (h : read? .code [] code = some []) (t : Text) :
    read ⟨.interpolation :: outer, false⟩ (code ++ '\x7d' :: t) = read ⟨outer, false⟩ t := by
  have hcode : read ⟨.interpolation :: outer, false⟩ code = ⟨.interpolation :: outer, false⟩ :=
    read_of_read? (Nesting.read?_append_piece (.of_isCode rfl) h)
  rw [read_append, hcode]
  rfl

/-! ## Strings -/

/-- A string goes on up to its quotation mark. -/
theorem read_string {quote : Char} {outer : List Context} {t : Text}
    (h : ∀ c ∈ t, c ≠ quote ∧ c ≠ '\\') :
    read ⟨.string quote :: outer, false⟩ t = ⟨.string quote :: outer, false⟩ := by
  induction t with
  | nil => rfl
  | cons c t ih =>
    obtain ⟨hquote, hslash⟩ := h c (by simp)
    have hnext : next ⟨.string quote :: outer, false⟩ c = ⟨.string quote :: outer, false⟩ := by
      simp [next, step, hquote, beq_false_of_ne hslash]
    rw [read_cons, hnext, ih fun d hd => h d (by simp [hd])]

/-- A character of a quoted text is itself or has a backslash before it. -/
theorem singleChar_cases (c : Char) :
    singleChar c = [] ∨ (singleChar c = [c] ∧ c ≠ '\x27' ∧ c ≠ '\\') ∨
      ∃ d, singleChar c = ['\\', d] := by
  unfold singleChar
  split_ifs
  · exact .inr (.inr ⟨_, rfl⟩)
  · exact .inr (.inr ⟨_, rfl⟩)
  · exact .inr (.inr ⟨_, rfl⟩)
  · exact .inl rfl
  · exact .inr (.inl (by simp_all))

/-- Every position within a quoted text is in the string, and so is its end. -/
theorem read_quoted {outer : List Context} {t p q : Text}
    (h : p ++ q = t.flatMap singleChar) :
    (read ⟨.string '\x27' :: outer, false⟩ p).stack = .string '\x27' :: outer ∧
      (q = [] → (read ⟨.string '\x27' :: outer, false⟩ p).escaped = false) := by
  induction t generalizing p with
  | nil =>
    obtain ⟨rfl, -⟩ := List.append_eq_nil_iff.mp h
    exact ⟨rfl, fun _ => rfl⟩
  | cons c t ih =>
    rw [List.flatMap_cons] at h
    rcases singleChar_cases c with hc | ⟨hc, hquote, hslash⟩ | ⟨d, hc⟩ <;> rw [hc] at h
    · exact ih h
    · rcases p with _ | ⟨a, p⟩
      · exact ⟨rfl, fun _ => rfl⟩
      · obtain ⟨rfl, hrest⟩ := List.cons.inj h
        have hnext : next ⟨.string '\x27' :: outer, false⟩ a = ⟨.string '\x27' :: outer, false⟩ :=
          @read_string _ outer [a] (by simp [hquote, hslash])
        rw [read_cons, hnext]
        exact ih hrest
    · rcases p with _ | ⟨a, _ | ⟨b, p⟩⟩
      · exact ⟨rfl, fun _ => rfl⟩
      · obtain ⟨rfl, h⟩ := List.cons.inj h
        exact ⟨rfl, fun hq => by simp [hq] at h⟩
      · simp only [List.cons_append, List.cons.injEq, List.nil_append] at h
        obtain ⟨rfl, rfl, hrest⟩ := h
        have hescape : read ⟨.string '\x27' :: outer, false⟩ ('\\' :: b :: p)
            = read ⟨.string '\x27' :: outer, false⟩ p := rfl
        rw [hescape]
        exact ih hrest

/-- A quoted text is a complete argument. -/
theorem read_single (outer : List Context) (t u : Text) :
    read ⟨.group '(' :: outer, false⟩ (single t ++ u)
      = read ⟨.group '(' :: outer, false⟩ u := by
  let inside : List Context := .string '\x27' :: .group '(' :: outer
  obtain ⟨hstack, hescaped⟩ :=
    @read_quoted (.group '(' :: outer) t _ [] (List.append_nil _)
  have hread : read ⟨inside, false⟩ (t.flatMap singleChar) = ⟨inside, false⟩ :=
    congr (congrArg Lexer.mk hstack) (hescaped rfl)
  have hsplit : single t ++ u = '\x27' :: (t.flatMap singleChar ++ '\x27' :: u) := by
    simp [single]
  rw [hsplit]
  calc read ⟨.group '(' :: outer, false⟩ ('\x27' :: (t.flatMap singleChar ++ '\x27' :: u))
      = read ⟨inside, false⟩ (t.flatMap singleChar ++ '\x27' :: u) := rfl
    _ = read ⟨inside, false⟩ ('\x27' :: u) := by rw [read_append, hread]
    _ = read ⟨.group '(' :: outer, false⟩ u := rfl

/-! ## Text between interpolations -/

/-- The position is in the text of a literal. A dollar sign may precede it. -/
inductive InText (outer : List Context) : Lexer → Prop
  | literal : InText outer ⟨.literal :: outer, false⟩
  | dollar : InText outer ⟨.dollar :: .literal :: outer, false⟩

namespace InText

variable {outer : List Context} {l : Lexer}

theorem inCode_eq_false (h : InText outer l) : l.inCode = false := by
  cases h <;> rfl

/-- A character of text. A brace after a dollar sign would open an interpolation, so the text may
not go on with one. -/
theorem next (h : InText outer l) {t : Text} (hc : c ≠ '\x60') (hc' : c ≠ '\\')
    (hdollar : ¬(c = '$' ∧ t.head? = some '\x7b'))
    (hbrace : l.stack.head? = some .dollar → c ≠ '\x7b') :
    InText outer (l.next c) ∧
      ((l.next c).stack.head? = some .dollar → t.head? ≠ some '\x7b') := by
  have htext : l.next c = step (.literal :: outer) c := by
    cases h with
    | literal => rfl
    | dollar => simp [Lexer.next, step, hbrace rfl]
  simp only [htext, step, text, hc, beq_iff_eq, if_false]
  split
  case isTrue heq => exact ⟨.dollar, fun _ hhead => hdollar ⟨heq, hhead⟩⟩
  case isFalse =>
    rw [beq_false_of_ne hc']
    exact ⟨.literal, nofun⟩

theorem interpolation (h : InText outer l) (t : Text) :
    l.read ('$' :: '\x7b' :: t) = read ⟨.interpolation :: .literal :: outer, false⟩ t := by
  cases h <;> rfl

end InText
end Lexer

namespace Template

/-- A name stands between two texts of a template as a variable: in code, as a whole, and not after
a single dot. -/
structure IsVariable (before name after : Text) : Prop where
  identifier : Name.isIdentifier name = true
  inCode : (Lexer.read {} before).inCode = true
  isWhole : Reference.IsWhole before after
  notProperty : before.getLast? = some '.' → ['.', '.'] <:+ before

namespace IsVariable

variable {before name after : Text}

theorem ne_nil (h : IsVariable before name after) : name ≠ [] := by
  rintro rfl
  cases h.identifier

theorem isNameChar (h : IsVariable before name after) : ∀ c ∈ name, isNameChar c = true :=
  (Name.isIdentifier_spec h.identifier).2

end IsVariable

/-- A template whose interpolations hold code that the strict reader accepts. Between them any text
may stand, quotes and braces included. -/
inductive IsTidy : Text → Prop
  | nil : IsTidy []
  | text {c : Char} {t : Text} : c ≠ '\x60' → c ≠ '\\' → ¬(c = '$' ∧ t.head? = some '\x7b') →
      IsTidy t → IsTidy (c :: t)
  | interpolation {code t : Text} : Nesting.read? .code [] code = some [] → IsTidy t →
      IsTidy ('$' :: '\x7b' :: (code ++ '\x7d' :: t))

namespace IsTidy

variable {outer : List Context} {l : Lexer} {t : Text}

/-- A tidy template ends in the text that it started in. -/
theorem read (ht : IsTidy t) (hl : Lexer.InText outer l)
    (hbrace : l.stack.head? = some .dollar → t.head? ≠ some '\x7b') :
    Lexer.InText outer (l.read t) := by
  induction ht generalizing l with
  | nil => exact hl
  | @text c t hc hc' hdollar _ ih =>
    obtain ⟨hnext, hbrace'⟩ :=
      hl.next hc hc' hdollar fun hstack heq => hbrace hstack (congrArg some heq)
    exact ih hnext hbrace'
  | @interpolation code t hcode _ ih =>
    rw [hl.interpolation, Lexer.read_interpolation hcode]
    exact ih .literal nofun

/-- **The reader of groups sees all the code of a tidy template**: what stands there lies between
the braces that it reads. -/
theorem covered (ht : IsTidy t) (hl : Lexer.InText outer l)
    (hbrace : l.stack.head? = some .dollar → t.head? ≠ some '\x7b') {before name after : Text}
    (heq : before ++ name ++ after = t) (hname : '\x7d' ∉ name) (hne : name ≠ [])
    (hcode : (l.read before).inCode = true) : Reference.Covered before name after := by
  induction ht generalizing l before with
  | nil => exact absurd (List.append_eq_nil_iff.mp (List.append_eq_nil_iff.mp heq).1).2 hne
  | @text c t hc hc' hdollar _ ih =>
    cases before with
    | nil => exact absurd hcode (by simp [hl.inCode_eq_false])
    | cons d before =>
      obtain ⟨rfl, rfl⟩ := List.cons.inj heq
      obtain ⟨hnext, hbrace'⟩ :=
        hl.next hc hc' hdollar fun hstack heq => hbrace hstack (congrArg some heq)
      exact (ih hnext hbrace' rfl hcode).append_left [d]
  | @interpolation code t hread _ ih =>
    have hdollar : l.next '$' = ⟨.dollar :: .literal :: outer, false⟩ := by
      cases hl <;> rfl
    rcases before with _ | ⟨d, _ | ⟨e, before⟩⟩
    · exact absurd hcode (by simp [hl.inCode_eq_false])
    · obtain ⟨rfl, -⟩ := List.cons.inj heq
      exact absurd hcode (by simp [hdollar, Lexer.inCode, Context.isCode])
    · simp only [List.cons_append, List.cons.injEq] at heq
      obtain ⟨rfl, rfl, heq⟩ := heq
      rcases Reference.before_or_after hname hne heq with ⟨more, rfl, rfl⟩ | ⟨more, rfl, rfl⟩
      · exact ⟨[], before, more, t, rfl, rfl, Nesting.group_read?_interpolation hread t⟩
      · rw [hl.interpolation, Lexer.read_interpolation hread] at hcode
        have hcovered := ih .literal nofun rfl hcode
        simpa using hcovered.append_left ('$' :: '\x7b' :: (code ++ ['\x7d']))

end IsTidy
end Template
end BladeView
