import BladeView.Proofs.Build.Entry
import BladeView.Script.Print
import Mathlib.Data.List.DropRight

/-!
# Literals

The expressions made of strings in double quotes, truth values, `null`, arrays and objects are
literals: their text alone says what they are. A reader for such literals, which knows neither
levels nor lines, gives back every literal from either of its two printed forms.

## Main statements

* `Script.Literal.readsPrinted`, `Script.Literal.read?_printed`: a literal is read from both of its
  printed forms.
-/
namespace BladeView.Script

open Text (after? join)
open Json (skip_cons)
open Option (bind_eq_bind bind_some map_some pure_def)

mutual

/-- Whether an expression is a literal whose keys are not empty. -/
def Expr.isLiteral : Expr → Bool
  | .json _ => true
  | .bool _ => true
  | .null => true
  | .array items => areLiterals items
  | .object entries => areEntries entries
  | _ => false

def areLiterals : List Expr → Bool
  | [] => true
  | item :: items => item.isLiteral && areLiterals items

def areEntries : List (Text × Expr) → Bool
  | [] => true
  | (key, value) :: entries => !key.isEmpty && value.isLiteral && areEntries entries

end

namespace Literal

/-! ## The reader -/

/-- Reads a string after its opening quote. -/
def quoted? (t : Text) : Option (Text × Text) := do
  let (value, rest) ← Json.string? t
  return (← value, rest)

/-- Reads a key: a string, or a name that does not start with a digit. -/
def key? : Text → Option (Text × Text)
  | '\x22' :: rest => quoted? rest
  | t =>
    let name := t.takeWhile isNameChar
    if name.isEmpty || name.head?.any Char.isDigit then none
    else some (name, t.dropWhile isNameChar)

/-- Reads a word that stands for a value. -/
def word? (t : Text) : Option (Expr × Text) :=
  let words : List (Text × Expr) := [("true", .bool true), ("false", .bool false), ("null", .null)]
  (words.find? fun word => word.1 == t.takeWhile isNameChar).map fun word =>
    (word.2, t.dropWhile isNameChar)

section List

variable {α : Type} (one : Text → Option (α × Text)) (closing : Char)

/-- Reads parts with commas between them, at least one, and what closes them. -/
def sequence? : Nat → Text → Option (List α × Text)
  | 0, _ => none
  | n + 1, t => do
    let (first, rest) ← one t
    match after? [','] (Json.skip rest) with
    | some rest =>
      let (others, rest) ← sequence? n rest
      return (first :: others, rest)
    | none => return ([first], ← after? [closing] (Json.skip rest))

/-- Reads any number of parts with commas between them, and what closes them. -/
def list? (n : Nat) (t : Text) : Option (List α × Text) :=
  match after? [closing] (Json.skip t) with
  | some rest => some ([], rest)
  | none => sequence? one closing n t

end List

/-- Reads a key, a colon and a value. -/
def field? (value : Text → Option (Expr × Text)) (t : Text) : Option ((Text × Expr) × Text) := do
  let (key, rest) ← key? (Json.skip t)
  let (value, rest) ← value (← after? [':'] (Json.skip rest))
  return ((key, value), rest)

/-- Reads a value, with at most `n` parts and levels. -/
def value? : Nat → Text → Option (Expr × Text)
  | 0, _ => none
  | n + 1, t =>
    match Json.skip t with
    | '\x22' :: rest => (quoted? rest).map fun found => (.json found.1, found.2)
    | '[' :: rest => (list? (value? n) ']' n rest).map fun found => (.array found.1, found.2)
    | '\x7b' :: rest =>
      (list? (field? (value? n)) '\x7d' n rest).map fun found => (.object found.1, found.2)
    | t => word? t

/-- The expression that a text is a literal of. Each part and each level takes a character. -/
def read? (t : Text) : Option Expr := do
  let (value, rest) ← value? t.length t
  if (Json.skip rest).isEmpty then some value else none

/-! ## Gaps -/

/-- Blanks that may stand between the parts of a literal. -/
def IsGap (t : Text) : Prop := Json.skip t = []

theorem IsGap.skip_append {gap : Text} (h : IsGap gap) (t : Text) :
    Json.skip (gap ++ t) = Json.skip t := by
  unfold IsGap at h
  unfold Json.skip at h ⊢
  rw [List.dropWhile_append, h]
  rfl

theorem IsGap.append {gap gap' : Text} (h : IsGap gap) (h' : IsGap gap') : IsGap (gap ++ gap') :=
  (h.skip_append gap').trans h'

theorem isGap_indent (level : Nat) : IsGap (indent level) := by
  unfold IsGap Json.skip indent
  rw [List.dropWhile_replicate]
  rfl

theorem skip_skip (t : Text) : Json.skip (Json.skip t) = Json.skip t := by
  unfold Json.skip
  rw [List.dropWhile_idempotent]

/-- What may come after a value: no character that could go on a word. -/
def CanFollow (rest : Text) : Prop := rest.head?.any isNameChar = false

theorem IsGap.canFollow {gap rest : Text} (h : IsGap gap) (hrest : CanFollow rest) :
    CanFollow (gap ++ rest) := by
  cases gap with
  | nil => exact hrest
  | cons c gap =>
    have hc := List.dropWhile_eq_nil_iff.1 h c List.mem_cons_self
    simp only [Bool.or_eq_true, beq_iff_eq] at hc
    rcases hc with ((rfl | rfl) | rfl) | rfl <;> rfl

theorem takeWhile_word {word rest : Text} (hword : ∀ c ∈ word, isNameChar c = true)
    (hrest : CanFollow rest) :
    (word ++ rest).takeWhile isNameChar = word ∧ (word ++ rest).dropWhile isNameChar = rest := by
  rw [List.takeWhile_append_of_pos hword, List.dropWhile_append_of_pos hword]
  have hstop : rest.takeWhile isNameChar = [] := by
    cases rest with
    | nil => rfl
    | cons c rest => exact List.takeWhile_cons_of_neg (by simpa [CanFollow] using hrest)
  exact ⟨by rw [hstop, List.append_nil], Text.dropWhile_eq_self_of_head? hrest⟩

/-! ## Parts between brackets -/

/-- Reads a part after any gap, and nothing where the parts are closed. -/
structure IsPartReader {α : Type} (one : Text → Option (α × Text)) (closing : Char) : Prop where
  skip : ∀ t, one (Json.skip t) = one t
  closed : ∀ t, one (closing :: t) = none
  closing : closing = ']' ∨ closing = '\x7d'

section Parts

variable {α : Type} {one : Text → Option (α × Text)} {closing : Char}
  (hone : IsPartReader one closing)

include hone

theorem IsPartReader.gap {gap : Text} (hgap : IsGap gap) (t : Text) : one (gap ++ t) = one t := by
  rw [← hone.skip (gap ++ t), hgap.skip_append, hone.skip]

theorem IsPartReader.skip_closing (rest : Text) :
    Json.skip (closing :: rest) = closing :: rest := by
  rcases hone.closing with rfl | rfl <;> exact skip_cons (by decide) rest

theorem sequence?_gap {gap : Text} (hgap : IsGap gap) (n : Nat) (t : Text) :
    sequence? one closing n (gap ++ t) = sequence? one closing n t := by
  cases n with
  | zero => rfl
  | succ n => rw [sequence?, sequence?, hone.gap hgap]

variable {text : α → Text} {gap trail : Text} (hgap : IsGap gap) (htrail : IsGap trail)

include hgap htrail

/-- One part after the other is read, up to what closes them. -/
theorem sequence?_join (items : List α) (hne : items ≠ [])
    (hread : ∀ a ∈ items, ∀ rest, CanFollow rest → one (text a ++ rest) = some (a, rest)) (n : Nat)
    (hn : items.length ≤ n) (rest : Text) :
    sequence? one closing n
      (join (',' :: gap) (items.map text) ++ (trail ++ closing :: rest)) =
        some (items, rest) := by
  induction items generalizing n with
  | nil => exact absurd rfl hne
  | cons a items ih =>
    obtain ⟨n, rfl⟩ : ∃ m, n = m + 1 := ⟨n - 1, by simp at hn; omega⟩
    obtain ⟨ha, hitems⟩ := List.forall_mem_cons.1 hread
    cases items with
    | nil =>
      have hfollow : CanFollow (trail ++ closing :: rest) := htrail.canFollow (by
        rcases hone.closing with rfl | rfl <;> rfl)
      have hcomma : after? [','] (closing :: rest) = none := by
        rcases hone.closing with rfl | rfl <;> rfl
      have hclosing : after? [closing] (closing :: rest) = some rest :=
        Text.after?_eq_some.2 rfl
      rw [List.map_singleton, Text.join_singleton, sequence?, ha _ hfollow]
      simp only [bind_eq_bind, bind_some, htrail.skip_append, hone.skip_closing,
        hcomma, hclosing, pure_def]
    | cons b items =>
      have hrest := ih (by simp) hitems n (by simpa using hn)
      have hjoin : join (',' :: gap) ((a :: b :: items).map text) ++
          (trail ++ closing :: rest) = text a ++ ',' :: (gap ++
            (join (',' :: gap) ((b :: items).map text) ++ (trail ++ closing :: rest))) := by
        simp only [List.map_cons, Text.join_cons_cons, List.append_assoc, List.cons_append]
      have hcomma (t : Text) : after? [','] (Json.skip (',' :: t)) = some t := by
        rw [skip_cons (by decide)]
        exact Text.after?_eq_some.2 rfl
      have hfollow (t : Text) : CanFollow (',' :: t) := rfl
      rw [hjoin, sequence?, ha _ (hfollow _)]
      simp only [bind_eq_bind, bind_some, hcomma, sequence?_gap hone hgap, hrest, pure_def]

/-- All parts between the brackets are read, also where there are none. -/
theorem list?_join {lead : Text} (hlead : IsGap lead) (items : List α)
    (hread : ∀ a ∈ items, ∀ rest, CanFollow rest → one (text a ++ rest) = some (a, rest)) (n : Nat)
    (hn : items.length ≤ n) (rest : Text) :
    list? one closing n
      (lead ++ (join (',' :: gap) (items.map text) ++ (trail ++ closing :: rest))) =
        some (items, rest) := by
  cases items with
  | nil =>
    have hskip : Json.skip (lead ++ (trail ++ closing :: rest)) = closing :: rest := by
      rw [hlead.skip_append, htrail.skip_append, hone.skip_closing]
    have hclosing : after? [closing] (closing :: rest) = some rest :=
      Text.after?_eq_some.2 rfl
    have hjoin : join (',' :: gap) (([] : List α).map text) = [] := rfl
    rw [list?, hjoin, List.nil_append, hskip, hclosing]
  | cons a items =>
    have hsequence := sequence?_join hone hgap htrail (a :: items) (by simp) hread n hn rest
    -- a part is read here, so this is not where the parts are closed
    have hopen : after? [closing] (Json.skip (lead ++ (join (',' :: gap)
        ((a :: items).map text) ++ (trail ++ closing :: rest)))) = none := by
      rw [Option.eq_none_iff_forall_ne_some]
      intro more hmore
      have hnone := hone.closed more
      rw [← List.singleton_append, ← Text.after?_eq_some.1 hmore, hone.skip,
        hone.gap hlead] at hnone
      obtain ⟨n, rfl⟩ : ∃ m, n = m + 1 := ⟨n - 1, by simp at hn; omega⟩
      rw [sequence?, hnone] at hsequence
      cases hsequence
    rw [list?, hopen, sequence?_gap hone hlead, hsequence]

end Parts

/-! ## Values -/

theorem value?_skip (n : Nat) (t : Text) : value? n (Json.skip t) = value? n t := by
  cases n with
  | zero => rfl
  | succ n => rw [value?, value?, skip_skip]

theorem isPartReader_value? (n : Nat) : IsPartReader (value? n) ']' where
  skip := value?_skip n
  closed t := by
    cases n with
    | zero => rfl
    | succ n =>
      rw [value?, skip_cons (by decide)]
      rfl
  closing := .inl rfl

theorem isPartReader_field? (value : Text → Option (Expr × Text)) :
    IsPartReader (field? value) '\x7d' where
  skip t := by rw [field?, field?, skip_skip]
  closed t := by
    rw [field?, skip_cons (by decide)]
    rfl
  closing := .inr rfl

/-- A text is read as an expression, whatever may come after it. Each part and each level takes a
character, so the length of the text is enough. -/
def Reads (t : Text) (e : Expr) : Prop :=
  ∀ n rest, t.length ≤ n → CanFollow rest → value? n (t ++ rest) = some (e, rest)

theorem quoted?_double (t rest : Text) :
    quoted? (t.flatMap Quoted.doubleChar ++ '\x22' :: rest) = some (t, rest) := by
  rw [quoted?, Json.string?_double]
  rfl

theorem double_append (t rest : Text) :
    Quoted.double t ++ rest = '\x22' :: (t.flatMap Quoted.doubleChar ++ '\x22' :: rest) := by
  simp [Quoted.double]

theorem reads_double (t : Text) : Reads (Quoted.double t) (.json t) := by
  intro n rest hn _
  obtain ⟨n, rfl⟩ := Nat.exists_eq_add_of_le' (Nat.le_trans (by simp [Quoted.double]) hn : 1 ≤ n)
  rw [double_append, value?, skip_cons (by decide)]
  simp only [quoted?_double, map_some]

/-- A word is read up to its end. -/
theorem word?_append (word : Text) {rest : Text} {e : Expr} (hword : word.all isNameChar = true)
    (he : word? word = some (e, [])) (hrest : CanFollow rest) :
    word? (word ++ rest) = some (e, rest) := by
  have hchars := List.all_eq_true.1 hword
  obtain ⟨htake, hdrop⟩ := takeWhile_word hchars hrest
  obtain ⟨htake', hdrop'⟩ := takeWhile_word hchars (rfl : CanFollow [])
  rw [List.append_nil] at htake' hdrop'
  simp only [word?, htake', Option.map_eq_some_iff] at he
  obtain ⟨found, hfound, he⟩ := he
  simp only [word?, htake, hdrop, hfound, map_some, ← (Prod.mk.inj he).1]

theorem reads_bool (b : Bool) : Reads (if b then "true" else "false") (.bool b) := by
  intro n rest hn hrest
  obtain ⟨n, rfl⟩ := Nat.exists_eq_add_of_le' (Nat.le_trans (by cases b <;> decide) hn : 1 ≤ n)
  cases b with
  | true => exact word?_append "true" (by decide) rfl hrest
  | false => exact word?_append "false" (by decide) rfl hrest

theorem reads_null : Reads "null" .null := by
  intro n rest hn hrest
  obtain ⟨n, rfl⟩ := Nat.exists_eq_add_of_le' (Nat.le_trans (by decide) hn : 1 ≤ n)
  exact word?_append "null" (by decide) rfl hrest

/-! ## Arrays and objects -/

theorem length_le_length_join_succ {separator : Text} (h : separator ≠ []) (pieces : List Text) :
    pieces.length ≤ (join separator pieces).length + 1 := by
  induction pieces with
  | nil => simp
  | cons first others ih =>
    cases others with
    | nil => simp
    | cons second others =>
      have hpos := List.length_pos_iff.2 h
      rw [Text.join_cons_cons, List.length_append, List.length_append]
      simp only [List.length_cons] at ih ⊢
      omega

section Brackets

variable {α : Type} {one : Nat → Text → Option (α × Text)} {closing : Char} {text : α → Text}
  {lead gap trail : Text} {items : List α}

/-- A text in brackets is read by its parts. -/
theorem list?_bracket (hone : ∀ n, IsPartReader (one n) closing) (hlead : IsGap lead)
    (hgap : IsGap gap) (htrail : IsGap trail)
    (hread : ∀ a ∈ items, ∀ n rest, (text a).length ≤ n → CanFollow rest →
      one n (text a ++ rest) = some (a, rest))
    {n : Nat} (hn : (join (',' :: gap) (items.map text)).length < n) (rest : Text) :
    list? (one n) closing n
      (lead ++ (join (',' :: gap) (items.map text) ++ (trail ++ closing :: rest))) =
        some (items, rest) := by
  have hcount := length_le_length_join_succ (List.cons_ne_nil ',' gap) (items.map text)
  rw [List.length_map] at hcount
  refine list?_join (hone n) hgap htrail hlead items (fun a ha rest hrest => ?_) n (by omega) rest
  have hle := Text.length_le_length_join (',' :: gap) (List.mem_map_of_mem (f := text) ha)
  exact hread a ha n rest (by omega) hrest

end Brackets

theorem reads_array {text : Expr → Text} {items : List Expr}
    (h : ∀ item ∈ items, Reads (text item) item) :
    Reads ("[" ++ join ", " (items.map text) ++ "]") (.array items) := by
  intro n rest hn _
  have htext : "[".toList ++ join ", " (items.map text) ++ "]".toList ++ rest =
      '[' :: ([] ++ (join (',' :: [' ']) (items.map text) ++ ([] ++ ']' :: rest))) := by
    simp
  have hlength : (join (',' :: [' ']) (items.map text)).length + 2 ≤ n := by
    refine Nat.le_trans (Nat.le_of_eq ?_) hn
    simp
  obtain ⟨n, rfl⟩ : ∃ m, n = m + 1 := ⟨n - 1, by omega⟩
  have hnil : IsGap [] := rfl
  have hspace : IsGap [' '] := rfl
  have hlist : list? (value? n) ']' n
      ([] ++ (join (',' :: [' ']) (items.map text) ++ ([] ++ ']' :: rest))) =
        some (items, rest) :=
    list?_bracket isPartReader_value? hnil hspace hnil h (by omega) rest
  rw [htext, value?, skip_cons (by decide)]
  simp only [hlist, map_some]

/-- A text is read as an entry, whatever may come after it. -/
def ReadsEntry (t : Text) (a : Text × Expr) : Prop :=
  ∀ n rest, t.length ≤ n → CanFollow rest → field? (value? n) (t ++ rest) = some (a, rest)

/-- A key is read, bare or in quotes. -/
theorem key?_objectKey {key : Text} (hkey : key ≠ []) {rest : Text} (hrest : CanFollow rest) :
    key? (Json.skip (objectKey key ++ rest)) = some (key, rest) := by
  have hquoted : key? (Json.skip (Quoted.double key ++ rest)) = some (key, rest) := by
    rw [double_append, skip_cons (by decide)]
    exact quoted?_double key rest
  obtain ⟨c, cs, rfl⟩ := List.exists_cons_of_ne_nil hkey
  unfold objectKey
  dsimp only
  split
  case isFalse => exact hquoted
  case isTrue hbare =>
    rw [Bool.and_eq_true, Bool.not_eq_true'] at hbare
    obtain ⟨hdigit, hname⟩ := hbare
    obtain ⟨htake, hdrop⟩ := takeWhile_word (List.all_eq_true.1 hname) hrest
    have hc := List.all_eq_true.1 hname c List.mem_cons_self
    have hother {d : Char} (hd : isNameChar d = false) : c ≠ d := by
      rintro rfl
      rw [hc] at hd
      cases hd
    rw [List.cons_append, skip_cons ⟨hother rfl, hother rfl, hother rfl, hother rfl⟩, key?,
      ← List.cons_append, htake, hdrop]
    · simp [hdigit]
    · exact fun _ hquote => hother rfl (List.cons.inj hquote).1

theorem readsEntry {gap key t : Text} {e : Expr} (hgap : IsGap gap) (hkey : key ≠ [])
    (h : Reads t e) : ReadsEntry (gap ++ entry key t) (key, e) := by
  intro n rest hn hrest
  have hentry : gap ++ entry key t ++ rest =
      gap ++ (objectKey key ++ ':' :: ([' '] ++ (t ++ rest))) := by
    simp [entry, hkey]
  have hlength : t.length ≤ n := by
    simp [entry, hkey] at hn
    omega
  have hcolon (u : Text) : after? [':'] (Json.skip (':' :: u)) = some u := by
    rw [skip_cons (by decide)]
    exact Text.after?_eq_some.2 rfl
  have hfollow (u : Text) : CanFollow (':' :: u) := rfl
  rw [hentry, field?, hgap.skip_append, key?_objectKey hkey (hfollow _)]
  simp only [bind_eq_bind, bind_some, hcolon,
    (isPartReader_value? n).gap (rfl : IsGap [' ']), h n rest hlength hrest, pure_def]

theorem reads_object {text : Text × Expr → Text} {entries : List (Text × Expr)}
    {lead gap trail : Text} (hlead : IsGap lead) (hgap : IsGap gap) (htrail : IsGap trail)
    (h : ∀ a ∈ entries, ReadsEntry (text a) a) :
    Reads ('\x7b' :: (lead ++ (join (',' :: gap) (entries.map text) ++ (trail ++ ['\x7d']))))
      (.object entries) := by
  intro n rest hn _
  have hlength : (join (',' :: gap) (entries.map text)).length + 2 ≤ n := by
    simp at hn
    omega
  obtain ⟨n, rfl⟩ : ∃ m, n = m + 1 := ⟨n - 1, by omega⟩
  have hlist : list? (field? (value? n)) '\x7d' n
      (lead ++ (join (',' :: gap) (entries.map text) ++ (trail ++ '\x7d' :: rest))) =
        some (entries, rest) :=
    list?_bracket (fun n => isPartReader_field? (value? n)) hlead hgap htrail h (by omega) rest
  rw [List.cons_append, value?, skip_cons (by decide)]
  simp only [List.append_assoc, List.cons_append, List.nil_append, hlist, map_some]

/-! ## Printed literals -/

theorem printItems_eq_map (level : Nat) (items : List Expr) :
    printItems level items = items.map (·.print level) := by
  induction items with
  | nil => rw [printItems]; rfl
  | cons item items ih => rw [printItems, ih, List.map_cons]

theorem printEntries_eq_map (level : Nat) (entries : List (Text × Expr)) :
    printEntries level entries =
      entries.map fun a => indent level ++ entry a.1 (a.2.print level) := by
  induction entries with
  | nil => rw [printEntries]; rfl
  | cons a entries ih => rw [printEntries, ih, List.map_cons]

theorem inlineItems_eq_map (items : List Expr) : inlineItems items = items.map Expr.inline := by
  induction items with
  | nil => rw [inlineItems]; rfl
  | cons item items ih => rw [inlineItems, ih, List.map_cons]

theorem inlineEntries_eq_map (entries : List (Text × Expr)) :
    inlineEntries entries = entries.map fun a => entry a.1 a.2.inline := by
  induction entries with
  | nil => rw [inlineEntries]; rfl
  | cons a entries ih => rw [inlineEntries, ih, List.map_cons]

/-- Both printed forms of an expression are read as the expression. -/
def ReadsPrinted (e : Expr) : Prop := (∀ level, Reads (e.print level) e) ∧ Reads e.inline e

theorem print_array (level : Nat) (items : List Expr) :
    (Expr.array items).print level =
      "[" ++ join ", " (items.map (·.print level)) ++ "]" := by
  rw [← printItems_eq_map]
  unfold Expr.print
  rfl

theorem inline_array (items : List Expr) :
    (Expr.array items).inline = "[" ++ join ", " (items.map Expr.inline) ++ "]" := by
  rw [← inlineItems_eq_map]
  unfold Expr.inline
  rfl

theorem print_object (level : Nat) (a : Text × Expr) (entries : List (Text × Expr)) :
    (Expr.object (a :: entries)).print level = '\x7b' :: (['\n'] ++
      (join (',' :: ['\n']) ((a :: entries).map fun a =>
        indent (level + 1) ++ entry a.1 (a.2.print (level + 1))) ++
          ('\n' :: indent level ++ ['\x7d']))) := by
  have hlines (t u : Text) : "\x7b\n".toList ++ t ++ "\n".toList ++ u ++ "\x7d".toList =
      '\x7b' :: (['\n'] ++ (t ++ ('\n' :: u ++ ['\x7d']))) := by simp
  rw [← printEntries_eq_map]
  unfold Expr.print
  exact hlines _ _

theorem inline_object (a : Text × Expr) (entries : List (Text × Expr)) :
    (Expr.object (a :: entries)).inline = '\x7b' :: ([' '] ++
      (join (',' :: [' ']) ((a :: entries).map fun a => entry a.1 a.2.inline) ++
        ([' '] ++ ['\x7d']))) := by
  have hline (t : Text) : "\x7b ".toList ++ t ++ " \x7d".toList =
      '\x7b' :: ([' '] ++ (t ++ ([' '] ++ ['\x7d']))) := by simp
  rw [← inlineEntries_eq_map]
  unfold Expr.inline
  exact hline _

theorem readsPrinted_array {items : List Expr} (h : ∀ item ∈ items, ReadsPrinted item) :
    ReadsPrinted (.array items) := by
  constructor
  · intro level
    rw [print_array]
    exact reads_array fun item hitem => (h item hitem).1 level
  · rw [inline_array]
    exact reads_array fun item hitem => (h item hitem).2

theorem readsPrinted_object {entries : List (Text × Expr)}
    (h : ∀ a ∈ entries, a.1 ≠ [] ∧ ReadsPrinted a.2) : ReadsPrinted (.object entries) := by
  have hnil : IsGap [] := rfl
  have hspace : IsGap [' '] := rfl
  have hbreak : IsGap ['\n'] := rfl
  cases entries with
  | nil =>
    have hempty : Reads ['\x7b', '\x7d'] (.object []) :=
      @reads_object Prod.fst [] [] [] [] hnil hnil hnil (by simp)
    exact ⟨fun _ => hempty, hempty⟩
  | cons a entries =>
    constructor
    · intro level
      rw [print_object]
      refine reads_object hbreak hbreak (hbreak.append (isGap_indent level)) fun a ha => ?_
      exact readsEntry (isGap_indent (level + 1)) (h a ha).1 ((h a ha).2.1 (level + 1))
    · rw [inline_object]
      refine reads_object hspace hspace hspace fun a ha => ?_
      exact readsEntry hnil (h a ha).1 (h a ha).2.2

mutual

/-- A literal is read from both of its printed forms. -/
theorem readsPrinted : ∀ {e : Expr}, e.isLiteral = true → ReadsPrinted e
  | .json value, _ => ⟨fun _ => reads_double value, reads_double value⟩
  | .bool value, _ => ⟨fun _ => reads_bool value, reads_bool value⟩
  | .null, _ => ⟨fun _ => reads_null, reads_null⟩
  | .array items, h => readsPrinted_array (readsPrinted_items (by rwa [Expr.isLiteral] at h))
  | .object entries, h => readsPrinted_object (readsPrinted_entries (by rwa [Expr.isLiteral] at h))

theorem readsPrinted_items : ∀ {items : List Expr}, areLiterals items = true →
    ∀ item ∈ items, ReadsPrinted item
  | [], _ => by simp
  | item :: items, h => by
    rw [areLiterals, Bool.and_eq_true] at h
    exact List.forall_mem_cons.2 ⟨readsPrinted h.1, readsPrinted_items h.2⟩

theorem readsPrinted_entries : ∀ {entries : List (Text × Expr)}, areEntries entries = true →
    ∀ a ∈ entries, a.1 ≠ [] ∧ ReadsPrinted a.2
  | [], _ => by simp
  | (key, value) :: entries, h => by
    rw [areEntries, Bool.and_eq_true, Bool.and_eq_true] at h
    obtain ⟨⟨hkey, hvalue⟩, hentries⟩ := h
    exact List.forall_mem_cons.2
      ⟨⟨by simpa using hkey, readsPrinted hvalue⟩, readsPrinted_entries hentries⟩

end

theorem read?_of_reads {t : Text} {e : Expr} (h : Reads t e) : read? t = some e := by
  have hvalue := h t.length [] (Nat.le_refl _) rfl
  rw [List.append_nil] at hvalue
  rw [read?, hvalue]
  rfl

/-- A literal is read back from its printed forms: at any level, and on one line. -/
theorem read?_printed (e : Expr) (h : e.isLiteral = true) (level : Nat) :
    read? (e.print level) = some e ∧ read? e.inline = some e :=
  ⟨read?_of_reads ((readsPrinted h).1 level), read?_of_reads (readsPrinted h).2⟩

/-- Keys in quotes, a value that looks like the end of its object, and objects in an array. -/
theorem read?_printed_nested :
    read? ("\x7b\n        \"1a\": \"\\\" \x7d\\u0001\",\n        b: [\x7b\n" ++
        "            \"-\": null\n        \x7d, \x7b\x7d]\n    \x7d") =
      some (.object [("1a", .json ['\x22', ' ', '\x7d', '\x01']),
        ("b", .array [.object [("-", .null)], .object []])]) ∧
    read? "\x7b \"1a\": \"\\\" \x7d\\u0001\", b: [\x7b \"-\": null \x7d, \x7b\x7d] \x7d" =
      some (.object [("1a", .json ['\x22', ' ', '\x7d', '\x01']),
        ("b", .array [.object [("-", .null)], .object []])]) := by
  have hread := read?_printed (.object [("1a", .json ['\x22', ' ', '\x7d', '\x01']),
    ("b", .array [.object [("-", .null)], .object []])]) (by decide +kernel) 1
  exact ⟨(congrArg read? (by decide +kernel)).trans hread.1,
    (congrArg read? (by decide +kernel)).trans hread.2⟩

end Literal
end BladeView.Script
