import BladeView.Block.Machine
import BladeView.Header
import BladeView.Markup.Inline
import BladeView.Proofs.Expression.Inert
import BladeView.Proofs.Expression.Outcome
import BladeView.Proofs.Expression.Start

/-!
# Strings and expressions as arguments

An argument that is one string without sigils is taken as a fixed text, and any other argument as an
expression. Only its first and last character are looked at to tell which it is. So an expression of
several strings, as a concatenation, is taken for one string if it begins and ends with the same
mark and has no sigil: the marks inside become part of the text. In all other cases strings and
expressions are told apart.

## Main statements

* `Name.literals_told_apart_iff`: strings and expressions are told apart but for joined strings.
-/
namespace BladeView

open Expression (literal quotedRest step toScript)
open Quoted (single singleChar)
open List (append_assoc cons_append cons_prefix_cons)

variable {front s a : Text}

/-! ## Marks in a text -/

namespace Name

/-- A mark stands in a text with evenly many backslashes right before it: they escape each other,
and none is left for the mark. -/
def HasBareMark (mark : Char) (s : Text) : Prop :=
  ∃ front count back, s = front ++ (List.replicate (2 * count) '\\' ++ mark :: back) ∧
    front.getLast? ≠ some '\\'

/-- Looks for a mark that is not escaped, from left to right. -/
def hasBareMark (mark : Char) : Text → Bool
  | [] => false
  | c :: cs =>
    if c == '\\' then
      match cs with
      | [] => false
      | _ :: ds => hasBareMark mark ds
    else c == mark || hasBareMark mark cs

section Marks

variable {mark : Char} {c d : Char} {cs ds : Text}

theorem getLast?_ne_of_cons (h : (c :: front).getLast? ≠ some d) : front.getLast? ≠ some d := by
  cases front with
  | nil => simp
  | cons e front => rwa [List.getLast?_cons_cons] at h

theorem getLast?_cons_ne (hc : front = [] → c ≠ d) (h : front.getLast? ≠ some d) :
    (c :: front).getLast? ≠ some d := by
  cases front with
  | nil => simpa using hc rfl
  | cons e front => rwa [List.getLast?_cons_cons]

theorem hasBareMark_cons_iff (hc : c ≠ '\\') :
    HasBareMark mark (c :: cs) ↔ c = mark ∨ HasBareMark mark cs := by
  constructor
  · rintro ⟨front, count, back, htext, hlast⟩
    cases front with
    | nil =>
      cases count with
      | zero => exact .inl (List.cons.inj htext).1
      | succ count => exact absurd (List.cons.inj htext).1 hc
    | cons e front =>
      exact .inr ⟨front, count, back, (List.cons.inj htext).2, getLast?_ne_of_cons hlast⟩
  · rintro (rfl | ⟨front, count, back, rfl, hlast⟩)
    · exact ⟨[], 0, cs, rfl, by simp⟩
    · exact ⟨c :: front, count, back, rfl, getLast?_cons_ne (fun _ => hc) hlast⟩

/-- What a backslash escapes is skipped. -/
theorem hasBareMark_escape_iff (hmark : mark ≠ '\\') :
    HasBareMark mark ('\\' :: d :: ds) ↔ HasBareMark mark ds := by
  constructor
  · rintro ⟨front, count, back, htext, hlast⟩
    match front, count with
    | [], 0 => exact absurd (List.cons.inj htext).1.symm hmark
    | [], count + 1 => exact ⟨[], count, back, (List.cons.inj (List.cons.inj htext).2).2, hlast⟩
    | [e], _ =>
      obtain rfl : '\\' = e := (List.cons.inj htext).1
      exact absurd rfl hlast
    | _ :: _ :: front, count =>
      exact ⟨front, count, back, (List.cons.inj (List.cons.inj htext).2).2,
        getLast?_ne_of_cons (getLast?_ne_of_cons hlast)⟩
  · rintro ⟨front, count, back, rfl, hlast⟩
    by_cases hpair : front = [] ∧ d = '\\'
    · -- The two backslashes go with those before the mark.
      obtain ⟨rfl, rfl⟩ := hpair
      exact ⟨[], count + 1, back, rfl, hlast⟩
    · refine ⟨'\\' :: d :: front, count, back, rfl, ?_⟩
      exact getLast?_cons_ne (by simp) (getLast?_cons_ne (fun hnil hd => hpair ⟨hnil, hd⟩) hlast)

theorem not_hasBareMark_nil : ¬ HasBareMark mark [] := by
  rintro ⟨front, count, back, htext, -⟩
  simp at htext

theorem not_hasBareMark_backslash (hmark : mark ≠ '\\') : ¬ HasBareMark mark ['\\'] := by
  rintro ⟨front, count, back, htext, -⟩
  match front, count with
  | [], 0 => exact hmark (List.cons.inj htext).1.symm
  | [], count + 1 => simp [Nat.mul_add, List.replicate_succ] at htext
  | _ :: front, count => simp at htext

/-- The search finds the marks with evenly many backslashes before them. -/
theorem hasBareMark_iff (hmark : mark ≠ '\\') : hasBareMark mark s = true ↔ HasBareMark mark s := by
  fun_induction hasBareMark mark s with
  | case1 => simpa using not_hasBareMark_nil
  | case2 c hc =>
    rw [beq_iff_eq.mp hc]
    simpa using not_hasBareMark_backslash hmark
  | case3 c hc d ds ih => rw [beq_iff_eq.mp hc, hasBareMark_escape_iff hmark, ih]
  | case4 c cs hc ih =>
    have hslash : c ≠ '\\' := by simpa using hc
    rw [hasBareMark_cons_iff hslash, Bool.or_eq_true, beq_iff_eq, ih]

end Marks

/-! ## One string and several strings -/

/-- The inside of an argument that is one string: no mark inside is bare. -/
def literal? (a : Text) : Option Text :=
  (unquote? a).filter fun s => !((Text.trim a).head?.any fun mark => hasBareMark mark s)

/-- An argument that begins and ends with the same mark and has a bare one inside, without sigils.
It is no string but an expression of several, as a concatenation. -/
def IsJoined (a : Text) : Prop :=
  ∃ mark s, isQuote mark = true ∧ Text.trim a = mark :: (s ++ [mark]) ∧ HasBareMark mark s ∧ '$' ∉ s

/-- A text without sigils. -/
def isFixed (s : Text) : Bool := !s.any (· == '$')

theorem isFixed_iff : isFixed s = true ↔ '$' ∉ s := by
  rw [isFixed, Bool.not_eq_true', List.any_beq', List.contains_eq_mem, decide_eq_false_iff_not]

theorem ne_backslash_of_isQuote {mark : Char} (h : isQuote mark = true) : mark ≠ '\\' := by
  rintro rfl
  cases h

theorem unquote?_eq_some_iff :
    unquote? a = some s ↔ ∃ mark, isQuote mark = true ∧ Text.trim a = mark :: (s ++ [mark]) := by
  rw [unquote?]
  constructor
  · intro h
    split at h
    case h_1 => cases h
    case h_2 mark cs htrim =>
      obtain ⟨hmark, h⟩ := Option.ite_none_right_eq_some.1 h
      exact ⟨mark, hmark, htrim.trans (Text.enclosed?_eq_some h)⟩
  · rintro ⟨mark, hmark, htrim⟩
    rw [htrim]
    simp [hmark, Text.enclosed?]

/-- One string: the marks at its ends, and none inside that is bare. -/
theorem literal?_eq_some_iff :
    literal? a = some s ↔ ∃ mark, isQuote mark = true ∧ Text.trim a = mark :: (s ++ [mark]) ∧
      ¬ HasBareMark mark s := by
  rw [literal?, Option.filter_eq_some_iff, unquote?_eq_some_iff]
  constructor
  · rintro ⟨⟨mark, hmark, htrim⟩, hbare⟩
    refine ⟨mark, hmark, htrim, ?_⟩
    rw [← hasBareMark_iff (ne_backslash_of_isQuote hmark)]
    simpa [htrim] using hbare
  · rintro ⟨mark, hmark, htrim, hbare⟩
    rw [← hasBareMark_iff (ne_backslash_of_isQuote hmark)] at hbare
    exact ⟨⟨mark, hmark, htrim⟩, by simpa [htrim] using hbare⟩

theorem filter_unquote?_of_trim {mark : Char} (hmark : isQuote mark = true)
    (htrim : Text.trim a = mark :: (s ++ [mark])) (hfixed : '$' ∉ s) :
    (unquote? a).filter isFixed = some s :=
  Option.filter_eq_some_iff.mpr
    ⟨unquote?_eq_some_iff.mpr ⟨mark, hmark, htrim⟩, isFixed_iff.mpr hfixed⟩

/-- Strings without sigils are found as they should be unless there are several. -/
theorem filter_unquote?_eq (h : ¬ IsJoined a) :
    (unquote? a).filter isFixed = (literal? a).filter isFixed := by
  ext s
  simp only [Option.filter_eq_some_iff, unquote?_eq_some_iff, literal?_eq_some_iff, isFixed_iff]
  constructor
  · rintro ⟨⟨mark, hmark, htrim⟩, hfixed⟩
    exact ⟨⟨mark, hmark, htrim, fun hbare => h ⟨mark, s, hmark, htrim, hbare, hfixed⟩⟩, hfixed⟩
  · rintro ⟨⟨mark, hmark, htrim, -⟩, hfixed⟩
    exact ⟨⟨mark, hmark, htrim⟩, hfixed⟩

/-- Several strings are no string. -/
theorem IsJoined.literal?_eq_none (h : IsJoined a) : literal? a = none := by
  obtain ⟨mark, s, hmark, htrim, hbare, -⟩ := h
  rw [Option.eq_none_iff_forall_ne_some]
  intro u hu
  obtain ⟨mark', -, htrim', hnone⟩ := literal?_eq_some_iff.mp hu
  obtain ⟨rfl, hinside⟩ := List.cons.inj (htrim.symm.trans htrim')
  rw [← List.append_cancel_right hinside] at hnone
  exact hnone hbare

/-! ## The script form of several strings -/

/-- The first string of a text ends with the first bare mark. -/
theorem exists_quotedRest {mark : Char} (h : hasBareMark mark s = true) :
    ∃ first rest, s = first ++ mark :: rest ∧
      ∀ t, quotedRest mark (s ++ t) = first ++ [mark] := by
  fun_induction hasBareMark mark s with
  | case1 => cases h
  | case2 => cases h
  | case3 c hc d ds ih =>
    obtain ⟨first, rest, rfl, hread⟩ := ih h
    refine ⟨c :: d :: first, rest, rfl, fun t => ?_⟩
    rw [cons_append, cons_append, quotedRest, if_pos hc]
    simp only [hread, cons_append]
  | case4 c cs hc ih =>
    by_cases hmark : c = mark
    · subst hmark
      refine ⟨[], cs, rfl, fun t => ?_⟩
      rw [cons_append, quotedRest.eq_def]
      simp only [if_neg hc, beq_self_eq_true, if_true, List.nil_append]
    · rw [beq_false_of_ne hmark, Bool.false_or] at h
      obtain ⟨first, rest, rfl, hread⟩ := ih h
      refine ⟨c :: first, rest, rfl, fun t => ?_⟩
      rw [cons_append, quotedRest.eq_def]
      simp only [if_neg hc, beq_false_of_ne hmark, Bool.false_eq_true, if_false, hread, cons_append]

theorem literal_cases (t : Text) :
    literal t = t ∨ ∃ rest, literal t = '\x22' :: (rest ++ ['\x22']) := by
  rw [literal]
  split
  · split
    · exact .inl rfl
    · exact .inr ⟨_, rfl⟩
  · exact .inl rfl

/-- The script form of several strings begins with the first of them. -/
theorem exists_toScript_eq (b : Bindings) {mark : Char} (hmark : isQuote mark = true)
    (htrim : Text.trim a = mark :: (s ++ [mark])) (hbare : HasBareMark mark s) :
    ∃ first rest more, s = first ++ mark :: rest ∧
      toScript b a = literal (mark :: (first ++ [mark])) ++ more := by
  have hslash := ne_backslash_of_isQuote hmark
  obtain ⟨first, rest, hs, hread⟩ := exists_quotedRest ((hasBareMark_iff hslash).mpr hbare)
  have hblank : isBlank mark = false := by
    refine Bool.eq_false_iff.mpr fun hblank => ?_
    rw [isQuote_eq_false_of_isPlainCode (isPlainCode_of_isBlank hblank)] at hmark
    cases hmark
  have hlast : (literal (mark :: (first ++ [mark]))).getLast?.any isBlank = false := by
    rcases literal_cases (mark :: (first ++ [mark])) with heq | ⟨inner, heq⟩
    · rw [heq, ← cons_append, List.getLast?_concat]
      exact hblank
    · rw [heq, ← cons_append, List.getLast?_concat]
      rfl
  have hne : literal (mark :: (first ++ [mark])) ≠ [] := by
    rcases literal_cases (mark :: (first ++ [mark])) with heq | ⟨inner, heq⟩ <;> simp [heq]
  have hstep : step b (Expression.toScriptWithin b a.length) {} mark (s ++ [mark]) =
      (Expression.Pass.token {} (literal (mark :: (first ++ [mark]))) .literal,
        (first ++ [mark]).length) := by
    simp only [step, beq_false_of_ne hslash, hmark, hread, Bool.false_eq_true, if_false, if_true]
    rfl
  obtain ⟨more, hmore⟩ := Expression.run_of_token hne hlast hstep
  refine ⟨first, rest, more, hs, ?_⟩
  rw [Expression.toScript_eq_run, htrim, hmore]
  rfl

/-- How a character is written in single quotes. -/
theorem singleChar_forms (c : Char) :
    (c = '\\' ∧ singleChar c = ['\\', '\\']) ∨ (c = '\r' ∧ singleChar c = []) ∨
      (c ≠ '\\' ∧ c ≠ '\r' ∧
        (singleChar c = [c] ∨ ∃ d, singleChar c = ['\\', d])) := by
  by_cases hslash : c = '\\'
  · subst hslash
    exact .inl ⟨rfl, rfl⟩
  by_cases hreturn : c = '\r'
  · subst hreturn
    exact .inr (.inl ⟨rfl, rfl⟩)
  refine .inr (.inr ⟨hslash, hreturn, ?_⟩)
  simp only [singleChar, beq_false_of_ne hslash, beq_false_of_ne hreturn,
    Bool.false_eq_true, if_false]
  split
  · exact .inr ⟨_, rfl⟩
  split
  · exact .inr ⟨_, rfl⟩
  · exact .inl rfl

theorem head?_flatMap_singleChar_ne (s more : Text) :
    (s.flatMap singleChar ++ '\\' :: more).head? ≠ some '\r' := by
  induction s with
  | nil => simp
  | cons c s ih =>
    rw [List.flatMap_cons, append_assoc]
    rcases singleChar_forms c with ⟨-, hc⟩ | ⟨-, hc⟩ | ⟨-, hreturn, hc | ⟨d, hc⟩⟩ <;> rw [hc]
    · simp
    · exact ih
    · simpa using hreturn
    · simp

/-- What is written for a string in single quotes, up to an escaped mark, does not begin with the
string and its mark: the backslashes that are written twice keep it ahead of the string. -/
theorem not_prefix_single (first : Text) (ahead : Nat) (more : Text) :
    ¬ first ++ ['\x27'] <+:
      List.replicate ahead '\\' ++ (first.flatMap singleChar ++ '\\' :: more) := by
  induction first generalizing ahead with
  | nil =>
    cases ahead with
    | zero => simp
    | succ ahead => simp [List.replicate_succ]
  | cons c first ih =>
    intro h
    rw [List.flatMap_cons, append_assoc, cons_append] at h
    cases ahead with
    | succ ahead =>
      obtain ⟨rfl, hrest⟩ := cons_prefix_cons.mp h
      refine ih (ahead + 2) ?_
      rwa [← List.replicate_append_replicate, append_assoc]
    | zero =>
      rw [List.replicate_zero, List.nil_append] at h
      rcases singleChar_forms c with ⟨-, hc⟩ | ⟨rfl, hc⟩ | ⟨hslash, -, hc | ⟨d, hc⟩⟩ <;>
        rw [hc] at h
      · exact ih 1 (cons_prefix_cons.mp h).2
      · obtain ⟨rest, hrest⟩ := h
        exact head?_flatMap_singleChar_ne first more (congrArg List.head? hrest).symm
      · exact ih 0 (cons_prefix_cons.mp h).2
      · exact hslash (cons_prefix_cons.mp h).1

theorem single_eq (s : Text) :
    single s = '\x27' :: (s.flatMap singleChar ++ ['\x27']) := rfl

/-- The source of several strings in single quotes is not their script form. -/
theorem single_ne_toScript (b : Bindings) {mark : Char} (hmark : isQuote mark = true)
    (htrim : Text.trim a = mark :: (s ++ [mark])) (hbare : HasBareMark mark s) :
    single s ≠ toScript b a := by
  obtain ⟨first, rest, more, rfl, hscript⟩ := exists_toScript_eq b hmark htrim hbare
  intro heq
  rw [hscript, single_eq] at heq
  rcases literal_cases (mark :: (first ++ [mark])) with hliteral | ⟨inner, hliteral⟩
  · rw [hliteral] at heq
    obtain ⟨rfl, htext⟩ := List.cons.inj heq
    refine not_prefix_single first 0 ('\x27' :: (rest.flatMap singleChar ++ ['\x27'])) ?_
    refine ⟨more, htext.symm.trans ?_⟩
    simp [singleChar]
  · rw [hliteral] at heq
    exact absurd (List.cons.inj heq).1 (by decide)

/-- Several strings are taken for one, whose text in single quotes is not their script form. -/
theorem IsJoined.exists_unquote? (h : IsJoined a) :
    ∃ s, (unquote? a).filter isFixed = some s ∧
      ∀ b, single s ≠ toScript b a := by
  obtain ⟨mark, s, hmark, htrim, hbare, hfixed⟩ := h
  exact ⟨s, filter_unquote?_of_trim hmark htrim hfixed,
    fun b => single_ne_toScript b hmark htrim hbare⟩

end Name

/-! ## Fixed and computed arguments -/

open Name

theorem Inline.argument_eq (convert : Text → Text) (a : Text) :
    argument convert a = ((unquote? a).filter isFixed).elim (convert a) single := by
  rw [argument]
  cases unquote? a with
  | none => rfl
  | some s => cases hs : s.any (· == '$') <;> simp [Option.filter, isFixed, hs]

theorem Machine.sectionName_eq_elim (m : Machine) (a : Text) :
    m.sectionName a =
      ((unquote? a).filter isFixed).elim (m.convert a, m.convert a)
        fun s => (s, single s) := by
  have hfixed : (unquote? a).filter (fun name => !name.any (· == '$')) =
      (unquote? a).filter isFixed := rfl
  rw [sectionName, hfixed]
  cases (unquote? a).filter isFixed <;> rfl

theorem Text.mem_trim {t : Text} {c : Char} (hc : isBlank c = false) (h : c ∈ t) : c ∈ trim t := by
  obtain ⟨before, after, heq, hbefore, hafter⟩ := trim_spec t
  rw [heq, append_assoc, List.mem_append, List.mem_append] at h
  rcases h with h | h | h
  · exact absurd (hbefore c h) (by simp [hc])
  · exact h
  · exact absurd (hafter c h) (by simp [hc])

/-- A string without sigils has none around it either. -/
theorem Name.sigil_notMem (h : (unquote? a).filter isFixed = some s) : '$' ∉ a := by
  obtain ⟨hunquote, hfixed⟩ := Option.filter_eq_some_iff.mp h
  obtain ⟨mark, hmark, htrim⟩ := unquote?_eq_some_iff.mp hunquote
  intro hmem
  have htrimmed : '$' ∈ Text.trim a := Text.mem_trim (by decide) hmem
  have hne : '$' ≠ mark := by
    rintro rfl
    cases hmark
  rw [htrim] at htrimmed
  simp [hne, isFixed_iff.mp hfixed] at htrimmed

theorem Header.parentView_eq_literal_iff (b : Bindings) (a s : Text) :
    parentView b a = .literal s ↔ (unquote? a).filter isFixed = some s := by
  constructor
  · intro h
    rw [parentView] at h
    split at h
    case isTrue => cases h
    case isFalse =>
      split at h
      case h_1 name hname =>
        split at h
        case isTrue => cases h
        case isFalse hsigil =>
          cases h
          rw [hname]
          simpa [Option.filter, isFixed] using hsigil
      case h_2 => cases h
  · intro h
    have hsigil : a.any (· == '$') = false := by
      simpa [isFixed] using isFixed_iff.mpr (Name.sigil_notMem h)
    obtain ⟨hunquote, hfixed⟩ := Option.filter_eq_some_iff.mp h
    have hs : s.any (· == '$') = false := by simpa [isFixed] using hfixed
    simp [parentView, hsigil, hunquote, hs]

/-- **Strings and expressions are told apart but for joined strings.** For the arguments of
directives in text, for the names of sections and blocks, and for the parent of a view: one string
without sigils is a fixed text, and anything else is computed, just if the argument is not made of
several strings. Otherwise the source between the outer marks is taken for a fixed text. -/
theorem Name.literals_told_apart_iff (b : Bindings) (m : Machine) (a : Text) :
    (Inline.argument (Expression.toScript b) a =
        ((literal? a).filter isFixed).elim (Expression.toScript b a) Quoted.single ↔
      ¬ IsJoined a) ∧
    (m.sectionName a =
        ((literal? a).filter isFixed).elim (m.convert a, m.convert a)
          (fun s => (s, Quoted.single s)) ↔
      ¬ IsJoined a) ∧
    ((∀ s, Header.parentView b a = .literal s ↔ (literal? a).filter isFixed = some s) ↔
      ¬ IsJoined a) ∧
    ∀ mark s, isQuote mark = true → Text.trim a = mark :: (s ++ [mark]) → '$' ∉ s →
      Inline.argument (Expression.toScript b) a = Quoted.single s ∧
        m.sectionName a = (s, Quoted.single s) ∧ Header.parentView b a = .literal s := by
  rw [Inline.argument_eq, Machine.sectionName_eq_elim]
  refine ⟨⟨fun heq hjoined => ?_, fun h => by rw [filter_unquote?_eq h]⟩,
    ⟨fun heq hjoined => ?_, fun h => by rw [filter_unquote?_eq h]⟩,
    ⟨fun heq hjoined => ?_, fun h s => ?_⟩, fun mark s hmark htrim hfixed => ?_⟩
  · obtain ⟨s, hs, hne⟩ := hjoined.exists_unquote?
    rw [hs, hjoined.literal?_eq_none] at heq
    exact hne b heq
  · obtain ⟨s, hs, hne⟩ := hjoined.exists_unquote?
    rw [hs, hjoined.literal?_eq_none] at heq
    exact hne m.bindings (Prod.mk.inj heq).2
  · obtain ⟨s, hs, -⟩ := hjoined.exists_unquote?
    have hliteral := (heq s).mp ((Header.parentView_eq_literal_iff b a s).mpr hs)
    rw [hjoined.literal?_eq_none] at hliteral
    cases hliteral
  · rw [Header.parentView_eq_literal_iff, filter_unquote?_eq h]
  · have hs := filter_unquote?_of_trim hmark htrim hfixed
    rw [hs, Header.parentView_eq_literal_iff]
    exact ⟨rfl, rfl, hs⟩

/-- A concatenation of two strings. -/
def Name.concatenation : Text := "'a' . 'b'".toList

theorem Name.literals_told_apart_iff_concatenation :
    IsJoined concatenation ∧
      Inline.argument (Expression.toScript .empty) concatenation = "'a\\' . \\'b'".toList ∧
      Expression.toScript .empty concatenation = "\"a\" + \"b\"".toList ∧
      Inline.argument (Expression.toScript .empty) concatenation ≠
        ((literal? concatenation).filter isFixed).elim
          (Expression.toScript .empty concatenation) Quoted.single := by
  have hjoined : IsJoined concatenation :=
    ⟨'\x27', "a' . 'b".toList, rfl, by decide +kernel,
      (hasBareMark_iff (by decide)).mp (by decide +kernel), by decide +kernel⟩
  refine ⟨hjoined, by decide +kernel, by decide +kernel, fun heq => ?_⟩
  exact (literals_told_apart_iff .empty (.start .empty) concatenation).1.mp heq hjoined

end BladeView
