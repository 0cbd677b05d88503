import Mathlib.Data.List.Infix
import BladeView.Proofs.Script.Escape
import BladeView.Proofs.Text.Word
import BladeView.Source.Verbatim

/-!
# Verbatim contents put back

Contents are escaped so that a template literal shows them as they are, and put back in one pass:
what stands between the placeholders is copied, also where it looks like the beginning of one, and a
content is not looked at again.

## Main statements

* `Quoted.value?_template`: escaped text stands for itself.
* `Verbatim.restore_marked`: a text with placeholders, and the text with the contents.
-/
namespace BladeView

namespace Quoted

/-- What the body of a template literal stands for, where a backslash escapes the next character.
There is no value if the literal ends early or has an interpolation: no backtick and no start of an
interpolation may stand in the body unescaped. -/
def value? : Text → Option Text
  | [] => some []
  | ['\\'] => none
  | '\\' :: c :: t => (value? t).map (c :: ·)
  | c :: t =>
    if c = '\x60' ∨ c = '$' ∧ t.head? = some '\x7b' then none else (value? t).map (c :: ·)

theorem value?_template (t : Text) : value? (template t) = some t := by
  induction t with
  | nil => rfl
  | cons c t ih =>
    rw [template_cons]
    by_cases hescape : needsEscape c t = true
    · rw [if_pos hescape]
      exact (congrArg (Option.map (c :: ·)) ih).trans rfl
    · rw [if_neg hescape, List.singleton_append]
      have hbrace : (template t).head? = some '\x7b' → t.head? = some '\x7b' := by
        intro hhead
        cases t with
        | nil => cases hhead
        | cons d t =>
          rw [template_cons] at hhead
          split at hhead
          · cases hhead
          · exact hhead
      simp only [needsEscape, Bool.or_eq_true, Bool.and_eq_true, beq_iff_eq, not_or] at hescape
      have hplain : ¬ (c = '\x60' ∨ c = '$' ∧ (template t).head? = some '\x7b') :=
        not_or.2 ⟨hescape.1.2, fun h => hescape.2 ⟨h.1, hbrace h.2⟩⟩
      rw [value?, if_neg hplain, ih, Option.map_some]
      · exact fun hc => absurd hc hescape.1.1
      · exact fun _ _ hc => absurd hc hescape.1.1

end Quoted

namespace Verbatim

/-! ## Reading placeholders -/

theorem readPlaceholder?_eq_append {t digits rest : Text}
    (h : readPlaceholder? t = some (digits, rest)) :
    digits.head?.any isDigitChar = true ∧ t = placeholderHead ++ (digits ++ ("__" ++ rest)) := by
  simp only [readPlaceholder?, Option.bind_eq_bind, Option.bind_eq_some_iff] at h
  obtain ⟨more, hhead, h⟩ := h
  obtain ⟨hne, h⟩ := Option.ite_none_left_eq_some.1 h
  obtain ⟨rest', hend, hfound⟩ := Option.bind_eq_some_iff.1 h
  obtain ⟨rfl, rfl⟩ := Prod.mk.inj (Option.some.inj hfound)
  constructor
  · cases more with
    | nil => exact absurd rfl hne
    | cons c more =>
      cases hc : isDigitChar c with
      | true => rw [List.takeWhile_cons_of_pos hc]; exact hc
      | false => exact absurd (by rw [List.takeWhile_cons_of_neg (by simp [hc])]; rfl) hne
  · rw [Text.after?_eq_some.1 hhead, ← Text.after?_eq_some.1 hend, List.takeWhile_append_dropWhile]

section Restore

variable {verbatim : List Text} {t digits rest : Text}

theorem consumes_readPlaceholder? :
    Text.Consumes fun t =>
      (readPlaceholder? t).map fun read => (expand verbatim read.1, read.2) := by
  intro t new rest hread
  obtain ⟨⟨digits, rest'⟩, hdigits, hfound⟩ := Option.map_eq_some_iff.1 hread
  obtain ⟨rfl, rfl⟩ := Prod.mk.inj hfound
  refine ⟨placeholderHead ++ (digits ++ "__"),
    List.append_ne_nil_of_left_ne_nil (by decide) _, ?_⟩
  simp only [(readPlaceholder?_eq_append hdigits).2, List.append_assoc]

theorem restore_found (h : readPlaceholder? t = some (digits, rest)) :
    restore verbatim t = expand verbatim digits ++ restore verbatim rest :=
  Text.substitute_found consumes_readPlaceholder? (by rw [h]; rfl)

theorem restore_other {c : Char} (h : readPlaceholder? (c :: t) = none) :
    restore verbatim (c :: t) = c :: restore verbatim t :=
  Text.substitute_other (by rw [h]; rfl)

theorem restore_append {u : Text}
    (h : ∀ s, s <:+ u → s ≠ [] → readPlaceholder? (s ++ t) = none) :
    restore verbatim (u ++ t) = u ++ restore verbatim t := by
  induction u with
  | nil => rfl
  | cons c u ih =>
    have hread : readPlaceholder? (c :: (u ++ t)) = none :=
      h (c :: u) List.suffix_rfl (List.cons_ne_nil c u)
    rw [List.cons_append, restore_other hread, ih fun s hs => h s (hs.trans (List.suffix_cons c u)),
      List.cons_append]

end Restore

/-! ## Texts with placeholders -/

/-- A text in which no placeholder begins. -/
structure Piece where
  text : Text
  free : ¬ placeholderHead <:+: text

/-- A placeholder, its number in decimal digits. -/
structure Slot where
  digits : Text
  ne_nil : digits ≠ []
  decimal : ∀ c ∈ digits, c.isDigit = true

namespace Slot

def number (s : Slot) : Nat := Nat.ofDigitChars 10 s.digits 0

def text (s : Slot) : Text := placeholderHead ++ (s.digits ++ "__")

/-- What takes the place: the content of that number, escaped. Without such a content the
placeholder stays. -/
def filled (contents : List Text) (s : Slot) : Text :=
  (contents[s.number]?.map Quoted.template).getD s.text

/-- The placeholder of a number. -/
def ofNat (n : Nat) : Slot where
  digits := Text.ofNat n
  ne_nil := Nat.toDigits_ne_nil
  decimal _ := Nat.isDigit_of_mem_toDigits (Nat.succ_pos 9) (Nat.le_refl 10)

theorem number_ofNat (n : Nat) : (ofNat n).number = n := Nat.ofDigitChars_ten_toDigits

theorem text_ofNat (n : Nat) : (ofNat n).text = placeholder n := (List.append_assoc _ _ _).symm

theorem expand_digits (contents : List Text) (s : Slot) :
    expand contents s.digits = s.filled contents := by
  have hindex : index? s.digits = some s.number := by
    rw [index?, if_pos (List.all_eq_true.2 s.decimal), number, Nat.ofDigitChars_eq_foldl]
  rw [expand, hindex, filled, text, Option.bind_some]
  cases contents[s.number]? with
  | none => exact List.append_assoc _ _ _
  | some content => rfl

theorem readPlaceholder?_append (s : Slot) (rest : Text) :
    readPlaceholder? (s.text ++ rest) = some (s.digits, rest) := by
  have hdigits : ∀ c ∈ s.digits, isDigitChar c = true := by
    intro c hc
    have hdigit := s.decimal c hc
    rw [isDigitChar, if_pos (by have := isDigit_iff.1 hdigit; omega), hdigit]
  have htake : (s.digits ++ '_' :: '_' :: rest).takeWhile isDigitChar = s.digits := by
    rw [List.takeWhile_append_of_pos hdigits]
    exact List.append_nil _
  have hdrop : (s.digits ++ '_' :: '_' :: rest).dropWhile isDigitChar = '_' :: '_' :: rest :=
    List.dropWhile_append_of_pos hdigits
  have hsplit : s.text ++ rest = placeholderHead ++ (s.digits ++ '_' :: '_' :: rest) := by
    simp [text]
  have hend : Text.after? "__" ('_' :: '_' :: rest) = some rest := Text.after?_eq_some.2 rfl
  rw [hsplit, readPlaceholder?, Text.after?_eq_some.2 rfl]
  simp only [Option.bind_eq_bind, Option.bind_some, htake, hdrop, hend, List.isEmpty_iff, s.ne_nil,
    if_false]
  rfl

end Slot

/-- A text with placeholders between pieces. -/
def marked (first : Piece) (more : List (Slot × Piece)) : Text :=
  first.text ++ more.flatMap fun part => part.1.text ++ part.2.text

/-- No placeholder begins in a piece, also not with the underscore that begins the next one. -/
theorem Piece.readPlaceholder?_eq_none (p : Piece) (more : List (Slot × Piece)) {s : Text}
    (hs : s <:+ p.text) (hne : s ≠ []) :
    readPlaceholder? (s ++ more.flatMap fun part => part.1.text ++ part.2.text) = none := by
  rw [Option.eq_none_iff_forall_ne_some]
  rintro ⟨digits, rest⟩ hread
  obtain ⟨hdigits, heq⟩ := readPlaceholder?_eq_append hread
  have hfree : ¬ placeholderHead <+: s := fun h => p.free (h.isInfix.trans hs.isInfix)
  obtain ⟨a, hhead, hmore⟩ | ⟨b, hb, -⟩ := List.append_eq_append_iff.1 heq
  · have hends : ∀ a ∈ placeholderHead.tails.tail, a <+: placeholderHead → a = [] ∨ a = ['_'] := by
      decide
    have ha : a ∈ placeholderHead.tails.tail := by
      obtain ⟨c, s, rfl⟩ := List.exists_cons_of_ne_nil hne
      rw [hhead, List.cons_append, List.tails_cons, List.tail_cons, List.mem_tails]
      exact List.suffix_append s a
    cases more with
    | nil =>
      obtain rfl : a = [] := (List.append_eq_nil_iff.1 hmore.symm).1
      exact hfree ⟨[], hhead ▸ by simp⟩
    | cons part more =>
      simp only [List.flatMap_cons, Slot.text, List.append_assoc] at hmore
      have hprefix : a <+: placeholderHead := by
        refine List.prefix_of_prefix_length_le ⟨_, hmore.symm⟩ (List.prefix_append _ _) ?_
        rw [hhead, List.length_append]
        omega
      rcases hends a ha hprefix with rfl | rfl
      · exact hfree ⟨[], hhead ▸ by simp⟩
      · cases digits with
        | nil => cases hdigits
        | cons c digits =>
          obtain rfl : '_' = c := (List.cons.inj (List.cons.inj hmore).2).1
          cases hdigits
  · exact hfree ⟨b, hb.symm⟩

/-- Pieces are copied and placeholders filled. -/
theorem restore_marked (contents : List Text) (first : Piece) (more : List (Slot × Piece)) :
    restore contents (marked first more) =
      first.text ++ more.flatMap fun part => part.1.filled contents ++ part.2.text := by
  induction more generalizing first with
  | nil => exact restore_append fun s hs hne => first.readPlaceholder?_eq_none [] hs hne
  | cons part more ih =>
    rw [marked, restore_append fun s hs hne => first.readPlaceholder?_eq_none (part :: more) hs hne]
    rw [List.flatMap_cons, List.flatMap_cons, List.append_assoc, List.append_assoc,
      restore_found (part.1.readPlaceholder?_append _), Slot.expand_digits]
    exact congrArg (fun t => first.text ++ (part.1.filled contents ++ t)) (ih part.2)

/-- **Contents are put back in one pass and come out as they are.** Escaped text is the body of a
template literal that reaches its end without an interpolation and stands for the text. In a text
with placeholders between pieces just the placeholders of contents are replaced, by the escaped
contents as they are, whatever these look like. -/
theorem restore_literally :
    (∀ t, Quoted.value? (Quoted.template t) = some t) ∧
    ∀ (contents : List Text) (first : Piece) (more : List (Slot × Piece)),
      restore contents (marked first more) =
        first.text ++ more.flatMap fun part => part.1.filled contents ++ part.2.text :=
  ⟨Quoted.value?_template, restore_marked⟩

end Verbatim
end BladeView
