import BladeView.Proofs.Text.Replace
import BladeView.Script.Quoted

/-!
# Escaped text

Text is escaped for a template literal in three steps. Together they go character by character: a
character is copied or gets a backslash in front, which depends on it and on the one after it. A
piece without such characters stands in the escaped text just where it stands in the text.
-/
namespace BladeView

namespace Quoted

/-- Whether a character is escaped before a text: a backslash, a backtick, and a dollar sign that
opens an interpolation. -/
def needsEscape (c : Char) (t : Text) : Bool :=
  c == '\\' || c == '\x60' || (c == '$' && t.head? == some '\x7b')

/-- The first two of the three steps. -/
def escapeMarks (t : Text) : Text :=
  t.flatMap fun c => if c = '\\' ∨ c = '\x60' then ['\\', c] else [c]

theorem escapeMarks_cons (c : Char) (t : Text) :
    escapeMarks (c :: t) = (if c = '\\' ∨ c = '\x60' then ['\\', c] else [c]) ++ escapeMarks t :=
  List.flatMap_cons

theorem head?_escapeMarks {t : Text} (h : (escapeMarks t).head? = some '\x7b') :
    t.head? = some '\x7b' := by
  cases t with
  | nil => cases h
  | cons c t =>
    rw [escapeMarks_cons] at h
    split at h
    · exact absurd (Option.some.inj h) (by decide)
    · exact h

theorem template_eq (t : Text) : template t = Text.replace "$\x7b" "\\$\x7b" (escapeMarks t) := by
  have hbackslash : Text.replace "\\" "\\\\" t = _ := Text.replace_singleton '\\' "\\\\" t
  have hbacktick : Text.replace "\x60" "\\\x60" (Text.replace "\\" "\\\\" t) = _ :=
    Text.replace_singleton '\x60' "\\\x60" _
  rw [template, hbacktick, hbackslash, List.flatMap_assoc, escapeMarks]
  congr 2
  funext c
  by_cases hslash : c = '\\'
  · subst hslash
    decide
  · by_cases htick : c = '\x60'
    · subst htick
      decide
    · simp [hslash, htick]

/-- A character that opens no interpolation is copied. -/
theorem replace_interpolation_cons {c : Char} {t : Text}
    (h : c = '$' → t.head? ≠ some '\x7b') :
    Text.replace "$\x7b" "\\$\x7b" (c :: t) = c :: Text.replace "$\x7b" "\\$\x7b" t := by
  refine Text.replace_cons ?_
  rintro ⟨back, heq⟩
  obtain ⟨hc, ht⟩ := List.cons.inj heq
  exact h hc.symm (ht ▸ rfl)

/-- Escaping goes character by character, with a look at the next one. -/
theorem template_cons (c : Char) (t : Text) :
    template (c :: t) = (if needsEscape c t then ['\\', c] else [c]) ++ template t := by
  rw [template_eq, template_eq, escapeMarks_cons]
  by_cases hmark : c = '\\' ∨ c = '\x60'
  · have hescape : needsEscape c t = true := by
      rcases hmark with rfl | rfl <;> simp [needsEscape]
    have hc : c ≠ '$' := by
      rcases hmark with rfl | rfl <;> decide
    rw [if_pos hmark, if_pos hescape, List.cons_append, List.singleton_append,
      replace_interpolation_cons fun h => absurd h (by decide),
      replace_interpolation_cons fun h => absurd h hc]
    rfl
  · rw [if_neg hmark, List.singleton_append]
    rw [not_or] at hmark
    by_cases hopens : c = '$' ∧ t.head? = some '\x7b'
    · obtain ⟨rfl, hhead⟩ := hopens
      obtain ⟨t, rfl⟩ := List.head?_eq_some_iff.1 hhead
      have hbrace : escapeMarks ('\x7b' :: t) = '\x7b' :: escapeMarks t := rfl
      rw [hbrace, replace_interpolation_cons (c := '\x7b') fun h => absurd h (by decide)]
      exact Text.replace_old_append (by decide) (escapeMarks t)
    · have hescape : needsEscape c t = false := by
        simpa [needsEscape, hmark] using hopens
      rw [replace_interpolation_cons fun hc hhead => hopens ⟨hc, head?_escapeMarks hhead⟩, hescape]
      rfl

/-- A piece that escaping never touches: it holds nothing that is escaped, and no dollar sign at its
end that a brace could follow. -/
structure IsUnescaped (piece : Text) : Prop where
  ne_nil : piece ≠ []
  plain : ∀ c ∈ piece, c ≠ '\\' ∧ c ≠ '\x60' ∧ c ≠ '\x7b'
  last : piece.getLast? ≠ some '$'

namespace IsUnescaped

variable {piece : Text}

theorem tail {c : Char} (h : IsUnescaped (c :: piece)) (hne : piece ≠ []) : IsUnescaped piece where
  ne_nil := hne
  plain d hd := h.plain d (List.mem_cons_of_mem c hd)
  last := by
    rw [← List.getLast?_cons_of_ne_nil hne]
    exact h.last

/-- No such piece begins with a character that is escaped. -/
theorem not_isPrefix (h : IsUnescaped piece) {c : Char} {t u : Text} (hescape : needsEscape c t = true)
    (hhead : t.head? = some '\x7b' → u.head? = some '\x7b') : ¬ piece <+: c :: u := by
  intro hprefix
  cases piece with
  | nil => exact h.ne_nil rfl
  | cons d piece =>
    obtain ⟨rfl, htail⟩ := List.cons_prefix_cons.1 hprefix
    have hplain := h.plain d List.mem_cons_self
    simp only [needsEscape, hplain.1, hplain.2.1, Bool.or_eq_true, Bool.and_eq_true, beq_iff_eq,
      false_or] at hescape
    obtain ⟨more, rfl⟩ := List.head?_eq_some_iff.1 (hhead hescape.2)
    cases piece with
    | nil => exact h.last (by simp [hescape.1])
    | cons e piece =>
      have he : e = '\x7b' := (List.cons_prefix_cons.1 htail).1
      exact (h.plain e (by simp)).2.2 he

theorem isPrefix_template_iff (h : IsUnescaped piece) (t : Text) :
    piece <+: template t ↔ piece <+: t := by
  induction piece generalizing t with
  | nil => exact absurd rfl h.ne_nil
  | cons d piece ih =>
    cases t with
    | nil => rfl
    | cons c t =>
      rw [template_cons]
      by_cases hescape : needsEscape c t = true
      · rw [if_pos hescape]
        have hslash : ¬ d :: piece <+: ['\\', c] ++ template t := fun hprefix =>
          (h.plain d List.mem_cons_self).1 (List.cons_prefix_cons.1 hprefix).1
        exact iff_of_false hslash (h.not_isPrefix hescape id)
      · rw [if_neg hescape, List.singleton_append, List.cons_prefix_cons, List.cons_prefix_cons]
        refine and_congr_right fun _ => ?_
        by_cases hne : piece = []
        · simp [hne]
        · exact ih (h.tail hne) t

/-- Such a piece stands in the escaped text just if it stands in the text. -/
theorem isInfix_template_iff (h : IsUnescaped piece) (t : Text) :
    piece <:+: template t ↔ piece <:+: t := by
  induction t with
  | nil => rfl
  | cons c t ih =>
    have hfront := h.isPrefix_template_iff (c :: t)
    rw [List.infix_cons_iff, ← ih, ← hfront, template_cons]
    by_cases hescape : needsEscape c t = true
    · have hbrace : t.head? = some '\x7b' → (template t).head? = some '\x7b' := by
        intro hhead
        obtain ⟨more, rfl⟩ := List.head?_eq_some_iff.1 hhead
        rw [template_cons]
        rfl
      rw [if_pos hescape, List.cons_append, List.singleton_append, List.infix_cons_iff,
        List.infix_cons_iff, or_iff_right (h.not_isPrefix hescape hbrace)]
    · rw [if_neg hescape, List.singleton_append, List.infix_cons_iff]

end IsUnescaped
end Quoted
end BladeView
