import BladeView.Proofs.Text.Utf8
import BladeView.TopLevel

/-!
# The pieces of a text

A separator within ASCII is a character of its own wherever its byte is met. So a text can be cut at
all of them, and its pieces may be read off its characters.

## Main statements

* `TopLevel.pieces?_eq`: at a separator within ASCII, the pieces can be told character by character.
* `TopLevel.join_pieces`: they make up the text.
-/
namespace BladeView.TopLevel

variable {separator : Char} {part t : Text} {parts : List Text}

/-! ## Pieces -/

/-- The pieces between the top-level occurrences of a character. -/
def pieces (separator : Char) (level : Level) : Text → List Text
  | [] => [[]]
  | c :: cs =>
    if c == '\\' then
      match cs with
      | [] => [[c]]
      | d :: ds => Text.consFirst c (Text.consFirst d (pieces separator level ds))
    else if level.sees c && c == separator then [] :: pieces separator level cs
    else Text.consFirst c (pieces separator (level.next c) cs)

theorem pieces_ne_nil (separator : Char) (level : Level) (t : Text) :
    pieces separator level t ≠ [] := by
  fun_cases pieces separator level t <;> simp [Text.consFirst_ne_nil]

/-- The pieces of a text make up the text. -/
theorem join_pieces (separator : Char) (level : Level) (t : Text) :
    Text.join [separator] (pieces separator level t) = t := by
  fun_induction pieces separator level t with
  | case1 => rfl
  | case2 => simp [Text.join]
  | case3 level c _ d ds ih =>
    rw [Text.join_consFirst _ _ (Text.consFirst_ne_nil _ _),
      Text.join_consFirst _ _ (pieces_ne_nil _ _ _), ih]
  | case4 level c cs _ hc ih =>
    simp only [Bool.and_eq_true, beq_iff_eq] at hc
    rw [Text.join_nil_cons _ (pieces_ne_nil _ _ _), ih, hc.2]
    rfl
  | case5 level c cs _ _ ih => rw [Text.join_consFirst _ _ (pieces_ne_nil _ _ _), ih]

/-- A byte within ASCII is never met within a character. -/
theorem pieces?_eq (h : separator.toNat < 0x80) (level : Level) (t : Text) :
    pieces? separator.toUInt8 level t = some (pieces separator level t) := by
  have hcontains (c : Char) :
      (String.utf8EncodeChar c).contains separator.toUInt8 = (c == separator) := by
    rw [Bool.eq_iff_iff, List.contains_iff_mem, beq_iff_eq, Text.toUInt8_mem_encode h]
  fun_induction pieces separator level t with
  | case1 => rfl
  | case2 level c hc => simp [pieces?, hc]
  | case3 level c hc d ds ih =>
    have htail : separator.toUInt8 ∉ (String.utf8EncodeChar d).tail :=
      fun hmem => Nat.not_lt.2 (Text.high_of_mem_tail hmem) (Text.toNat_toUInt8 h ▸ h)
    rw [pieces?.eq_def]
    simp [hc, htail, ih]
  | case4 level c cs hslash hc ih =>
    have hcode : c.toNat < 0x80 := beq_iff_eq.1 (Bool.and_eq_true_iff.1 hc).2 ▸ h
    rw [pieces?.eq_def]
    simp only [hslash, hcontains, hc, hcode, ih]
    rfl
  | case5 level c cs hslash hc ih =>
    rw [pieces?.eq_def]
    simp only [hslash, hcontains, hc, ih]
    rfl

/-! ## Parts -/

theorem dropEmptyLast_eq (parts : List Text) :
    dropEmptyLast parts = if parts.getLast? = some [] then parts.dropLast else parts := by
  fun_induction dropEmptyLast parts with
  | case1 => rfl
  | case2 part hpart => simp [List.isEmpty_iff.1 hpart]
  | case3 part hpart =>
    have hne : part ≠ [] := by simpa using hpart
    simp [hne]
  | case4 part parts hparts ih =>
    obtain ⟨next, rest, rfl⟩ := List.exists_cons_of_ne_nil (l := parts) (by simpa using hparts)
    rw [ih, List.getLast?_cons_cons, List.dropLast_cons_cons]
    split <;> rfl

theorem mem_of_mem_dropEmptyLast (h : part ∈ dropEmptyLast parts) : part ∈ parts := by
  rw [dropEmptyLast_eq] at h
  split at h
  · exact List.dropLast_subset _ h
  · exact h

theorem dropEmptyLast_eq_self (h : ∀ part ∈ parts, part ≠ []) : dropEmptyLast parts = parts := by
  rw [dropEmptyLast_eq, if_neg fun hlast => h [] (List.mem_of_getLast? hlast) rfl]

theorem split?_eq (h : separator.toNat < 0x80) (t : Text) :
    split? separator.toUInt8 t =
      some (dropEmptyLast ((pieces separator Level.start t).map Text.trim)) := by
  rw [split?, pieces?_eq h, Option.map_some]

theorem split_eq (t : Text) :
    split t = dropEmptyLast ((pieces ',' Level.start t).map Text.trim) := by
  rw [split, split?_eq (by decide), Option.getD_some]

/-- The parts of a text have no blanks around them and are no longer than the text. -/
theorem mem_split (h : part ∈ split t) : Text.trim part = part ∧ part.length ≤ t.length := by
  rw [split_eq] at h
  obtain ⟨piece, hpiece, rfl⟩ := List.mem_map.mp (mem_of_mem_dropEmptyLast h)
  refine ⟨Text.trim_trim piece, ?_⟩
  have hlength := Text.length_le_length_join [','] hpiece
  rw [join_pieces] at hlength
  exact Nat.le_trans (Text.length_trim_le piece) hlength

end BladeView.TopLevel
