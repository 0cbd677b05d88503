import BladeView.Name
import BladeView.Proofs.Text.Basic

/-!
# The characters of names

The classes of characters that names are made of, and how they relate to each other and to the
blanks.
-/
namespace BladeView

variable {c : Char}

/-! ## Ranges -/

/-- What holds of each ASCII code holds of each ASCII character. -/
theorem forall_ascii {P : Char → Prop} (h : ∀ n < 0x80, P (.ofNat n)) (hc : c.toNat < 0x80) : P c :=
  Char.ofNat_toNat c ▸ h c.toNat hc

theorem isDigit_iff : c.isDigit = true ↔ 48 ≤ c.toNat ∧ c.toNat ≤ 57 := by
  delta Char.isDigit
  simp [UInt32.le_iff_toNat_le]

theorem isAlpha_iff :
    c.isAlpha = true ↔ (65 ≤ c.toNat ∧ c.toNat ≤ 90) ∨ (97 ≤ c.toNat ∧ c.toNat ≤ 122) := by
  delta Char.isAlpha Char.isUpper Char.isLower
  simp [UInt32.le_iff_toNat_le]

/-! ## Classes -/

theorem ascii_of_isNameChar (h : isNameChar c = true) : c.toNat < 0x80 := by
  simp only [isNameChar, Char.isAlphanum, Bool.or_eq_true, isAlpha_iff, isDigit_iff,
    beq_iff_eq] at h
  rcases h with (h | rfl) | rfl
  · omega
  all_goals decide

theorem isBlank_eq_false_of_isNameChar (h : isNameChar c = true) : isBlank c = false :=
  forall_ascii (P := fun c => isNameChar c = true → isBlank c = false) (by decide +kernel)
    (ascii_of_isNameChar h) h

theorem isNameChar_eq_false_of_isBlank (h : isBlank c = true) : isNameChar c = false := by
  cases hname : isNameChar c with
  | false => rfl
  | true => simp [isBlank_eq_false_of_isNameChar hname] at h

theorem isNameChar_of_isNameStart (h : isNameStart c = true) : isNameChar c = true := by
  simp only [isNameStart, Bool.or_eq_true] at h
  rcases h with h | h <;> simp [isNameChar, Char.isAlphanum, h]

theorem isNameChar_of_isDigit (h : c.isDigit = true) : isNameChar c = true := by
  simp [isNameChar, Char.isAlphanum, h]

theorem isNameStart_eq_false_of_isDigit (h : c.isDigit = true) : isNameStart c = false :=
  forall_ascii (P := fun c => c.isDigit = true → isNameStart c = false) (by decide +kernel)
    (ascii_of_isNameChar (isNameChar_of_isDigit h)) h

theorem eq_dollar (hc : isNameChar c = true) (hstart : isNameStart c = false)
    (hdigit : c.isDigit = false) : c = '$' := by
  simp only [isNameStart, Bool.or_eq_false_iff] at hstart
  simpa [isNameChar, Char.isAlphanum, hstart.1, hstart.2, hdigit] using hc

theorem isNameStart_eq_false (h : isNameChar c = false) : isNameStart c = false := by
  cases hstart : isNameStart c with
  | false => rfl
  | true => simp [isNameChar_of_isNameStart hstart] at h

theorem isDigit_eq_false (h : isNameChar c = false) : c.isDigit = false := by
  cases hdigit : c.isDigit with
  | false => rfl
  | true => simp [isNameChar_of_isDigit hdigit] at h

theorem isNameChar_ne {d : Char} (hc : isNameChar c = true) (hd : isNameChar d = false) :
    c ≠ d := by
  rintro rfl
  rw [hc] at hd
  cases hd

/-- An identifier starts like a name and is made of the characters of names. -/
theorem Name.isIdentifier_spec {name : Text} (h : isIdentifier name = true) :
    (∃ c rest, name = c :: rest ∧ isNameStart c = true) ∧ ∀ c ∈ name, isNameChar c = true := by
  cases name with
  | nil => cases h
  | cons c rest =>
    simp only [isIdentifier, Bool.and_eq_true, List.all_eq_true] at h
    exact ⟨⟨c, rest, rfl, h.1⟩, List.forall_mem_cons.mpr ⟨isNameChar_of_isNameStart h.1, h.2⟩⟩

end BladeView
