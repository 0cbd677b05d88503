import BladeView.Proofs.Text.Basic
import BladeView.Text.Utf8

/-!
# Bytes and back

What a text is encoded to is well-formed, and reading it gives the text back. So the bytes of a
text determine it. An offset in bytes is good if it falls between two characters; the byte at any
other offset is beyond ASCII.
-/
namespace BladeView

open String (length_utf8EncodeChar utf8EncodeChar)

variable {t rest : Text} {ranges : List (UInt8 × UInt8)} {n value : Nat}

/-! ## The bytes of a text -/

private theorem toList_loop (bs : ByteArray) (i : Nat) (read : List UInt8) :
    ByteArray.toList.loop bs i read = read.reverse ++ bs.data.toList.drop i := by
  fun_induction ByteArray.toList.loop bs i read with
  | case1 i read h ih =>
    have hlt : i < bs.data.toList.length := h
    have hget : bs.get! i = bs.data.toList.get ⟨i, hlt⟩ := by
      simp [ByteArray.get!, getElem!_pos bs.data i h]
    rw [ih, List.drop_eq_getElem_cons hlt, hget]
    simp
  | case2 i read h =>
    have hle : bs.data.toList.length ≤ i := Nat.not_lt.mp h
    simp [List.drop_eq_nil_of_le hle]

namespace Text

/-- The bytes of a text are those of its characters in a row. -/
theorem toBytes_eq_flatMap (t : Text) : toBytes t = t.flatMap utf8EncodeChar := by
  have hdata : toBytes t = t.utf8Encode.data.toList := by
    have hloop := toList_loop t.utf8Encode 0 []
    simpa [toBytes, ByteArray.toList] using hloop
  rw [hdata, List.utf8Encode, List.toList_data_toByteArray]

@[simp] theorem toBytes_nil : toBytes [] = [] := by
  simp [toBytes_eq_flatMap]

@[simp] theorem toBytes_cons (c : Char) (t : Text) :
    toBytes (c :: t) = utf8EncodeChar c ++ toBytes t := by
  simp [toBytes_eq_flatMap]

theorem toBytes_append (t u : Text) : toBytes (t ++ u) = toBytes t ++ toBytes u := by
  simp [toBytes_eq_flatMap]

theorem length_toBytes (t : Text) : (toBytes t).length = byteSize t := by
  induction t with
  | nil => simp [byteSize]
  | cons c t ih =>
    rw [toBytes_cons, List.length_append, length_utf8EncodeChar, ih]
    rfl

theorem byteSize_append (t u : Text) : byteSize (t ++ u) = byteSize t + byteSize u := by
  rw [← length_toBytes, toBytes_append, List.length_append, length_toBytes, length_toBytes]

/-- A character is a byte of its own, or all its bytes are beyond ASCII. -/
theorem encode_cases (c : Char) :
    (c.toNat < 0x80 ∧ utf8EncodeChar c = [c.toUInt8]) ∨
      (0x80 ≤ c.toNat ∧ ∀ b ∈ utf8EncodeChar c, 0x80 ≤ b.toNat) := by
  have hnat : c.val.toNat = c.toNat := rfl
  fun_cases utf8EncodeChar c with
  | case1 v hone => exact .inl ⟨by omega, rfl⟩
  | case2 v hone htwo =>
    refine .inr ⟨by omega, fun b hb => ?_⟩
    simp only [List.mem_cons, List.not_mem_nil, or_false] at hb
    rcases hb with rfl | rfl <;> simp only [UInt8.toNat_ofNat'] <;> omega
  | case3 v hone htwo hthree =>
    refine .inr ⟨by omega, fun b hb => ?_⟩
    simp only [List.mem_cons, List.not_mem_nil, or_false] at hb
    rcases hb with rfl | rfl | rfl <;> simp only [UInt8.toNat_ofNat'] <;> omega
  | case4 v hone htwo hthree =>
    refine .inr ⟨by omega, fun b hb => ?_⟩
    simp only [List.mem_cons, List.not_mem_nil, or_false] at hb
    rcases hb with rfl | rfl | rfl | rfl <;> simp only [UInt8.toNat_ofNat'] <;> omega

theorem encode_ascii {c : Char} (hc : c.toNat < 0x80) : utf8EncodeChar c = [c.toUInt8] :=
  (encode_cases c).elim And.right fun h => absurd h.1 (Nat.not_le.2 hc)

/-- No byte beyond ASCII is one of some bytes within it. -/
theorem notMem_of_high {b : UInt8} (hb : 0x80 ≤ b.toNat) {marks : List UInt8}
    (hmarks : (marks.all fun m => m.toNat < 0x80) = true) : b ∉ marks := fun hmem =>
  absurd (of_decide_eq_true (List.all_eq_true.1 hmarks b hmem)) (Nat.not_lt.2 hb)

theorem toNat_toUInt8 {c : Char} (hc : c.toNat < 0x80) : c.toUInt8.toNat = c.toNat :=
  Nat.mod_eq_of_lt (Nat.lt_of_lt_of_le hc (by decide))

theorem toUInt8_inj {c d : Char} (hc : c.toNat < 0x80) (hd : d.toNat < 0x80) :
    c.toUInt8 = d.toUInt8 ↔ c = d := by
  rw [← UInt8.toNat_inj, toNat_toUInt8 hc, toNat_toUInt8 hd, Char.toNat_inj]

theorem toUInt8_mem_encode {c d : Char} (hd : d.toNat < 0x80) :
    d.toUInt8 ∈ utf8EncodeChar c ↔ c = d := by
  rcases encode_cases c with ⟨hc, hone⟩ | ⟨hc, hhigh⟩
  · rw [hone, List.mem_singleton, toUInt8_inj hd hc, eq_comm]
  · refine iff_of_false (fun hmem => Nat.not_lt.2 (hhigh _ hmem) (toNat_toUInt8 hd ▸ hd)) ?_
    rintro rfl
    omega

/-- The bytes of a character after the first are beyond ASCII. -/
theorem high_of_mem_tail {c : Char} {b : UInt8} (h : b ∈ (utf8EncodeChar c).tail) :
    0x80 ≤ b.toNat := by
  rcases encode_cases c with ⟨-, hone⟩ | ⟨-, hhigh⟩
  · rw [hone] at h
    cases h
  · exact hhigh b (List.mem_of_mem_tail h)

theorem exists_encode_eq_cons (c : Char) :
    ∃ first rest, utf8EncodeChar c = first :: rest ∧ ∀ b ∈ rest, 0x80 ≤ b.toNat := by
  obtain ⟨first, rest, hc⟩ := List.exists_cons_of_ne_nil (String.utf8EncodeChar_ne_nil (c := c))
  exact ⟨first, rest, hc, fun b hb => high_of_mem_tail (c := c) (by rwa [hc])⟩

/-! ## Offsets -/

theorem fromByte?_eq_some_iff :
    fromByte? n t = some rest ↔ ∃ before, t = before ++ rest ∧ byteSize before = n := by
  constructor
  · intro h
    fun_induction fromByte? n t with
    | case1 t => exact ⟨[], by simpa using h, rfl⟩
    | case2 => cases h
    | case3 n c cs hsize ih =>
      obtain ⟨before, rfl, hbefore⟩ := ih h
      refine ⟨c :: before, rfl, ?_⟩
      rw [byteSize_cons]
      omega
    | case4 => cases h
  · rintro ⟨before, rfl, rfl⟩
    have hfrom := fromByte?_append before rest 0
    rwa [Nat.add_zero, fromByte?] at hfrom

/-- The bytes from an offset between two characters on are those of the text from there on. -/
theorem drop_toBytes (h : fromByte? n t = some rest) : (toBytes t).drop n = toBytes rest := by
  obtain ⟨before, rfl, rfl⟩ := fromByte?_eq_some_iff.1 h
  rw [toBytes_append, ← length_toBytes before, List.drop_left]

/-- The byte at an offset within a character is beyond ASCII. -/
theorem high_of_fromByte?_eq_none (h : fromByte? n t = none) {b : UInt8}
    (hb : ((toBytes t).drop n).head? = some b) : 0x80 ≤ b.toNat := by
  fun_induction fromByte? n t with
  | case1 => cases h
  | case2 => simp at hb
  | case3 n c cs hsize ih =>
    have hpast : (utf8EncodeChar c).drop (n + 1) = [] := by
      rw [List.drop_eq_nil_iff, length_utf8EncodeChar]
      exact hsize
    rw [toBytes_cons, Nat.succ_eq_add_one, List.drop_append, hpast, List.nil_append,
      length_utf8EncodeChar] at hb
    exact ih h hb
  | case4 n c cs hsize =>
    have hlength := length_utf8EncodeChar c
    rcases encode_cases c with ⟨-, hone⟩ | ⟨-, hhigh⟩
    · rw [hone, List.length_singleton] at hlength
      omega
    · rw [toBytes_cons, Nat.succ_eq_add_one, List.drop_append_of_le_length (by omega)] at hb
      cases hdrop : (utf8EncodeChar c).drop (n + 1) with
      | nil =>
        rw [List.drop_eq_nil_iff] at hdrop
        omega
      | cons first rest =>
        rw [hdrop] at hb
        obtain rfl : first = b := Option.some.inj hb
        exact hhigh first (List.mem_of_mem_drop (hdrop ▸ List.mem_cons_self))

end Text

namespace Utf8

/-! ## One character -/

private theorem toNat_ofNat (h : n < 256) : (UInt8.ofNat n).toNat = n := by
  simpa using Nat.mod_eq_of_lt h

/-- A byte that follows the first adds six bits, if it is in the range that was announced. -/
theorem tails_cons {x : Nat} {low high : UInt8} {bytes : List UInt8} (hx : x < 64)
    (hlow : low.toNat ≤ x + 0x80) (hhigh : x + 0x80 ≤ high.toNat) :
    tails value ((low, high) :: ranges) (UInt8.ofNat (x + 0x80) :: bytes) =
      ((tails (value * 64 + x) ranges bytes).1 + 1, (tails (value * 64 + x) ranges bytes).2) := by
  have hbyte : (UInt8.ofNat (x + 0x80)).toNat = x + 0x80 := toNat_ofNat (by omega)
  have hfits : low ≤ UInt8.ofNat (x + 0x80) ∧ UInt8.ofNat (x + 0x80) ≤ high := by
    rw [UInt8.le_iff_toNat_le, UInt8.le_iff_toNat_le, hbyte]
    exact ⟨hlow, hhigh⟩
  simp only [tails, hbyte, Nat.add_sub_cancel]
  rw [if_pos (by simpa using hfits)]

/-- A byte that only has to be one that follows. -/
theorem tails_cons_any {x : Nat} {bytes : List UInt8} (hx : x < 64) :
    tails value ((0x80, 0xBF) :: ranges) (UInt8.ofNat (x + 0x80) :: bytes) =
      ((tails (value * 64 + x) ranges bytes).1 + 1, (tails (value * 64 + x) ranges bytes).2) :=
  tails_cons hx (Nat.le_add_left ..) (Nat.add_le_add_right (Nat.le_of_lt_succ hx) _)

/-! The ranges after a first byte shut out the characters that fewer bytes could stand for, the
halves of surrogate pairs, and what is beyond the last character. -/

theorem lead?_one : ∀ n : Fin 0x80, lead? (UInt8.ofNat n) = some (n.val, []) := by decide

theorem lead?_two :
    ∀ n : Fin 0x20, 2 ≤ n.val → lead? (UInt8.ofNat (n + 0xC0)) = some (n.val, [(0x80, 0xBF)]) := by
  decide

theorem lead?_three :
    ∀ n : Fin 0x10, lead? (UInt8.ofNat (n + 0xE0)) =
      some (n.val, [(if n.val = 0 then 0xA0 else 0x80, if n.val = 0xD then 0x9F else 0xBF),
        (0x80, 0xBF)]) := by
  decide

theorem lead?_four :
    ∀ n : Fin 5, lead? (UInt8.ofNat (n + 0xF0)) =
      some (n.val, [(if n.val = 0 then 0x90 else 0x80, if n.val = 4 then 0x8F else 0xBF),
        (0x80, 0xBF), (0x80, 0xBF)]) := by
  decide

theorem read_eq {first : UInt8} {rest : List UInt8} {v count : Nat} {c : Char}
    (hlead : lead? first = some (value, ranges))
    (htails : tails value ranges rest = (count, some v)) (hv : v = c.toNat) :
    read first rest = (count, some c) := by
  simp [read, hlead, htails, hv, Char.ofNat_toNat]

/-- A character is read from its bytes, whatever follows them. -/
theorem read_encode (c : Char) (bytes : List UInt8) :
    ∃ first rest, utf8EncodeChar c = first :: rest ∧
      read first (rest ++ bytes) = (rest.length, some c) := by
  have hvalid : c.toNat < 0xD800 ∨ 0xDFFF < c.toNat ∧ c.toNat < 0x110000 := c.valid
  -- one case for each number of bytes
  fun_cases utf8EncodeChar c with
  | case1 v hone =>
    exact ⟨_, _, rfl, read_eq (lead?_one ⟨v, by omega⟩) rfl rfl⟩
  | case2 v hone htwo =>
    have hlead := lead?_two ⟨v / 64 % 0x20, by omega⟩ (by dsimp only; omega)
    refine ⟨_, _, rfl, read_eq (v := v) hlead ?_ rfl⟩
    rw [List.cons_append, tails_cons_any (by omega)]
    simp only [tails, List.length_singleton]
    congr 2
    omega
  | case3 v hone htwo hthree =>
    have hv : v = c.toNat := rfl
    have hlead := lead?_three ⟨v / 4096 % 0x10, by omega⟩
    refine ⟨_, _, rfl, read_eq (v := v) hlead ?_ rfl⟩
    rw [List.cons_append, tails_cons (by omega) (by dsimp only; split <;> simp; omega)
      (by dsimp only; split <;> simp <;> omega), List.cons_append,
      tails_cons_any (by omega)]
    simp only [tails, List.length_cons, List.length_nil]
    congr 2
    omega
  | case4 v hone htwo hthree =>
    have hv : v = c.toNat := rfl
    have hlead := lead?_four ⟨v / 262144 % 0x08, by omega⟩
    refine ⟨_, _, rfl, read_eq (v := v) hlead ?_ rfl⟩
    rw [List.cons_append, tails_cons (by omega) (by dsimp only; split <;> simp; omega)
      (by dsimp only; split <;> simp <;> omega), List.cons_append,
      tails_cons_any (by omega), List.cons_append, tails_cons_any (by omega)]
    simp only [tails, List.length_cons, List.length_nil]
    congr 2
    omega

/-! ## Texts -/

theorem chars_append (read bytes : List UInt8) :
    chars read.length (read ++ bytes) = chars 0 bytes := by
  induction read with
  | nil => rfl
  | cons b read ih => simpa [chars] using ih

theorem chars_toBytes (t : Text) : chars 0 (Text.toBytes t) = t.map some := by
  induction t with
  | nil => simp [chars]
  | cons c t ih =>
    obtain ⟨first, rest, hencode, hread⟩ := read_encode c (Text.toBytes t)
    rw [Text.toBytes_cons, hencode, List.cons_append, chars, hread, chars_append, ih, List.map_cons]

/-- Reading the bytes of a text gives the text. -/
@[simp] theorem decode?_toBytes (t : Text) : decode? (Text.toBytes t) = some t := by
  simp [decode?, chars_toBytes]

end Utf8

/-- Texts with the same bytes are the same. -/
theorem Text.toBytes_injective : Function.Injective Text.toBytes := by
  intro s t h
  have hdecode := congrArg Utf8.decode? h
  simpa using hdecode

end BladeView
