import BladeView.Proofs.Group.Grammar
import BladeView.Proofs.Group.Reading
import BladeView.Proofs.Text.Utf8
import BladeView.Proofs.Text.Word

/-!
# Groups at byte offsets

A text is read character by character, while offsets and the grammar of groups are in bytes. All
delimiters, marks and the backslash are ASCII, and the bytes of the other characters are not, so
reading characters and counting over bytes come to the same end. That holds also where a backslash
hides only the first byte of a longer character: the other bytes of the character are passed over.

## Main statements

* `Group.at?_closing_iff_isGroupAt`: what is found at an offset is described by the grammar, and all
  offsets that are given fall between characters.
-/
namespace BladeView.Group

open Text (byteSize encode_ascii encode_cases toBytes toBytes_cons toUInt8_inj)

namespace Bytes

/-! ## Characters and their bytes -/

section Ascii

variable {c : Char}

theorem toUInt8_mem_quotes (hc : c.toNat < 0x80) : c.toUInt8 ∈ quotes ↔ isQuote c = true :=
  forall_ascii (P := fun c => c.toUInt8 ∈ quotes ↔ isQuote c = true) (by decide +kernel) hc

theorem toUInt8_ne_backslash (hc : c.toNat < 0x80) (hslash : c ≠ '\\') : c.toUInt8 ≠ backslash :=
  fun h => hslash ((toUInt8_inj (d := '\\') hc (by decide)).1 h)

theorem ne_of_high {b : UInt8} (hb : 0x80 ≤ b.toNat) {d : Char} (hd : d.toNat < 0x80) :
    b ≠ d.toUInt8 := by
  rintro rfl
  rw [Text.toNat_toUInt8 hd] at hb
  omega

theorem ascii_of_isQuote (h : isQuote c = true) : c.toNat < 0x80 := by
  simp only [isQuote, Bool.or_eq_true, beq_iff_eq] at h
  rcases h with (rfl | rfl) | rfl <;> decide

end Ascii

/-- The delimiters of a text and those of its bytes. -/
structure Pair (opening closing : Char) : Prop where
  mem : (opening.toUInt8, closing.toUInt8) ∈ delimiters
  opening_ascii : opening.toNat < 0x80
  closing_ascii : closing.toNat < 0x80

theorem pair_of_closer? {opening closing : Char} (h : closer? opening = some closing) :
    Pair opening closing := by
  unfold closer? at h
  split at h
  case h_4 => cases h
  all_goals
    obtain rfl := Option.some.inj h
    exact ⟨by decide, by decide, by decide⟩

theorem lookup_toUInt8 {c : Char} (hc : c.toNat < 0x80) :
    delimiters.lookup c.toUInt8 = (closer? c).map Char.toUInt8 :=
  forall_ascii (P := fun c => delimiters.lookup c.toUInt8 = (closer? c).map Char.toUInt8)
    (by decide +kernel) hc

theorem lookup_high {b : UInt8} (h : 0x80 ≤ b.toNat) : delimiters.lookup b = none := by
  rw [Option.eq_none_iff_forall_ne_some]
  intro closing hsome
  have hmem := lookup_delimiters.1 hsome
  simp only [delimiters, List.mem_cons, List.not_mem_nil, or_false, Prod.mk.injEq] at hmem
  rcases hmem with ⟨rfl, -⟩ | ⟨rfl, -⟩ | ⟨rfl, -⟩ <;> simp at h

/-! ## Bytes beyond ASCII -/

section High

variable {opening closing : Char} {depth : Nat} {quote : Option Char} {offset : Nat}

/-- The count that reading stands for. The group that is read is open besides those in it. -/
def count (depth : Nat) (quote : Option Char) : Count := ⟨depth + 1, quote.map Char.toUInt8⟩

theorem depth_count_ne_zero : (count depth quote).depth ≠ 0 := by
  have h : (count depth quote).depth = (depth : Int) + 1 := rfl
  omega

theorem next_high (hpair : Pair opening closing) (hquote : ∀ q, quote = some q → isQuote q = true)
    {b : UInt8} (hb : 0x80 ≤ b.toNat) :
    (count depth quote).next opening.toUInt8 closing.toUInt8 b = count depth quote := by
  cases quote with
  | some q => exact if_neg (ne_of_high hb (ascii_of_isQuote (hquote q rfl)))
  | none =>
    exact next_other (Text.notMem_of_high hb (by decide)) (ne_of_high hb hpair.opening_ascii)
      (ne_of_high hb hpair.closing_ascii)

/-- Bytes beyond ASCII are passed over. -/
theorem close?_high (hpair : Pair opening closing)
    (hquote : ∀ q, quote = some q → isQuote q = true) {high bs : List UInt8}
    (h : ∀ b ∈ high, 0x80 ≤ b.toNat) :
    close? opening.toUInt8 closing.toUInt8 (count depth quote) offset (high ++ bs) =
      close? opening.toUInt8 closing.toUInt8 (count depth quote) (offset + high.length) bs := by
  induction high generalizing offset with
  | nil => rfl
  | cons b high ih =>
    have hb := h b List.mem_cons_self
    have hslash : b ≠ backslash := ne_of_high hb (d := '\\') (by decide)
    rw [List.cons_append, close?_cons hslash, next_high hpair hquote hb,
      if_neg depth_count_ne_zero, ih fun b' hb' => h b' (List.mem_cons_of_mem _ hb'),
      List.length_cons]
    congr 1
    omega

end High

/-! ## Reading and counting -/

section Reading

variable {opening closing c : Char} {depth : Nat} {quote : Option Char} {offset : Nat}

theorem encode_backslash : String.utf8EncodeChar '\\' = [backslash] := by decide

/-- A backslash hides the first byte of a character; its other bytes are passed over. -/
theorem close?_hidden (hpair : Pair opening closing)
    (hquote : ∀ q, quote = some q → isQuote q = true) (d : Char) (bs : List UInt8) :
    close? opening.toUInt8 closing.toUInt8 (count depth quote) offset
        (backslash :: (String.utf8EncodeChar d ++ bs)) =
      close? opening.toUInt8 closing.toUInt8 (count depth quote) (offset + 1 + d.utf8Size) bs := by
  obtain ⟨first, rest, hd, hrest⟩ := Text.exists_encode_eq_cons d
  rw [← String.length_utf8EncodeChar d, hd, List.cons_append, close?_escape,
    close?_high hpair hquote hrest, List.length_cons]
  congr 1
  omega

/-- What stands before the inside of a group moves the place where it ends. -/
theorem map_extend {before : Text} {found : Option (Text × Text)} {n m : Nat}
    (h : n + byteSize before = m) :
    (extend before found).map (fun found => n + byteSize found.1) =
      found.map fun found => m + byteSize found.1 := by
  subst h
  cases found with
  | none => rfl
  | some found => simp [extend, Text.byteSize_append, Nat.add_assoc]

/-- A character that does not end the group: only an ASCII character changes the count. -/
theorem close?_step (hpair : Pair opening closing)
    (hquote : ∀ q, quote = some q → isQuote q = true) (hslash : ¬ (c == '\\') = true) {t : Text}
    {depth' : Nat} {quote' : Option Char} {found : Option (Text × Text)}
    (hascii : c.toNat < 0x80 → (count depth quote).next opening.toUInt8 closing.toUInt8 c.toUInt8 =
      count depth' quote')
    (hhigh : 0x80 ≤ c.toNat → depth' = depth ∧ quote' = quote)
    (hrest : close? opening.toUInt8 closing.toUInt8 (count depth' quote') (offset + c.utf8Size)
        (toBytes t) = found.map fun found => offset + c.utf8Size + byteSize found.1) :
    close? opening.toUInt8 closing.toUInt8 (count depth quote) offset (toBytes (c :: t)) =
      (extend [c] found).map fun found => offset + byteSize found.1 := by
  rw [map_extend (m := offset + c.utf8Size) rfl, ← hrest, toBytes_cons,
    ← String.length_utf8EncodeChar c]
  rcases encode_cases c with ⟨hc, hone⟩ | ⟨hc, hbytes⟩
  · rw [hone, List.singleton_append, close?_cons (toUInt8_ne_backslash hc (by simpa using hslash)),
      hascii hc, if_neg depth_count_ne_zero]
    rfl
  · obtain ⟨rfl, rfl⟩ := hhigh hc
    exact close?_high hpair hquote hbytes

theorem size_of_ascii (hc : c.toNat < 0x80) : c.utf8Size = 1 := by
  rw [← String.length_utf8EncodeChar c, encode_ascii hc, List.length_singleton]

/-! The steps of the count, by characters. -/

theorem next_quoted_char {q : Char} (hc : c.toNat < 0x80) (hq : isQuote q = true) :
    (count depth (some q)).next opening.toUInt8 closing.toUInt8 c.toUInt8 =
      count depth (if c == q then none else some q) := by
  have hiff := toUInt8_inj hc (ascii_of_isQuote hq)
  by_cases h : c = q
  · subst h
    simp [count]
  · simp [count, hiff, h]

theorem notMem_quotes (hc : c.toNat < 0x80) (hmark : ¬ isQuote c = true) : c.toUInt8 ∉ quotes :=
  fun hmem => hmark ((toUInt8_mem_quotes hc).1 hmem)

theorem next_other_char (hpair : Pair opening closing) (hc : c.toNat < 0x80)
    (hmark : ¬ isQuote c = true) (hopening : ¬ (c == opening) = true)
    (hclosing : ¬ (c == closing) = true) :
    (count depth none).next opening.toUInt8 closing.toUInt8 c.toUInt8 = count depth none := by
  refine next_other (notMem_quotes hc hmark) ?_ ?_
  · exact fun h => hopening (beq_iff_eq.2 ((toUInt8_inj hc hpair.opening_ascii).1 h))
  · exact fun h => hclosing (beq_iff_eq.2 ((toUInt8_inj hc hpair.closing_ascii).1 h))

/-- Counting over the bytes of a text ends where reading the text does. -/
theorem close?_toBytes (hpair : Pair opening closing)
    (hquote : ∀ q, quote = some q → isQuote q = true) (t : Text) :
    close? opening.toUInt8 closing.toUInt8 (count depth quote) offset (toBytes t) =
      (inside? opening closing depth quote t).map fun found =>
        offset + byteSize found.1 := by
  have hd := distinct_of_mem hpair.mem
  fun_induction inside? opening closing depth quote t generalizing offset
  case case1 => simp
  case case2 c hc =>
    obtain rfl : c = '\\' := by simpa using hc
    simp [encode_backslash]
  case case3 c hc d ds ih =>
    obtain rfl : c = '\\' := by simpa using hc
    have hsize : offset + byteSize ['\\', d] = offset + 1 + d.utf8Size :=
      (Nat.add_assoc offset 1 d.utf8Size).symm
    rw [toBytes_cons, encode_backslash, List.singleton_append, toBytes_cons,
      close?_hidden hpair hquote, ih hquote, map_extend hsize]
  case case4 c cs hslash q ih =>
    have hq := hquote q rfl
    refine close?_step hpair hquote hslash (fun hc => next_quoted_char hc hq) (fun hc => ?_)
      (ih fun r hr => ?_)
    · have hne : c ≠ q := by
        rintro rfl
        have hascii := ascii_of_isQuote hq
        omega
      exact ⟨rfl, if_neg (by simpa using hne)⟩
    · split at hr
      · cases hr
      · exact hquote r hr
  case case5 c cs hslash hmark ih =>
    have hascii := ascii_of_isQuote hmark
    refine close?_step hpair hquote hslash (fun hc => next_quote ((toUInt8_mem_quotes hc).2 hmark))
      (fun hc => absurd hc (by omega)) (ih fun q hq => ?_)
    exact Option.some.inj hq ▸ hmark
  case case6 c cs hslash hmark hopening ih =>
    obtain rfl := beq_iff_eq.1 hopening
    have hascii := hpair.opening_ascii
    exact close?_step hpair hquote hslash (fun _ => next_opening hd)
      (fun hc => absurd hc (by omega)) (ih hquote)
  case case7 c cs hslash hmark hopening hclosing =>
    obtain rfl := beq_iff_eq.1 hclosing
    have hnext : (count 0 none).next opening.toUInt8 c.toUInt8 c.toUInt8 = ⟨0, none⟩ :=
      next_closing hd
    rw [toBytes_cons, encode_ascii hpair.closing_ascii, List.singleton_append,
      close?_cons hd.closing_ne_backslash, hnext]
    rfl
  case case8 c cs hslash hmark hopening hclosing outer ih =>
    obtain rfl := beq_iff_eq.1 hclosing
    have hascii := hpair.closing_ascii
    have hcount : (⟨(outer + 1 : Nat) + 1 - 1, none⟩ : Count) = count outer none := by
      simp [count]
    exact close?_step hpair hquote hslash (fun _ => (next_closing hd).trans hcount)
      (fun hc => absurd hc (by omega)) (ih hquote)
  case case9 c cs hslash hmark hopening hclosing ih =>
    exact close?_step hpair hquote hslash
      (fun hc => next_other_char hpair hc hmark hopening hclosing) (fun _ => ⟨rfl, rfl⟩) (ih hquote)

end Reading

end Bytes

/-! ## Groups at an offset -/

/-- The group at an offset, from the character that stands there. -/
theorem at?_eq {t cs : Text} {offset : Nat} {c : Char}
    (h : Text.fromByte? offset t = some (c :: cs)) :
    at? t offset = (closer? c).bind fun closing => (inside? c closing 0 none cs).map fun found =>
      ⟨offset, offset + 1 + byteSize found.1, found.1⟩ := by
  rw [at?, h, Option.bind_eq_bind, Option.bind_some, read?]
  cases closer? c with
  | none => rfl
  | some closing =>
    simp only [Option.bind_eq_bind, Option.bind_some]
    cases inside? c closing 0 none cs <;> rfl

/-- The scan of the bytes ends where the group at an offset does. -/
theorem closed?_scan (t : Text) (offset : Nat) :
    Bytes.closed? (Bytes.scan (toBytes t) offset) = (at? t offset).map Span.closing := by
  rw [Bytes.scan]
  cases hfrom : Text.fromByte? offset t with
  | none =>
    have hat : at? t offset = none := by rw [at?, hfrom]; rfl
    rw [hat]
    split
    case h_1 => rfl
    case h_2 b rest hdrop =>
      rw [Bytes.lookup_high (Text.high_of_fromByte?_eq_none hfrom (by rw [hdrop]; rfl))]
      rfl
  | some rest =>
    rw [Text.drop_toBytes hfrom]
    cases rest with
    | nil =>
      have hat : at? t offset = none := by rw [at?, hfrom]; rfl
      rw [hat, Text.toBytes_nil]
      rfl
    | cons c cs =>
      rw [at?_eq hfrom, toBytes_cons]
      rcases encode_cases c with ⟨hc, hone⟩ | ⟨hc, hhigh⟩
      · rw [hone, List.singleton_append]
        cases hcloser : closer? c with
        | none =>
          simp only [Bytes.lookup_toUInt8 hc, hcloser]
          rfl
        | some closing =>
          have hpair := Bytes.pair_of_closer? hcloser
          have hquote : ∀ q, (none : Option Char) = some q → isQuote q = true := by simp
          have hread : Bytes.close? c.toUInt8 closing.toUInt8 (Bytes.count 0 none) (offset + 1)
              (toBytes cs) = (inside? c closing 0 none cs).map fun found =>
                offset + 1 + byteSize found.1 :=
            Bytes.close?_toBytes hpair hquote cs
          simp only [Bytes.lookup_toUInt8 hc, hcloser, Option.map_some]
          refine (Bytes.close?_opening (Bytes.distinct_of_mem hpair.mem)).trans (hread.trans ?_)
          rw [Option.bind_some, Option.map_map]
          rfl
      · cases hbytes : String.utf8EncodeChar c with
        | nil => exact absurd hbytes String.utf8EncodeChar_ne_nil
        | cons first rest =>
          have hcloser : closer? c = none := by
            rw [Option.eq_none_iff_forall_ne_some]
            intro closing hsome
            have hascii := (Bytes.pair_of_closer? hsome).opening_ascii
            omega
          have hfirst := Bytes.lookup_high (hhigh first (hbytes ▸ List.mem_cons_self))
          simp only [List.cons_append, hfirst, hcloser]
          rfl

/-- An offset that falls between two characters of a text, or at one of its ends. -/
def IsBoundary (t : Text) (offset : Nat) : Prop :=
  ∃ before after, t = before ++ after ∧ byteSize before = offset

/-- The delimiters of a group and what follows it start between characters. -/
theorem isBoundary_of_at? {t : Text} {offset : Nat} {s : Span} (h : at? t offset = some s) :
    s.opening = offset ∧ IsBoundary t s.opening ∧ IsBoundary t s.closing ∧
      IsBoundary t s.ending := by
  cases hfrom : Text.fromByte? offset t with
  | none =>
    rw [at?, hfrom] at h
    cases h
  | some rest =>
    obtain ⟨before, rfl, hbefore⟩ := Text.fromByte?_eq_some_iff.1 hfrom
    cases rest with
    | nil =>
      rw [at?, hfrom] at h
      cases h
    | cons c cs =>
      rw [at?_eq hfrom] at h
      obtain ⟨closing, hcloser, hmap⟩ := Option.bind_eq_some_iff.1 h
      obtain ⟨⟨inner, after⟩, hread, rfl⟩ := Option.map_eq_some_iff.1 hmap
      have hpair := Bytes.pair_of_closer? hcloser
      have hopening := Bytes.size_of_ascii hpair.opening_ascii
      have hclosing := Bytes.size_of_ascii hpair.closing_ascii
      obtain rfl := inside?_eq_some hread
      refine ⟨rfl, ⟨before, _, rfl, hbefore⟩, ⟨before ++ c :: inner, closing :: after, by simp, ?_⟩,
        ⟨before ++ c :: inner ++ [closing], after, by simp, ?_⟩⟩
      · rw [Text.byteSize_append, Text.byteSize_cons]
        dsimp only
        omega
      · have hone : byteSize [closing] = 1 := hclosing
        rw [Text.byteSize_append, Text.byteSize_append, Text.byteSize_cons, Span.ending]
        dsimp only
        omega

/-- **The groups of the grammar are found, and nothing else.** The group at an offset ends where
one of the grammar does, and there is none just if none of the grammar starts there. The scan that
counts gives the same answer, its depth never goes below zero, and all offsets that are given fall
between characters. -/
theorem at?_closing_iff_isGroupAt (t : Text) (offset : Nat) :
    (∀ last, (at? t offset).map Span.closing = some last ↔
      Bytes.IsGroupAt (Text.toBytes t) offset last) ∧
    (at? t offset = none ↔ ∀ last, ¬ Bytes.IsGroupAt (Text.toBytes t) offset last) ∧
    (Bytes.closed? (Bytes.scan (Text.toBytes t) offset) = (at? t offset).map Span.closing ∧
      ∀ visit ∈ Bytes.scan (Text.toBytes t) offset, 0 ≤ visit.2) ∧
    ∀ s, at? t offset = some s → s.opening = offset ∧ IsBoundary t s.opening ∧
      IsBoundary t s.closing ∧ IsBoundary t s.ending := by
  have hclosing : ∀ last, (at? t offset).map Span.closing = some last ↔
      Bytes.IsGroupAt (Text.toBytes t) offset last := by
    intro last
    rw [← closed?_scan, Bytes.closed?_scan_eq_some_iff]
  refine ⟨hclosing, ?_, ⟨closed?_scan t offset, fun visit => Bytes.depth_nonneg_of_mem_scan⟩,
    fun s => isBoundary_of_at?⟩
  rw [← Option.map_eq_none_iff (f := Span.closing), Option.eq_none_iff_forall_ne_some]
  exact forall_congr' fun last => not_congr (hclosing last)

/-- A backslash hides the first of two bytes, and a quoted run hides a parenthesis. -/
theorem at?_closing_iff_isGroupAt_hidden :
    ∃ s, at? "é(\\é')'(x))z" 2 = some s ∧ s.closing = 12 ∧
      Bytes.IsGroupAt (Text.toBytes "é(\\é')'(x))z") 2 12 ∧
      IsBoundary "é(\\é')'(x))z" 2 ∧ IsBoundary "é(\\é')'(x))z" 12 ∧
      IsBoundary "é(\\é')'(x))z" 13 := by
  have hclosing : (at? "é(\\é')'(x))z" 2).map Span.closing = some 12 := by decide +kernel
  obtain ⟨hgroup, -, -, hoffsets⟩ := at?_closing_iff_isGroupAt "é(\\é')'(x))z" 2
  obtain ⟨s, hat, hlast⟩ := Option.map_eq_some_iff.1 hclosing
  obtain ⟨hopens, hopening, hcloses, hending⟩ := hoffsets s hat
  rw [hopens] at hopening
  rw [Span.ending, hlast] at hending
  rw [hlast] at hcloses
  exact ⟨s, hat, hlast, (hgroup 12).1 hclosing, hopening, hcloses, hending⟩

end BladeView.Group
