import BladeView.Proofs.Group.Offsets
import BladeView.TopLevel

/-!
# Walking over bytes

The top level of a text said in bytes: a walk over them ends there if it is outside of quotes, has
met as many closing brackets as opening ones, and has no backslash left that would hide what comes
next. Following the levels of a text character by character comes to the same end, also where a
backslash hides only the first byte of a longer character.

## Main statements

* `TopLevel.atTop_iff`: walking over bytes and following levels agree.
* `TopLevel.meets_char`, `TopLevel.meets_escaped`: where a byte is met at the top level.
-/
namespace BladeView

open Group.Bytes (ascii_of_isQuote backslash encode_backslash ne_of_high quotes toUInt8_mem_quotes
  toUInt8_ne_backslash)
open List (cons_append exists_cons_of_ne_nil forall_mem_cons singleton_append)
open String (utf8EncodeChar utf8EncodeChar_ne_nil)
open Text (encode_ascii encode_cases high_of_mem_tail notMem_of_high toBytes toBytes_append
  toBytes_cons toNat_toUInt8 toUInt8_inj)

variable {t : Text}

namespace TopLevel

/-! ## Walking over bytes -/

/-- Where a walk stands: the mark of the quoted run it is in, and how many more brackets were opened
than closed. -/
structure Walk where
  quote : Option UInt8 := none
  depth : Int := 0
  deriving DecidableEq

/-- `(`, `[` and `{`. -/
def openers : List UInt8 := [0x28, 0x5B, 0x7B]

/-- `)`, `]` and `}`. -/
def closers : List UInt8 := [0x29, 0x5D, 0x7D]

namespace Walk

/-- One more byte, which no backslash precedes. -/
def next (w : Walk) (b : UInt8) : Walk :=
  match w.quote with
  | some q => if b = q then { w with quote := none } else w
  | none =>
    if b ∈ quotes then { w with quote := some b }
    else if b ∈ openers then { w with depth := w.depth + 1 }
    else if b ∈ closers then { w with depth := w.depth - 1 }
    else w

/-- The walk after some bytes. A backslash hides the byte after it; there is no such walk if one is
left at the end. -/
def over? (w : Walk) : List UInt8 → Option Walk
  | [] => some w
  | b :: bs =>
    if b = backslash then
      match bs with
      | [] => none
      | _ :: bs => over? w bs
    else over? (w.next b) bs

/-- A byte is met where the walk is at the top level. -/
def Meets (w : Walk) (b : UInt8) (bs : List UInt8) : Prop :=
  ∃ before after, bs = before ++ b :: after ∧ w.over? before = some {}

variable {w : Walk} {b x : UInt8} {bs : List UInt8}

theorem over?_cons (hx : x ≠ backslash) : w.over? (x :: bs) = (w.next x).over? bs := by
  rw [over?.eq_def]
  simp [hx]

theorem not_meets_nil : ¬ w.Meets b [] := by
  rintro ⟨before, after, heq, -⟩
  simp at heq

theorem meets_cons (hx : x ≠ backslash) :
    w.Meets b (x :: bs) ↔ x = b ∧ w = {} ∨ (w.next x).Meets b bs := by
  constructor
  · rintro ⟨_ | ⟨y, before⟩, after, heq, hover⟩
    · exact .inl ⟨(List.cons.inj heq).1, Option.some.inj hover⟩
    · obtain ⟨rfl, rfl⟩ := List.cons.inj heq
      rw [over?_cons hx] at hover
      exact .inr ⟨before, after, rfl, hover⟩
  · rintro (⟨rfl, rfl⟩ | ⟨before, after, rfl, hover⟩)
    · exact ⟨[], bs, rfl, rfl⟩
    · exact ⟨x :: before, after, rfl, (over?_cons hx).trans hover⟩

theorem meets_backslash (hb : b ≠ backslash) :
    w.Meets b (backslash :: bs) ↔ w.Meets b bs.tail := by
  constructor
  · rintro ⟨_ | ⟨y, before⟩, after, heq, hover⟩
    · exact absurd (List.cons.inj heq).1.symm hb
    · obtain ⟨rfl, rfl⟩ := List.cons.inj heq
      cases before with
      | nil => simp [over?] at hover
      | cons z before => exact ⟨before, after, rfl, by simpa [over?] using hover⟩
  · rintro ⟨before, after, htail, hover⟩
    cases bs with
    | nil => simp at htail
    | cons z bs =>
      obtain rfl : bs = before ++ b :: after := htail
      exact ⟨backslash :: z :: before, after, rfl, by simpa [over?] using hover⟩

end Walk

/-- A walk over the bytes ends at the top level: outside of quotes, at depth zero, and with no
backslash left. -/
def AtTop (bs : List UInt8) : Prop := Walk.over? {} bs = some {}

end TopLevel

/-! ## Levels -/

deriving instance DecidableEq for Level

namespace Level

/-- The level after a text; none if a backslash is left at its end. -/
def over? (l : Level) : Text → Option Level
  | [] => some l
  | c :: cs =>
    if c == '\\' then
      match cs with
      | [] => none
      | _ :: ds => over? l ds
    else over? (l.next c) cs

theorem over?_cons {l : Level} {c : Char} (hc : c ≠ '\\') (t : Text) :
    l.over? (c :: t) = (l.next c).over? t := by
  rw [over?.eq_def]
  simp [hc]

theorem over?_append {l m : Level} (h : l.over? t = some m) (u : Text) :
    l.over? (t ++ u) = m.over? u := by
  fun_induction over? l t with
  | case1 l => rw [← Option.some.inj h]; rfl
  | case2 => cases h
  | case3 l c hc d ds ih =>
    rw [← ih h, cons_append, cons_append, over?.eq_def]
    simp [hc]
  | case4 l c cs hc ih =>
    rw [← ih h, cons_append, over?_cons (by simpa using hc)]

/-- The level as a walk over bytes has it. -/
def toWalk (l : Level) : TopLevel.Walk := ⟨l.quote.map Char.toUInt8, l.depth⟩

theorem toWalk_eq_iff {l : Level} : l.toWalk = {} ↔ l = start := by
  obtain ⟨quote, depth⟩ := l
  simp [toWalk, start]

theorem isTop_iff {l : Level} : l.isTop = true ↔ l = start := by
  obtain ⟨quote, depth⟩ := l
  simp [isTop, start]

/-- Only marks open quoted runs. -/
def IsProper (l : Level) : Prop := ∀ q, l.quote = some q → isQuote q = true

theorem isProper_start : start.IsProper := fun q hq => by cases hq

theorem IsProper.next {l : Level} (hl : l.IsProper) (c : Char) : (l.next c).IsProper := by
  intro q hq
  unfold Level.next at hq
  split at hq
  case h_1 mark hmark =>
    split at hq
    · cases hq
    · exact hl q hq
  case h_2 hnone =>
    split at hq
    case isTrue hc => exact Option.some.inj hq ▸ hc
    case isFalse =>
      have hsame : l.quote = some q := by
        split at hq
        · exact hq
        · split at hq <;> exact hq
      exact hl q hsame

end Level

namespace TopLevel

open Level (isClosing isOpening isProper_start start toWalk toWalk_eq_iff)

/-! ## Bytes and characters -/

section Ascii

variable {c : Char}

theorem toUInt8_mem_openers (hc : c.toNat < 0x80) : c.toUInt8 ∈ openers ↔ isOpening c = true :=
  forall_ascii (P := fun c => c.toUInt8 ∈ openers ↔ isOpening c = true) (by decide +kernel) hc

theorem toUInt8_mem_closers (hc : c.toNat < 0x80) : c.toUInt8 ∈ closers ↔ isClosing c = true :=
  forall_ascii (P := fun c => c.toUInt8 ∈ closers ↔ isClosing c = true) (by decide +kernel) hc

/-- A byte within ASCII is met in the bytes of a text just where its character is. -/
theorem exists_of_toBytes_eq (hc : c.toNat < 0x80) {bs bs' : List UInt8}
    (h : toBytes t = bs ++ c.toUInt8 :: bs') :
    ∃ before after, t = before ++ c :: after ∧ toBytes before = bs ∧ toBytes after = bs' := by
  have hlow := Nat.not_le.2 ((toNat_toUInt8 hc).symm ▸ hc)
  cases hfrom : Text.fromByte? bs.length t with
  | none =>
    refine absurd (Text.high_of_fromByte?_eq_none hfrom ?_) hlow
    rw [h, List.drop_left]
    rfl
  | some rest =>
    obtain ⟨before, rfl, hsize⟩ := Text.fromByte?_eq_some_iff.1 hfrom
    rw [toBytes_append] at h
    obtain ⟨hbefore, hrest⟩ := List.append_inj h (by rw [Text.length_toBytes, hsize])
    cases rest with
    | nil => simp at hrest
    | cons d after =>
      obtain ⟨first, more, hd⟩ := exists_cons_of_ne_nil (utf8EncodeChar_ne_nil (c := d))
      rw [toBytes_cons, hd, cons_append] at hrest
      obtain rfl : d = c := (Text.toUInt8_mem_encode hc).1 (by simp [hd, (List.cons.inj hrest).1])
      rw [encode_ascii hc] at hd
      rw [← (List.cons.inj hd).2] at hrest
      exact ⟨before, after, rfl, hbefore, (List.cons.inj hrest).2⟩

theorem next_toUInt8 {l : Level} (hl : l.IsProper) (hc : c.toNat < 0x80) :
    l.toWalk.next c.toUInt8 = (l.next c).toWalk := by
  obtain ⟨quote, depth⟩ := l
  cases quote with
  | some q =>
    have hiff := toUInt8_inj hc (ascii_of_isQuote (hl q rfl))
    by_cases h : c = q
    · simp [toWalk, Level.next, Walk.next, h]
    · simp [toWalk, Level.next, Walk.next, hiff, h]
  | none =>
    simp only [toWalk, Walk.next, Level.next, Option.map_none,
      toUInt8_mem_quotes hc, toUInt8_mem_openers hc, toUInt8_mem_closers hc]
    split_ifs <;> rfl

end Ascii

section High

variable {l : Level}

theorem next_byte (hl : l.IsProper) {b : UInt8} (hb : 0x80 ≤ b.toNat) :
    b ≠ backslash ∧ l.toWalk.next b = l.toWalk := by
  refine ⟨ne_of_high hb (d := '\\') (by decide), ?_⟩
  obtain ⟨quote, depth⟩ := l
  cases quote with
  | some q => exact if_neg (ne_of_high hb (ascii_of_isQuote (hl q rfl)))
  | none =>
    have hquotes : b ∉ quotes := notMem_of_high hb (by decide)
    have hopeners : b ∉ openers := notMem_of_high hb (by decide)
    have hclosers : b ∉ closers := notMem_of_high hb (by decide)
    simp [toWalk, Walk.next, hquotes, hopeners, hclosers]

/-- The bytes beyond ASCII are passed over. -/
theorem over?_high (hl : l.IsProper) {high : List UInt8} (h : ∀ b ∈ high, 0x80 ≤ b.toNat)
    (bs : List UInt8) : l.toWalk.over? (high ++ bs) = l.toWalk.over? bs := by
  induction high with
  | nil => rfl
  | cons x high ih =>
    obtain ⟨hx, hhigh⟩ := forall_mem_cons.1 h
    obtain ⟨hslash, hnext⟩ := next_byte hl hx
    rw [cons_append, Walk.over?_cons hslash, hnext, ih hhigh]

theorem meets_high (hl : l.IsProper) {high : List UInt8} (h : ∀ b ∈ high, 0x80 ≤ b.toNat)
    {b : UInt8} (bs : List UInt8) :
    l.toWalk.Meets b (high ++ bs) ↔ b ∈ high ∧ l.toWalk = {} ∨ l.toWalk.Meets b bs := by
  induction high with
  | nil => simp
  | cons x high ih =>
    obtain ⟨hx, hhigh⟩ := forall_mem_cons.1 h
    obtain ⟨hslash, hnext⟩ := next_byte hl hx
    rw [cons_append, Walk.meets_cons hslash, hnext, ih hhigh, List.mem_cons, or_and_right,
      or_assoc, eq_comm]

/-- Characters beyond ASCII are no marks and no brackets. -/
theorem plain_of_high {c : Char} (hc : 0x80 ≤ c.toNat) :
    isQuote c = false ∧ isOpening c = false ∧ isClosing c = false := by
  have hne (d : Char) (hd : d.toNat < 0x80) : c ≠ d := by
    rintro rfl
    omega
  simp [isQuote, isOpening, isClosing, hne '\x27' (by decide), hne '\x22' (by decide),
    hne '\x60' (by decide), hne '(' (by decide), hne '[' (by decide), hne '\x7b' (by decide),
    hne ')' (by decide), hne ']' (by decide), hne '\x7d' (by decide)]

/-- They leave the level as it is. -/
theorem next_high (hl : l.IsProper) {c : Char} (hc : 0x80 ≤ c.toNat) : l.next c = l := by
  obtain ⟨hquote, hopening, hclosing⟩ := plain_of_high hc
  obtain ⟨quote, depth⟩ := l
  cases quote with
  | some q =>
    have hq : c ≠ q := by
      rintro rfl
      rw [hl c rfl] at hquote
      cases hquote
    simp [Level.next, hq]
  | none => simp [Level.next, hquote, hopening, hclosing]

theorem over?_toBytes (hl : l.IsProper) (t : Text) :
    l.toWalk.over? (toBytes t) = (l.over? t).map toWalk := by
  fun_induction Level.over? l t with
  | case1 l => simp [Walk.over?]
  | case2 l c hc =>
    obtain rfl : c = '\\' := by simpa using hc
    simp [encode_backslash, Walk.over?]
  | case3 l c hc d ds ih =>
    obtain rfl : c = '\\' := by simpa using hc
    -- the first byte of the character is hidden, and the others are passed over
    obtain ⟨first, rest, hd, hrest⟩ := Text.exists_encode_eq_cons d
    simp [encode_backslash, hd, Walk.over?, over?_high hl hrest, ih hl]
  | case4 l c cs hc ih =>
    have hslash : c ≠ '\\' := by simpa using hc
    rw [toBytes_cons]
    rcases encode_cases c with ⟨hascii, hone⟩ | ⟨hcode, hhigh⟩
    · rw [hone, singleton_append, Walk.over?_cons (toUInt8_ne_backslash hascii hslash),
        next_toUInt8 hl hascii, ih (hl.next c)]
    · rw [over?_high hl hhigh]
      rw [next_high hl hcode] at ih ⊢
      exact ih hl

/-- Walking over the bytes of a text and following its levels lead to the top level together. -/
theorem atTop_iff : AtTop (toBytes t) ↔ start.over? t = some start := by
  have hwalk : Walk.over? {} (toBytes t) = (start.over? t).map toWalk :=
    over?_toBytes isProper_start t
  rw [AtTop, hwalk]
  cases start.over? t with
  | none => simp
  | some l => simp [toWalk_eq_iff]

instance (t : Text) : Decidable (AtTop (toBytes t)) := decidable_of_iff _ atTop_iff.symm

/-! ## Bytes that are met -/

variable {b : UInt8}

theorem meets_escaped (hl : l.IsProper) (hb : b ≠ backslash) (d : Char) (ds : Text) :
    l.toWalk.Meets b (toBytes ('\\' :: d :: ds)) ↔
      b ∈ (utf8EncodeChar d).tail ∧ l = start ∨ l.toWalk.Meets b (toBytes ds) := by
  rw [toBytes_cons, encode_backslash, singleton_append, toBytes_cons, Walk.meets_backslash hb,
    List.tail_append_of_ne_nil utf8EncodeChar_ne_nil,
    meets_high hl fun _ => high_of_mem_tail, toWalk_eq_iff]

theorem meets_char (hl : l.IsProper) {c : Char} (hslash : c ≠ '\\') (cs : Text) :
    l.toWalk.Meets b (toBytes (c :: cs)) ↔
      b ∈ utf8EncodeChar c ∧ l = start ∨ (l.next c).toWalk.Meets b (toBytes cs) := by
  rw [toBytes_cons, ← toWalk_eq_iff]
  rcases encode_cases c with ⟨hc, hone⟩ | ⟨hc, hhigh⟩
  · rw [hone, singleton_append, Walk.meets_cons (toUInt8_ne_backslash hc hslash),
      next_toUInt8 hl hc, List.mem_singleton, eq_comm]
  · rw [meets_high hl hhigh, next_high hl hc]

end High
end TopLevel
end BladeView
