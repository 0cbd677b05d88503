import BladeView.Json.Reader
import BladeView.Proofs.Text.Trimmed
import BladeView.Script.Quoted

/-!
# The value of a template literal

A script reads the body of a template literal piece by piece: an escape stands for what it spells,
each way to end a line for one line feed, and any other character for itself. The value is a list of
code units. A bare backtick ends the literal and an interpolation cuts it, so that a body with one
of them is no text on its own, and neither is one with a malformed escape.

Weights tell which bodies have lost nothing: no escape weighs more than it stands for, and only that
of a backtick weighs as much.
-/
namespace BladeView.Script

open Text (join splitOn trim trimLines weight weight_append weight_cons weight_nil)
open List (head?_eq_some_iff map_map mem_cons not_mem_nil)

variable {cs t : Text} {c : Char} {value : List Nat}

/-! ## Code units -/

/-- The code units of a code point. One beyond the first plane is written as a pair. -/
def codeUnits (n : Nat) : List Nat :=
  if n < 0x10000 then [n] else [0xD800 + (n - 0x10000) / 0x400, 0xDC00 + (n - 0x10000) % 0x400]

/-- The code units of a text. -/
def textUnits (t : Text) : List Nat := t.flatMap fun c => codeUnits c.toNat

@[simp] theorem textUnits_nil : textUnits [] = [] := rfl

@[simp] theorem textUnits_cons (c : Char) (t : Text) :
    textUnits (c :: t) = codeUnits c.toNat ++ textUnits t := rfl

/-! ## Escapes -/

/-- The number that hexadecimal digits spell. -/
def hexNumber? (digits : Text) : Option Nat :=
  digits.foldlM (fun n d => (Json.hexDigit? d).map (16 * n + ·)) 0

/-- Reads a number of the given count of hexadecimal digits. -/
def hexUnit? (count : Nat) (t : Text) : Option Nat :=
  if count ≤ t.length then hexNumber? (t.take count) else none

def isHexDigit (c : Char) : Bool := (Json.hexDigit? c).isSome

/-- Reads a code point in braces, after the opening one: the code point and the count of its
digits. -/
def bracedPoint? (t : Text) : Option (Nat × Nat) := do
  let digits := t.takeWhile isHexDigit
  if digits.isEmpty || (t.dropWhile isHexDigit).head? != some '\x7d' then none
  else
    let n ← hexNumber? digits
    if n ≤ 0x10FFFF then some (n, digits.length) else none

/-- The characters that end a line in a script. -/
def endsLine (c : Char) : Bool := c == '\n' || c == '\r' || c == '\u2028' || c == '\u2029'

/-- The code point of a letter after a backslash; most stand for themselves. -/
def escapedPoint (c : Char) : Nat :=
  if c == 'b' then 0x8
  else if c == 't' then 0x9
  else if c == 'n' then 0xA
  else if c == 'v' then 0xB
  else if c == 'f' then 0xC
  else if c == 'r' then 0xD
  else c.toNat

/-- Reads what stands after a backslash: the code units and the count of characters. A line end
after a backslash continues the line. -/
def escape? : Text → Option (List Nat × Nat)
  | [] => none
  | c :: cs =>
    if endsLine c then some ([], if c == '\r' && cs.head? == some '\n' then 2 else 1)
    else if c == 'x' then (hexUnit? 2 cs).map fun n => ([n], 3)
    else if c == 'u' then
      if cs.head? == some '\x7b' then
        (bracedPoint? cs.tail).map fun found => (codeUnits found.1, found.2 + 3)
      else (hexUnit? 4 cs).map fun n => ([n], 5)
    else if c.isDigit then
      if c == '0' && !cs.head?.any Char.isDigit then some ([0], 1) else none
    else some (codeUnits (escapedPoint c), 1)

/-! ## Bodies -/

/-- Reads the piece of a body that starts with a character: its code units and the count of further
characters. -/
def piece? (c : Char) (cs : Text) : Option (List Nat × Nat) :=
  if c == '\x60' then none
  else if c == '$' && cs.head? == some '\x7b' then none
  else if c == '\\' then escape? cs
  else if c == '\r' then some ([0xA], if cs.head? == some '\n' then 1 else 0)
  else some (codeUnits c.toNat, 0)

/-- The value of what follows a number of characters of a body. -/
def cookFrom? : Nat → Text → Option (List Nat)
  | _, [] => some []
  | jump + 1, _ :: cs => cookFrom? jump cs
  | 0, c :: cs => do
    let (value, jump) ← piece? c cs
    let rest ← cookFrom? jump cs
    return value ++ rest

/-- The value of a template literal without interpolations, given its body. -/
def cook? (body : Text) : Option (List Nat) := cookFrom? 0 body

theorem cookFrom?_append (p t : Text) : cookFrom? p.length (p ++ t) = cook? t := by
  induction p with
  | nil => rfl
  | cons c p ih => exact ih

theorem cook?_cons_eq_some :
    cook? (c :: cs) = some value ↔
      ∃ first jump rest, piece? c cs = some (first, jump) ∧ cookFrom? jump cs = some rest ∧
        value = first ++ rest := by
  simp only [cook?, cookFrom?, Option.bind_eq_bind, Option.bind_eq_some_iff, Prod.exists]
  constructor
  · rintro ⟨first, jump, hpiece, rest, hrest, hvalue⟩
    exact ⟨first, jump, rest, hpiece, hrest, (Option.some.inj hvalue).symm⟩
  · rintro ⟨first, jump, rest, hpiece, hrest, rfl⟩
    exact ⟨first, jump, hpiece, rest, hrest, rfl⟩

/-- One piece, then the rest. -/
theorem cook?_cons_append {p : Text} {first rest : List Nat}
    (hpiece : piece? c (p ++ t) = some (first, p.length)) (hrest : cook? t = some rest) :
    cook? (c :: (p ++ t)) = some (first ++ rest) :=
  cook?_cons_eq_some.2 ⟨first, p.length, rest, hpiece, (cookFrom?_append p t).trans hrest, rfl⟩

/-! ## Text with its backticks escaped -/

/-- A text with one line feed for each way to end a line. -/
def newlines : Text → Text
  | [] => []
  | '\r' :: '\n' :: cs => '\n' :: newlines cs
  | '\r' :: cs => '\n' :: newlines cs
  | c :: cs => c :: newlines cs

theorem return_notMem_newlines (t : Text) : '\r' ∉ newlines t := by
  fun_induction newlines t with
  | case1 => simp
  | case2 cs ih => simpa using ih
  | case3 cs _ ih => simpa using ih
  | case4 c cs _ hc ih =>
    rw [mem_cons, not_or]
    exact ⟨fun heq => hc heq.symm, ih⟩

theorem newlines_eq_self (h : '\r' ∉ t) : newlines t = t := by
  fun_induction newlines t with
  | case1 => rfl
  | case2 cs ih => simp at h
  | case3 cs _ ih => simp at h
  | case4 c cs _ _ ih =>
    rw [mem_cons, not_or] at h
    rw [ih h.2]

theorem return_mem_textUnits_iff : 0xD ∈ textUnits t ↔ '\r' ∈ t := by
  have hunit : ∀ c : Char, 0xD ∈ codeUnits c.toNat ↔ '\r' = c := by
    intro c
    unfold codeUnits
    split
    · rw [List.mem_singleton]
      constructor
      · intro hc
        exact Char.ext (UInt32.toNat_inj.1 hc)
      · rintro rfl
        rfl
    case isFalse hlarge =>
      constructor
      · intro hc
        simp only [mem_cons, not_mem_nil, or_false] at hc
        omega
      · rintro rfl
        exact absurd (by decide) hlarge
  rw [textUnits, List.mem_flatMap]
  constructor
  · rintro ⟨c, hc, hmem⟩
    rwa [(hunit c).1 hmem]
  · intro hc
    exact ⟨'\r', hc, (hunit _).2 rfl⟩

/-- A text with other line ends is not the one with line feeds. -/
theorem return_notMem_of_textUnits (h : textUnits (newlines t) = textUnits t) : '\r' ∉ t := by
  rw [← return_mem_textUnits_iff, ← h, return_mem_textUnits_iff]
  exact return_notMem_newlines t

/-- A text with its backticks escaped. -/
def ticked (t : Text) : Text := t.flatMap fun c => if c = '\x60' then ['\\', '\x60'] else [c]

@[simp] theorem ticked_nil : ticked [] = [] := rfl

theorem ticked_append (s t : Text) : ticked (s ++ t) = ticked s ++ ticked t := List.flatMap_append

theorem ticked_tick (t : Text) : ticked ('\x60' :: t) = '\\' :: '\x60' :: ticked t := rfl

theorem ticked_cons (hc : c ≠ '\x60') (t : Text) : ticked (c :: t) = c :: ticked t := by
  simp [ticked, hc]

theorem ticked_eq_self (h : '\x60' ∉ t) : ticked t = t := by
  induction t with
  | nil => rfl
  | cons c t ih =>
    rw [mem_cons, not_or] at h
    rw [ticked_cons (Ne.symm h.1), ih h.2]

theorem mem_of_mem_ticked (hc : c ≠ '\\') (h : c ∈ ticked t) : c ∈ t := by
  obtain ⟨d, hd, hmem⟩ := List.mem_flatMap.1 h
  split at hmem
  case isTrue htick =>
    have hcd : c = '\x60' := by simpa [hc] using hmem
    rwa [hcd, ← htick]
  case isFalse => rwa [List.mem_singleton.1 hmem]

/-- Without the backslashes the text is left. -/
theorem filter_ticked (h : '\\' ∉ t) : (ticked t).filter (· != '\\') = t := by
  induction t with
  | nil => rfl
  | cons c t ih =>
    rw [mem_cons, not_or] at h
    by_cases hc : c = '\x60'
    · subst hc
      simp [ticked_tick, ih h.2]
    · simp [ticked_cons hc, Ne.symm h.1, ih h.2]

theorem count_tick_ticked (t : Text) : (ticked t).count '\x60' = t.count '\x60' := by
  induction t with
  | nil => rfl
  | cons c t ih =>
    by_cases hc : c = '\x60'
    · subst hc
      simp [ticked_tick, ih]
    · simp [ticked_cons hc, hc, ih]

theorem count_backslash_ticked (t : Text) :
    (ticked t).count '\\' = t.count '\\' + t.count '\x60' := by
  induction t with
  | nil => rfl
  | cons c t ih =>
    by_cases hc : c = '\x60'
    · subst hc
      simp only [ticked_tick, List.count_cons, ih]
      simp
      omega
    · simp only [ticked_cons hc, List.count_cons, ih]
      simp [hc]
      omega

/-- Texts that look the same with their backticks escaped are both free of backslashes, or
neither. -/
theorem backslash_notMem_of_ticked_eq {s : Text} (h : ticked s = ticked t) (ht : '\\' ∉ t) :
    '\\' ∉ s := by
  have hticks : s.count '\x60' = t.count '\x60' := by
    rw [← count_tick_ticked s, h, count_tick_ticked]
  have hslashes : s.count '\\' + s.count '\x60' = t.count '\\' + t.count '\x60' := by
    rw [← count_backslash_ticked, h, count_backslash_ticked]
  rw [← List.count_eq_zero] at ht ⊢
  omega

/-! ### Lines -/

theorem ticked_joinLines (lines : List Text) :
    ticked (join "\n" lines) = join "\n" (lines.map ticked) := by
  induction lines with
  | nil => rfl
  | cons first rest ih =>
    cases rest with
    | nil => simp [Text.join_singleton]
    | cons second rest =>
      rw [Text.join_cons_cons, ticked_append, ticked_append, ih,
        List.map_cons (l := second :: rest), Text.join_cons_of_ne_nil _ _ (by simp)]
      rfl

theorem splitOn_ticked (t : Text) :
    splitOn '\n' (ticked t) = (splitOn '\n' t).map ticked := by
  have hlines := ticked_joinLines (splitOn '\n' t)
  have hjoin : join "\n" (splitOn '\n' t) = t := Text.join_splitOn '\n' t
  rw [hjoin] at hlines
  rw [hlines]
  refine Text.splitOn_join_of_notMem ?_ fun line hline hbreak => ?_
  · simpa using Text.splitOn_ne_nil '\n' t
  · obtain ⟨line', hline', rfl⟩ := List.mem_map.1 hline
    exact Text.notMem_of_mem_splitOn hline' (mem_of_mem_ticked (by decide) hbreak)

theorem getLast?_ticked (t : Text) : (ticked t).getLast? = t.getLast? := by
  rcases List.eq_nil_or_concat t with rfl | ⟨t, c, rfl⟩
  · rfl
  · by_cases hc : c = '\x60'
    · subst hc
      simp [ticked]
    · simp [ticked, hc]

theorem trim_ticked (t : Text) : trim (ticked t) = ticked (trim t) := by
  have hblanks : ∀ {s : Text}, (∀ c ∈ s, isBlank c = true) → ticked s = s := by
    intro s hs
    refine ticked_eq_self fun htick => ?_
    cases hs _ htick
  obtain ⟨before, after, heq, hbefore, hafter⟩ := Text.trim_spec t
  have hticked := congrArg ticked heq
  rw [ticked_append, ticked_append, hblanks hbefore, hblanks hafter] at hticked
  rw [hticked]
  refine Text.trim_between hbefore hafter ?_ ?_
  · cases htrim : trim t with
    | nil => rfl
    | cons c rest =>
      have hc := Text.head?_trim t
      rw [htrim] at hc
      by_cases htick : c = '\x60'
      · subst htick
        rfl
      · rwa [ticked_cons htick]
  · rw [getLast?_ticked]
    exact Text.getLast?_trim t

theorem ticked_trimLines (t : Text) : ticked (trimLines t) = trimLines (ticked t) := by
  rw [trimLines, ticked_joinLines, trimLines, splitOn_ticked, map_map, map_map]
  refine congrArg _ (List.map_congr_left fun line _ => ?_)
  exact (trim_ticked line).symm

/-! ### The value -/

theorem head?_ticked (hc : c ≠ '\\') (h : (ticked t).head? = some c) : t.head? = some c := by
  cases t with
  | nil => cases h
  | cons d t =>
    by_cases hd : d = '\x60'
    · subst hd
      exact absurd (Option.some.inj h).symm hc
    · rwa [ticked_cons hd] at h

/-- **Escaping the backticks is enough** for a text without backslashes and opening braces. -/
theorem cook?_ticked (hslash : '\\' ∉ t) (hbrace : '\x7b' ∉ t) :
    cook? (ticked t) = some (textUnits (newlines t)) := by
  fun_induction newlines t with
  | case1 => rfl
  | case2 cs ih =>
    simp only [mem_cons, not_or] at hslash hbrace
    exact cook?_cons_append (p := ['\n']) rfl (ih hslash.2.2 hbrace.2.2)
  | case3 cs hcrlf ih =>
    simp only [mem_cons, not_or] at hslash hbrace
    have hpiece : piece? '\r' (ticked cs) = some ([0xA], 0) := by
      have hhead : (ticked cs).head? ≠ some '\n' := by
        intro hhead
        obtain ⟨cs', hcs⟩ := head?_eq_some_iff.1 (head?_ticked (by decide) hhead)
        exact hcrlf cs' hcs
      simp [piece?, hhead]
    exact cook?_cons_append (p := []) hpiece (ih hslash.2 hbrace.2)
  | case4 c cs _ hcr ih =>
    simp only [mem_cons, not_or] at hslash hbrace
    have hrest := ih hslash.2 hbrace.2
    by_cases htick : c = '\x60'
    · subst htick
      exact cook?_cons_append (p := ['\x60']) rfl hrest
    · have hpiece : piece? c (ticked cs) = some (codeUnits c.toNat, 0) := by
        have hhead : (ticked cs).head? ≠ some '\x7b' := by
          intro hhead
          exact hbrace.2 (mem_of_mem_ticked (by decide) (List.mem_of_head? hhead))
        have hreturn : c ≠ '\r' := fun h => hcr h
        simp [piece?, htick, hhead, Ne.symm hslash.1, hreturn]
      rw [ticked_cons htick]
      exact cook?_cons_append (p := []) hpiece hrest

/-! ## Weights -/

/-- What a code unit weighs. Blanks and zeros are not seen. -/
def unitWeight (n : Nat) : Nat := if n == 0 || isBlank (Char.ofNat n) then 0 else 1

/-- What a character weighs in a text. -/
def charWeight (c : Char) : Nat := weight unitWeight (codeUnits c.toNat)

/-- What a character weighs in the body of a literal, where a backtick comes with a backslash. -/
def bodyWeight (c : Char) : Nat := if c = '\x60' then 0 else charWeight c

theorem unitWeight_le (n : Nat) : unitWeight n ≤ 1 := by
  unfold unitWeight
  split <;> omega

theorem weight_codeUnits_le (n : Nat) : weight unitWeight (codeUnits n) ≤ 2 := by
  unfold codeUnits
  have hfirst := unitWeight_le n
  have hhigh := unitWeight_le (0xD800 + (n - 0x10000) / 0x400)
  have hlow := unitWeight_le (0xDC00 + (n - 0x10000) % 0x400)
  split
  · simp only [weight_cons, weight_nil]
    omega
  · simp only [weight_cons, weight_nil]
    omega

theorem charWeight_of_isBlank (h : isBlank c = true) : charWeight c = 0 := by
  have hsmall : c.toNat < 0x10000 := by
    simp only [isBlank, Bool.or_eq_true, Bool.and_eq_true, decide_eq_true_eq, beq_iff_eq] at h
    omega
  simp [charWeight, codeUnits, hsmall, unitWeight, h]

theorem bodyWeight_of_isBlank (h : isBlank c = true) : bodyWeight c = 0 := by
  have htick : c ≠ '\x60' := by
    rintro rfl
    cases h
  rw [bodyWeight, if_neg htick, charWeight_of_isBlank h]

theorem weight_textUnits (t : Text) :
    weight unitWeight (textUnits t) = weight charWeight t := by
  induction t with
  | nil => rfl
  | cons c t ih => rw [textUnits_cons, weight_append, ih, weight_cons, charWeight]

theorem weight_newlines (t : Text) :
    weight charWeight (newlines t) = weight charWeight t := by
  have hreturn : charWeight '\r' = 0 := by decide
  have hfeed : charWeight '\n' = 0 := by decide
  fun_induction newlines t with
  | case1 => rfl
  | case2 cs ih => simp [hreturn, hfeed, ih]
  | case3 cs _ ih => simp [hreturn, hfeed, ih]
  | case4 c cs _ _ ih => simp [ih]

/-- A value that weighs less than the text it is read from, with a backslash before it. -/
def Lighter (t : Text) (value : List Nat) (size : Nat) : Prop :=
  ∃ p rest, t = p ++ rest ∧ p.length = size ∧
    weight unitWeight value < 1 + weight bodyWeight p

theorem lighter_hexUnit? (hc : bodyWeight c = 1) {count n : Nat} (h : hexUnit? count cs = some n) :
    Lighter (c :: cs) [n] (count + 1) := by
  rw [hexUnit?] at h
  obtain ⟨hle, h⟩ := Option.ite_none_right_eq_some.1 h
  have hweight := unitWeight_le n
  refine ⟨c :: cs.take count, cs.drop count, ?_, by simp [hle], ?_⟩
  · rw [List.cons_append, List.take_append_drop]
  · simp only [weight_cons, weight_nil, hc]
    omega

theorem lighter_bracedPoint? {n count : Nat} (h : bracedPoint? cs = some (n, count)) :
    Lighter ('u' :: '\x7b' :: cs) (codeUnits n) (count + 3) := by
  simp only [bracedPoint?] at h
  obtain ⟨hend, h⟩ := Option.ite_none_left_eq_some.1 h
  obtain ⟨m, -, h⟩ := Option.bind_eq_some_iff.1 h
  obtain ⟨-, h⟩ := Option.ite_none_right_eq_some.1 h
  obtain ⟨rfl, rfl⟩ := Prod.mk.inj (Option.some.inj h)
  simp only [Bool.or_eq_true, bne_iff_ne, not_or, Decidable.not_not] at hend
  obtain ⟨rest, hrest⟩ := head?_eq_some_iff.1 hend.2
  have hsplit : cs = cs.takeWhile isHexDigit ++ '\x7d' :: rest := by
    rw [← hrest]
    exact List.takeWhile_append_dropWhile.symm
  have hletter : bodyWeight 'u' = 1 := by decide
  have hopening : bodyWeight '\x7b' = 1 := by decide
  have hweight := weight_codeUnits_le m
  refine ⟨'u' :: '\x7b' :: (cs.takeWhile isHexDigit ++ ['\x7d']), rest, ?_, by simp, ?_⟩
  · simpa using hsplit
  · simp only [weight_cons, hletter, hopening]
    omega

/-- A letter that stands for a control character weighs no less. -/
theorem weight_escapedPoint_le (c : Char) :
    weight unitWeight (codeUnits (escapedPoint c)) ≤ charWeight c := by
  by_cases hc : c ∈ ['b', 't', 'n', 'v', 'f', 'r']
  · simp only [mem_cons, not_mem_nil, or_false] at hc
    rcases hc with rfl | rfl | rfl | rfl | rfl | rfl <;> decide
  · have hself : escapedPoint c = c.toNat := by
      simp only [mem_cons, not_mem_nil, or_false, not_or] at hc
      simp [escapedPoint, hc]
    exact Nat.le_of_eq (congrArg _ (congrArg _ hself))

/-- An escape weighs more than what it stands for, unless it is that of a backtick. -/
theorem lighter_escape? {size : Nat} (h : escape? t = some (value, size)) :
    Lighter t value size ∨ ∃ rest, t = '\x60' :: rest ∧ value = [0x60] ∧ size = 1 := by
  cases t with
  | nil => cases h
  | cons c cs =>
    rw [escape?] at h
    by_cases hline : endsLine c = true
    · rw [if_pos hline] at h
      obtain ⟨rfl, rfl⟩ := Prod.mk.inj (Option.some.inj h)
      left
      split
      case isTrue hcrlf =>
        simp only [Bool.and_eq_true, beq_iff_eq] at hcrlf
        obtain ⟨rest, rfl⟩ := head?_eq_some_iff.1 hcrlf.2
        exact ⟨[c, '\n'], rest, rfl, rfl, by rw [weight_nil]; omega⟩
      case isFalse => exact ⟨[c], cs, rfl, rfl, by rw [weight_nil]; omega⟩
    rw [if_neg hline] at h
    by_cases hx : c = 'x'
    · subst hx
      obtain ⟨n, hn, hfound⟩ := Option.map_eq_some_iff.1 h
      obtain ⟨rfl, rfl⟩ := Prod.mk.inj hfound
      exact .inl (lighter_hexUnit? (by decide) hn)
    rw [if_neg (by simpa using hx)] at h
    by_cases hu : c = 'u'
    · subst hu
      rw [if_pos (by decide)] at h
      split at h
      case isTrue hbrace =>
        obtain ⟨⟨n, count⟩, hn, hfound⟩ := Option.map_eq_some_iff.1 h
        obtain ⟨rfl, rfl⟩ := Prod.mk.inj hfound
        obtain ⟨inside, rfl⟩ := head?_eq_some_iff.1 (beq_iff_eq.1 hbrace)
        exact .inl (lighter_bracedPoint? hn)
      case isFalse =>
        obtain ⟨n, hn, hfound⟩ := Option.map_eq_some_iff.1 h
        obtain ⟨rfl, rfl⟩ := Prod.mk.inj hfound
        exact .inl (lighter_hexUnit? (by decide) hn)
    rw [if_neg (by simpa using hu)] at h
    by_cases hdigit : c.isDigit = true
    · rw [if_pos hdigit] at h
      obtain ⟨-, h⟩ := Option.ite_none_right_eq_some.1 h
      obtain ⟨rfl, rfl⟩ := Prod.mk.inj (Option.some.inj h)
      have hzero : weight unitWeight [0] = 0 := rfl
      exact .inl ⟨[c], cs, rfl, rfl, by omega⟩
    rw [if_neg hdigit] at h
    obtain ⟨rfl, rfl⟩ := Prod.mk.inj (Option.some.inj h)
    by_cases htick : c = '\x60'
    · subst htick
      exact .inr ⟨cs, rfl, rfl, rfl⟩
    · have hweight := weight_escapedPoint_le c
      refine .inl ⟨[c], cs, rfl, rfl, ?_⟩
      simp only [weight_cons, weight_nil, bodyWeight, if_neg htick]
      omega

/-- A piece of a body weighs as much as it stands for just if no backslash is lost with it. -/
theorem piece?_cases {jump : Nat} (h : piece? c cs = some (value, jump)) :
    ∃ p rest, c :: cs = p ++ rest ∧ p.length = jump + 1 ∧
      (weight unitWeight value < weight bodyWeight p ∨
        weight unitWeight value = weight bodyWeight p ∧
          ∃ x, '\\' ∉ x ∧ p = ticked x) := by
  rw [piece?] at h
  by_cases htick : c = '\x60'
  · rw [if_pos (by simpa using htick)] at h
    cases h
  rw [if_neg (by simpa using htick)] at h
  obtain ⟨-, h⟩ := Option.ite_none_left_eq_some.1 h
  by_cases hslash : c = '\\'
  · rw [if_pos (by simpa using hslash)] at h
    have hone : bodyWeight '\\' = 1 := by decide
    rcases lighter_escape? h with ⟨p, rest, rfl, hp, hlt⟩ | ⟨rest, rfl, rfl, rfl⟩
    · refine ⟨c :: p, rest, rfl, by simp [hp], .inl ?_⟩
      rwa [weight_cons, hslash, hone]
    · refine ⟨['\\', '\x60'], rest, by rw [hslash]; rfl, rfl, .inr ⟨by decide, ?_⟩⟩
      exact ⟨['\x60'], by decide, rfl⟩
  rw [if_neg (by simpa using hslash)] at h
  have hself : c :: cs = [c] ++ cs := rfl
  have hticked : [c] = ticked [c] := (ticked_cons htick []).symm
  by_cases hreturn : c = '\r'
  · rw [if_pos (by simpa using hreturn)] at h
    subst hreturn
    obtain ⟨rfl, rfl⟩ := Prod.mk.inj (Option.some.inj h)
    split
    case isTrue hcrlf =>
      obtain ⟨rest, rfl⟩ := head?_eq_some_iff.1 (beq_iff_eq.1 hcrlf)
      exact ⟨['\r', '\n'], rest, rfl, rfl, .inr ⟨by decide, ['\r', '\n'], by decide, rfl⟩⟩
    case isFalse =>
      exact ⟨['\r'], cs, rfl, rfl, .inr ⟨by decide, ['\r'], by decide, rfl⟩⟩
  rw [if_neg (by simpa using hreturn)] at h
  obtain ⟨rfl, rfl⟩ := Prod.mk.inj (Option.some.inj h)
  refine ⟨[c], cs, rfl, rfl, .inr ⟨?_, [c], by simpa using Ne.symm hslash, hticked⟩⟩
  simp [bodyWeight, htick, charWeight]

/-- The value of a body weighs no more than the body. If it weighs as much, the body is a text with
its backticks escaped, and without any other escape. -/
theorem weight_le_of_cook? {body : Text} (h : cook? body = some value) :
    weight unitWeight value ≤ weight bodyWeight body ∧
      (weight unitWeight value = weight bodyWeight body →
        ∃ x, '\\' ∉ x ∧ body = ticked x) := by
  induction hlength : body.length using Nat.strongRecOn generalizing body value with
  | _ n ih =>
    subst hlength
    cases body with
    | nil =>
      obtain rfl : [] = value := Option.some.inj h
      exact ⟨Nat.le_refl _, fun _ => ⟨[], by simp, rfl⟩⟩
    | cons c cs =>
      obtain ⟨first, jump, rest, hpiece, hrest, rfl⟩ := cook?_cons_eq_some.1 h
      obtain ⟨p, t, hsplit, hp, hweight⟩ := piece?_cases hpiece
      obtain ⟨p, rfl⟩ : ∃ p', p = c :: p' := by
        cases p with
        | nil => cases hp
        | cons d p => exact ⟨p, by rw [(List.cons.inj hsplit).1]⟩
      obtain rfl : cs = p ++ t := (List.cons.inj hsplit).2
      obtain rfl : p.length = jump := by simpa using hp
      rw [cookFrom?_append] at hrest
      have hshort : t.length < (c :: (p ++ t)).length := by
        rw [List.length_cons, List.length_append]
        omega
      obtain ⟨hle, heq⟩ := ih t.length hshort hrest rfl
      have hfirst : weight unitWeight first ≤ weight bodyWeight (c :: p) := by
        rcases hweight with hlt | ⟨hsame, -⟩
        · exact Nat.le_of_lt hlt
        · exact Nat.le_of_eq hsame
      rw [← List.cons_append, weight_append, weight_append]
      refine ⟨by omega, fun hsum => ?_⟩
      rcases hweight with hlt | ⟨-, x, hx, hpx⟩
      · omega
      · obtain ⟨y, hy, rfl⟩ := heq (by omega)
        refine ⟨x ++ y, ?_, by rw [ticked_append, hpx]⟩
        rw [List.mem_append, not_or]
        exact ⟨hx, hy⟩

end BladeView.Script
