import BladeView.Group

/-!
# The grammar of groups, in bytes

A group by its bytes: an opening delimiter, items, and the delimiter that closes it. The grammar
stands beside a scan that counts. The scan looks at one byte after the other, adds one to its depth
at an opening delimiter and takes one away at a closing one, and ends where the depth is zero
again. Its depth is an integer, so that nothing but the order of the delimiters keeps it from going
below zero.
-/
namespace BladeView.Group.Bytes

open List (append_assoc cons_append length_append length_cons mem_cons not_mem_nil)

/-! ## Groups -/

/-- Parentheses, braces and brackets. -/
def delimiters : List (UInt8 × UInt8) := [(0x28, 0x29), (0x7B, 0x7D), (0x5B, 0x5D)]

/-- Apostrophe, double quote and backtick. -/
def quotes : List UInt8 := [0x27, 0x22, 0x60]

def backslash : UInt8 := 0x5C

/-- What stands between the marks of a quoted run. Only a hidden mark does not end it. -/
inductive Quoted (quote : UInt8) : List UInt8 → Prop
  | nil : Quoted quote []
  | escape (b : UInt8) {bs : List UInt8} : Quoted quote bs → Quoted quote (backslash :: b :: bs)
  | byte {b : UInt8} {bs : List UInt8} (hslash : b ≠ backslash) (hquote : b ≠ quote) :
      Quoted quote bs → Quoted quote (b :: bs)

/-- What stands between two delimiters that belong together. -/
inductive Items (opening closing : UInt8) : List UInt8 → Prop
  | nil : Items opening closing []
  | escape (b : UInt8) {bs : List UInt8} :
      Items opening closing bs → Items opening closing (backslash :: b :: bs)
  | quoted {quote : UInt8} {run bs : List UInt8} (hquote : quote ∈ quotes) :
      Quoted quote run → Items opening closing bs →
        Items opening closing (quote :: run ++ quote :: bs)
  | group {inner bs : List UInt8} : Items opening closing inner → Items opening closing bs →
      Items opening closing (opening :: inner ++ closing :: bs)
  | byte {b : UInt8} {bs : List UInt8} (hslash : b ≠ backslash) (hquote : b ∉ quotes)
      (hopening : b ≠ opening) (hclosing : b ≠ closing) :
      Items opening closing bs → Items opening closing (b :: bs)

/-- A group, from its opening delimiter to the one that closes it. -/
def IsGroup (bs : List UInt8) : Prop :=
  ∃ d ∈ delimiters, ∃ inner, Items d.1 d.2 inner ∧ bs = d.1 :: inner ++ [d.2]

/-- A group stands in some bytes from one offset to another, both included. -/
def IsGroupAt (bs : List UInt8) (first last : Nat) : Prop :=
  last < bs.length ∧ IsGroup ((bs.take (last + 1)).drop first)

/-! ## The scan -/

/-- What a scan keeps: the number of groups that are open, and the mark of the quoted run it is
in. -/
structure Count where
  depth : Int := 0
  quote : Option UInt8 := none

/-- The count after a byte that no backslash hides. -/
def Count.next (opening closing : UInt8) (s : Count) (b : UInt8) : Count :=
  match s.quote with
  | some quote => if b = quote then { s with quote := none } else s
  | none =>
    if b ∈ quotes then { s with quote := some b }
    else if b = opening then { s with depth := s.depth + 1 }
    else if b = closing then { s with depth := s.depth - 1 }
    else s

/-- The offsets that a scan looks at, each with the depth after it. A backslash and the byte that it
hides are passed over. -/
def visits (opening closing : UInt8) (s : Count) (offset : Nat) : List UInt8 → List (Nat × Int)
  | [] => []
  | b :: bs =>
    if b = backslash then
      match bs with
      | [] => []
      | _ :: rest => visits opening closing s (offset + 2) rest
    else
      let after := s.next opening closing b
      (offset, after.depth) ::
        if after.depth = 0 then [] else visits opening closing after (offset + 1) bs

/-- The scan that starts at an offset. It looks at nothing if no opening delimiter stands there. -/
def scan (bs : List UInt8) (offset : Nat) : List (Nat × Int) :=
  match bs.drop offset with
  | [] => []
  | b :: rest =>
    match delimiters.lookup b with
    | none => []
    | some closing => visits b closing {} offset (b :: rest)

/-- Where the depth comes back to zero. -/
def closed? (found : List (Nat × Int)) : Option Nat := (found.find? (·.2 == 0)).map Prod.fst

/-- Where a scan with some count ends. -/
def close? (opening closing : UInt8) (s : Count) (offset : Nat) (bs : List UInt8) : Option Nat :=
  closed? (visits opening closing s offset bs)

section Steps

variable {opening closing b : UInt8} {s : Count} {offset : Nat} {bs : List UInt8}

@[simp] theorem close?_nil : close? opening closing s offset [] = none := rfl

@[simp] theorem close?_backslash : close? opening closing s offset [backslash] = none := by
  simp [close?, visits, closed?]

@[simp] theorem close?_escape : close? opening closing s offset (backslash :: b :: bs) =
    close? opening closing s (offset + 2) bs := by
  simp [close?, visits]

theorem close?_cons (hslash : b ≠ backslash) : close? opening closing s offset (b :: bs) =
    if (s.next opening closing b).depth = 0 then some offset
    else close? opening closing (s.next opening closing b) (offset + 1) bs := by
  rw [close?, visits.eq_def]
  simp only [if_neg hslash]
  split
  case isTrue h => simp [closed?, h]
  case isFalse h => simp [closed?, close?, h]

end Steps

/-! ## Items do not change the count -/

section Delimiters

variable {opening closing b quote : UInt8} {depth : Int} {offset : Nat} {bs inner : List UInt8}

@[simp] theorem next_quoted : Count.next opening closing ⟨depth, some quote⟩ b =
    if b = quote then ⟨depth, none⟩ else ⟨depth, some quote⟩ := rfl

theorem next_quote (hquote : b ∈ quotes) :
    Count.next opening closing ⟨depth, none⟩ b = ⟨depth, some b⟩ := by
  simp [Count.next, hquote]

theorem next_other (hquote : b ∉ quotes) (hopening : b ≠ opening) (hclosing : b ≠ closing) :
    Count.next opening closing ⟨depth, none⟩ b = ⟨depth, none⟩ := by
  simp [Count.next, hquote, hopening, hclosing]

/-- A delimiter is neither a mark nor a backslash, and the two of a pair differ. -/
structure Distinct (opening closing : UInt8) : Prop where
  opening_notMem : opening ∉ quotes
  closing_notMem : closing ∉ quotes
  opening_ne_backslash : opening ≠ backslash
  closing_ne_backslash : closing ≠ backslash
  closing_ne_opening : closing ≠ opening

theorem distinct_of_mem {d : UInt8 × UInt8} (h : d ∈ delimiters) : Distinct d.1 d.2 := by
  simp only [delimiters, mem_cons, not_mem_nil, or_false] at h
  rcases h with rfl | rfl | rfl <;> constructor <;> decide

theorem next_opening (h : Distinct opening closing) :
    Count.next opening closing ⟨depth, none⟩ opening = ⟨depth + 1, none⟩ := by
  simp [Count.next, h.opening_notMem]

theorem next_closing (h : Distinct opening closing) :
    Count.next opening closing ⟨depth, none⟩ closing = ⟨depth - 1, none⟩ := by
  simp [Count.next, h.closing_notMem, h.closing_ne_opening]

theorem ne_backslash_of_mem_quotes (h : quote ∈ quotes) : quote ≠ backslash := by
  simp only [quotes, mem_cons, not_mem_nil, or_false] at h
  rcases h with rfl | rfl | rfl <;> decide

/-- A quoted run and the mark that ends it leave the scan with the depth it had. -/
theorem close?_quoted (hdepth : 0 < depth) (hquote : quote ∈ quotes) {run : List UInt8}
    (hrun : Quoted quote run) :
    close? opening closing ⟨depth, some quote⟩ offset (run ++ quote :: bs) =
      close? opening closing ⟨depth, none⟩ (offset + run.length + 1) bs := by
  have hne : depth ≠ 0 := by omega
  induction hrun generalizing offset with
  | nil => simp [close?_cons (ne_backslash_of_mem_quotes hquote), hne]
  | escape b _ ih =>
    rw [cons_append, cons_append, close?_escape, ih, length_cons, length_cons]
    congr 1
    omega
  | byte hslash hother _ ih =>
    rw [cons_append, close?_cons hslash, next_quoted, if_neg hother, if_neg hne, ih, length_cons]
    congr 1
    omega

/-- Items leave the scan with the depth it had. -/
theorem close?_append (hd : Distinct opening closing) (hinner : Items opening closing inner)
    (hdepth : 0 < depth) :
    close? opening closing ⟨depth, none⟩ offset (inner ++ bs) =
      close? opening closing ⟨depth, none⟩ (offset + inner.length) bs := by
  have hne : depth ≠ 0 := by omega
  induction hinner generalizing depth offset bs with
  | nil => simp
  | escape b _ ih =>
    rw [cons_append, cons_append, close?_escape, ih hdepth hne, length_cons, length_cons]
    congr 1
    omega
  | quoted hquote hrun _ ih =>
    rw [cons_append, cons_append, close?_cons (ne_backslash_of_mem_quotes hquote),
      next_quote hquote, if_neg hne, append_assoc, cons_append,
      close?_quoted hdepth hquote hrun, ih hdepth hne]
    simp only [length_cons, length_append]
    congr 1
    omega
  | group _ _ ihInner ih =>
    have hdeeper : depth + 1 ≠ 0 := by omega
    rw [cons_append, cons_append, close?_cons hd.opening_ne_backslash, next_opening hd,
      if_neg hdeeper, append_assoc, cons_append, ihInner (by omega) hdeeper,
      close?_cons hd.closing_ne_backslash, next_closing hd, Int.add_sub_cancel, if_neg hne,
      ih hdepth hne]
    simp only [length_cons, length_append]
    congr 1
    omega
  | byte hslash hquote hopening hclosing _ ih =>
    rw [cons_append, close?_cons hslash, next_other hquote hopening hclosing,
      if_neg hne, ih hdepth hne, length_cons]
    congr 1
    omega

end Delimiters

/-! ## What a scan reads -/

/-- What closes the innermost of some open groups, and then the groups around it: `outer` of
them. -/
inductive Closes (opening closing : UInt8) : Nat → List UInt8 → Prop
  | last {inner : List UInt8} :
      Items opening closing inner → Closes opening closing 0 (inner ++ [closing])
  | outer {inner bs : List UInt8} {outer : Nat} : Items opening closing inner →
      Closes opening closing outer bs → Closes opening closing (outer + 1) (inner ++ closing :: bs)

namespace Closes

variable {opening closing : UInt8} {outer : Nat} {bs : List UInt8}

/-- Something may stand before the closing delimiters if it may stand before items. -/
theorem prepend (piece : List UInt8)
    (hpiece : ∀ inner, Items opening closing inner → Items opening closing (piece ++ inner))
    (h : Closes opening closing outer bs) : Closes opening closing outer (piece ++ bs) := by
  cases h with
  | last hinner =>
    rw [← append_assoc]
    exact .last (hpiece _ hinner)
  | outer hinner hrest =>
    rw [← append_assoc]
    exact .outer (hpiece _ hinner) hrest

/-- A group that is opened here is the innermost one. -/
theorem opened (h : Closes opening closing (outer + 1) bs) :
    Closes opening closing outer (opening :: bs) := by
  cases h with
  | @outer inner rest _ hinner hrest =>
    have hpiece := hrest.prepend (opening :: inner ++ [closing]) fun items hitems => by
      simpa using hinner.group hitems
    simpa using hpiece

/-- What closes a single group is items and a delimiter. -/
theorem exists_items (h : Closes opening closing 0 bs) :
    ∃ inner, Items opening closing inner ∧ bs = inner ++ [closing] := by
  cases h with
  | last hinner => exact ⟨_, hinner, rfl⟩

end Closes

/-- What a scan reads from within a quoted run or outside of one. -/
def Reads (opening closing : UInt8) (outer : Nat) (bs : List UInt8) : Option UInt8 → Prop
  | none => Closes opening closing outer bs
  | some quote => ∃ run rest, Quoted quote run ∧ Closes opening closing outer rest ∧
      bs = run ++ quote :: rest

section Soundness

variable {opening closing b : UInt8} {outer : Nat} {quote : Option UInt8} {bs : List UInt8}

theorem Reads.escape (b : UInt8) (h : Reads opening closing outer bs quote) :
    Reads opening closing outer (backslash :: b :: bs) quote := by
  cases quote with
  | none => exact Closes.prepend [backslash, b] (fun _ hitems => .escape b hitems) h
  | some quote =>
    obtain ⟨run, rest, hrun, hrest, rfl⟩ := h
    exact ⟨_, rest, .escape b hrun, hrest, rfl⟩

/-- One step back: what is read from the count after a byte on is read with that byte from the count
before it. -/
theorem Reads.step (hd : Distinct opening closing) (hquote : ∀ q, quote = some q → q ∈ quotes)
    (hslash : b ≠ backslash) {depth : Nat} {after : Option UInt8}
    (hnext : Count.next opening closing ⟨outer + 1, quote⟩ b = ⟨depth + 1, after⟩)
    (h : Reads opening closing depth bs after) :
    Reads opening closing outer (b :: bs) quote := by
  cases quote with
  | some q =>
    rw [next_quoted] at hnext
    split at hnext
    case isTrue heq =>
      subst heq
      obtain ⟨hdepth, rfl⟩ := Count.mk.inj hnext
      obtain rfl : outer = depth := by omega
      exact ⟨[], bs, .nil, h, rfl⟩
    case isFalse hother =>
      obtain ⟨hdepth, rfl⟩ := Count.mk.inj hnext
      obtain rfl : outer = depth := by omega
      obtain ⟨run, rest, hrun, hrest, rfl⟩ := h
      exact ⟨b :: run, rest, .byte hslash hother hrun, hrest, rfl⟩
  | none =>
    by_cases hmark : b ∈ quotes
    · rw [next_quote hmark] at hnext
      obtain ⟨hdepth, rfl⟩ := Count.mk.inj hnext
      obtain rfl : outer = depth := by omega
      obtain ⟨run, rest, hrun, hrest, rfl⟩ := h
      have hread := hrest.prepend (b :: run ++ [b]) fun items hitems => by
        simpa using Items.quoted hmark hrun hitems
      simpa [Reads] using hread
    · by_cases hopening : b = opening
      · subst hopening
        rw [next_opening hd] at hnext
        obtain ⟨hdepth, rfl⟩ := Count.mk.inj hnext
        obtain rfl : outer + 1 = depth := by omega
        exact Closes.opened h
      · by_cases hclosing : b = closing
        · subst hclosing
          rw [next_closing hd] at hnext
          obtain ⟨hdepth, rfl⟩ := Count.mk.inj hnext
          obtain rfl : outer = depth + 1 := by omega
          exact .outer .nil h
        · rw [next_other hmark hopening hclosing] at hnext
          obtain ⟨hdepth, rfl⟩ := Count.mk.inj hnext
          obtain rfl : outer = depth := by omega
          exact Closes.prepend [b]
            (fun _ hitems => .byte hslash hmark hopening hclosing hitems) h

end Soundness

/-! ## One step of the scan -/

/-- A byte leaves the depth alone, or opens a group, or is a delimiter outside of quoted runs that
closes one. -/
theorem depth_next_cases (opening closing b : UInt8) (depth : Int) (quote : Option UInt8) :
    (Count.next opening closing ⟨depth, quote⟩ b).depth = depth ∨
      (Count.next opening closing ⟨depth, quote⟩ b).depth = depth + 1 ∨
      ((Count.next opening closing ⟨depth, quote⟩ b).depth = depth - 1 ∧ quote = none ∧
        b = closing) := by
  unfold Count.next
  split
  case h_1 => split <;> exact .inl rfl
  case h_2 hquote =>
    split
    · exact .inl rfl
    split
    · exact .inr (.inl rfl)
    split
    · rename_i hclosing
      exact .inr (.inr ⟨rfl, hquote, hclosing⟩)
    · exact .inl rfl

/-- A quoted run is in a quotation mark. -/
theorem quote_next_mem (opening closing b : UInt8) {s : Count}
    (h : ∀ q, s.quote = some q → q ∈ quotes) :
    ∀ q, (s.next opening closing b).quote = some q → q ∈ quotes := by
  unfold Count.next
  intro q
  split
  case h_1 =>
    split
    · exact nofun
    · exact h q
  case h_2 =>
    split
    · rintro ⟨⟩
      assumption
    split
    · exact h q
    split <;> exact h q

/-- What a scan reads from a count on up to the place where it ends. -/
theorem reads_of_close? {opening closing : UInt8} (hd : Distinct opening closing) {outer : Nat}
    {quote : Option UInt8} (hquote : ∀ q, quote = some q → q ∈ quotes) {offset last : Nat} :
    {bs : List UInt8} → close? opening closing ⟨outer + 1, quote⟩ offset bs = some last →
      ∃ read rest, bs = read ++ rest ∧ offset + read.length = last + 1 ∧
        Reads opening closing outer read quote
  | [], h => nomatch h
  | b :: bs, h => by
    by_cases hslash : b = backslash
    · subst hslash
      cases bs with
      | nil => simp at h
      | cons c bs =>
        rw [close?_escape] at h
        obtain ⟨read, rest, rfl, hlast, hread⟩ := reads_of_close? hd hquote h
        refine ⟨backslash :: c :: read, rest, rfl, ?_, hread.escape c⟩
        simp only [length_cons]
        omega
    · rw [close?_cons hslash] at h
      have hcases := depth_next_cases opening closing b (outer + 1) quote
      split at h
      case isTrue hzero =>
        -- only the delimiter of the last open group brings the depth to zero
        obtain ⟨rfl, rfl, rfl⟩ : outer = 0 ∧ quote = none ∧ b = closing := by
          rw [hzero] at hcases
          rcases hcases with h | h | ⟨h, hnone, hb⟩
          · omega
          · omega
          · exact ⟨by omega, hnone, hb⟩
        obtain rfl := Option.some.inj h
        exact ⟨[b], bs, rfl, rfl, .last .nil⟩
      case isFalse hne =>
        obtain ⟨depth, hdepth⟩ : ∃ depth : Nat,
            (Count.next opening closing ⟨outer + 1, quote⟩ b).depth = depth + 1 := by
          refine ⟨((Count.next opening closing ⟨outer + 1, quote⟩ b).depth - 1).toNat, ?_⟩
          rcases hcases with h | h | ⟨h, -, -⟩ <;> omega
        have hmem := quote_next_mem opening closing b (s := ⟨outer + 1, quote⟩) hquote
        generalize hnext : Count.next opening closing ⟨outer + 1, quote⟩ b = next at *
        obtain ⟨_, after⟩ := next
        obtain rfl := hdepth
        obtain ⟨read, rest, rfl, hlast, hread⟩ := reads_of_close? hd hmem h
        refine ⟨b :: read, rest, rfl, ?_, hread.step hd hquote hslash hnext⟩
        rw [length_cons]
        omega
  termination_by bs => bs.length

/-! ## The scan and the grammar -/

/-- A scan starts by counting the delimiter it stands at. -/
theorem close?_opening {opening closing : UInt8} (hd : Distinct opening closing) {offset : Nat}
    {bs : List UInt8} : close? opening closing {} offset (opening :: bs) =
      close? opening closing ⟨1, none⟩ (offset + 1) bs := by
  rw [close?_cons hd.opening_ne_backslash, next_opening hd]
  rfl

/-- A scan from an opening delimiter ends at the delimiter that closes its group. -/
theorem close?_eq_some_iff {d : UInt8 × UInt8} (hmem : d ∈ delimiters) {offset last : Nat}
    {bs : List UInt8} : close? d.1 d.2 {} offset (d.1 :: bs) = some last ↔
      ∃ inner rest, Items d.1 d.2 inner ∧ bs = inner ++ d.2 :: rest ∧
        last = offset + 1 + inner.length := by
  have hd := distinct_of_mem hmem
  rw [close?_opening hd]
  constructor
  · intro h
    obtain ⟨read, rest, rfl, hlast, hread⟩ :
        ∃ read rest, bs = read ++ rest ∧ offset + 1 + read.length = last + 1 ∧
          Reads d.1 d.2 0 read none := reads_of_close? hd (by simp) h
    obtain ⟨inner, hinner, rfl⟩ := Closes.exists_items hread
    refine ⟨inner, rest, hinner, by simp, ?_⟩
    rw [length_append, List.length_singleton] at hlast
    omega
  · rintro ⟨inner, rest, hinner, rfl, rfl⟩
    rw [close?_append hd hinner Int.one_pos, close?_cons hd.closing_ne_backslash, next_closing hd]
    rfl

theorem lookup_delimiters {b closing : UInt8} :
    delimiters.lookup b = some closing ↔ (b, closing) ∈ delimiters := by
  simp only [delimiters, List.lookup_cons, List.lookup_nil, mem_cons, not_mem_nil,
    or_false, Prod.mk.injEq]
  grind

theorem isGroupAt_iff {bs : List UInt8} {first last : Nat} :
    IsGroupAt bs first last ↔ ∃ d ∈ delimiters, ∃ inner rest, Items d.1 d.2 inner ∧
      bs.drop first = d.1 :: inner ++ d.2 :: rest ∧ last = first + 1 + inner.length := by
  unfold IsGroupAt IsGroup
  rw [List.drop_take]
  constructor
  · rintro ⟨hlast, d, hd, inner, hinner, hgroup⟩
    have hlength := congrArg List.length hgroup
    simp only [List.length_take, List.length_drop, length_append, length_cons,
      List.length_nil] at hlength
    refine ⟨d, hd, inner, (bs.drop first).drop (last + 1 - first), hinner, ?_, by omega⟩
    calc
      bs.drop first = (bs.drop first).take (last + 1 - first) ++
          (bs.drop first).drop (last + 1 - first) := (List.take_append_drop ..).symm
      _ = _ := by rw [hgroup, append_assoc, List.singleton_append]
  · rintro ⟨d, hd, inner, rest, hinner, hdrop, rfl⟩
    have hlength := congrArg List.length hdrop
    simp only [List.length_drop, length_append, length_cons] at hlength
    refine ⟨by omega, d, hd, inner, hinner, ?_⟩
    have htake : first + 1 + inner.length + 1 - first = (d.1 :: inner ++ [d.2]).length := by
      simp only [length_append, length_cons, List.length_nil]
      omega
    rw [hdrop, htake, List.append_cons _ d.2 rest, List.take_left]

/-- **The scan from an offset ends just where a group that starts there ends.** -/
theorem closed?_scan_eq_some_iff {bs : List UInt8} {offset last : Nat} :
    closed? (scan bs offset) = some last ↔ IsGroupAt bs offset last := by
  rw [isGroupAt_iff, scan]
  split
  case h_1 hnil => simp [hnil, closed?]
  case h_2 b rest hdrop =>
    rw [hdrop]
    split
    case h_1 hnone =>
      refine iff_of_false (by simp [closed?]) ?_
      rintro ⟨d, hd, inner, after, -, heq, -⟩
      obtain ⟨rfl, -⟩ := List.cons.inj heq
      exact Option.eq_none_iff_forall_ne_some.1 hnone _ (lookup_delimiters.2 hd)
    case h_2 closing hsome =>
      have hmem := lookup_delimiters.1 hsome
      refine (close?_eq_some_iff hmem).trans ⟨?_, ?_⟩
      · rintro ⟨inner, after, hinner, rfl, rfl⟩
        exact ⟨(b, closing), hmem, inner, after, hinner, rfl, rfl⟩
      · rintro ⟨d, hd, inner, after, hinner, heq, hlast⟩
        obtain ⟨rfl, rfl⟩ := List.cons.inj heq
        obtain rfl : d.2 = closing := Option.some.inj ((lookup_delimiters.2 hd).symm.trans hsome)
        exact ⟨inner, after, hinner, rfl, hlast⟩

/-- The depth of a scan within a group does not go below zero. -/
theorem depth_nonneg_of_mem_visits {opening closing : UInt8} {s : Count} (hdepth : 0 < s.depth)
    {offset : Nat} {bs : List UInt8} {visit : Nat × Int}
    (h : visit ∈ visits opening closing s offset bs) : 0 ≤ visit.2 := by
  fun_induction visits opening closing s offset bs with
  | case1 => cases h
  | case2 => cases h
  | case3 s offset b rest ih => exact ih hdepth h
  | case4 s offset b bs hslash after ih =>
    have hafter : 0 ≤ after.depth := by
      have hcases : after.depth = s.depth ∨ after.depth = s.depth + 1 ∨
          (after.depth = s.depth - 1 ∧ s.quote = none ∧ b = closing) :=
        depth_next_cases opening closing b s.depth s.quote
      rcases hcases with h | h | ⟨h, -, -⟩ <;> omega
    rcases mem_cons.1 h with rfl | h
    · exact hafter
    · split at h
      case isTrue => cases h
      case isFalse hne => exact ih (by omega) h

/-- **The depth of a scan never goes below zero.** -/
theorem depth_nonneg_of_mem_scan {bs : List UInt8} {offset : Nat} {visit : Nat × Int}
    (h : visit ∈ scan bs offset) : 0 ≤ visit.2 := by
  unfold scan at h
  split at h
  case h_1 => cases h
  case h_2 b rest _ =>
    split at h
    case h_1 => cases h
    case h_2 closing hsome =>
      have hd := distinct_of_mem (lookup_delimiters.1 hsome)
      have hfirst : visits b closing {} offset (b :: rest) =
          (offset, 1) :: visits b closing ⟨1, none⟩ (offset + 1) rest := by
        have hnext : Count.next b closing {} b = ⟨1, none⟩ := next_opening hd
        rw [visits.eq_def]
        simp only [if_neg hd.opening_ne_backslash, hnext]
        rfl
      rw [hfirst] at h
      rcases mem_cons.1 h with rfl | h
      · exact Int.one_nonneg
      · exact depth_nonneg_of_mem_visits (s := ⟨1, none⟩) Int.one_pos h

end BladeView.Group.Bytes
