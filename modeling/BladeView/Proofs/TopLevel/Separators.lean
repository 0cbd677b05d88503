import Mathlib.Data.List.Forall2
import BladeView.Proofs.Block.Argument
import BladeView.Proofs.Text.Trimmed
import BladeView.Proofs.TopLevel.Walk

/-!
# The separators of the top level

A text is split at the separators of its top level. Which ones these are is said in bytes and
without splitting, by a walk over the bytes before a separator.

A separator is a byte. Within ASCII it is a character too. A byte beyond ASCII is only met within a
character, and there a text cannot be cut.

## Main statements

* `TopLevel.pieces?_high`: a separator beyond ASCII leaves a text whole, or there are no pieces.
* `TopLevel.isSplit_pieces`: a text is cut at all separators of its top level and nowhere else.
* `TopLevel.pieces_join_of_free`: pieces that lead back to the top level are found again.
-/
namespace BladeView.TopLevel

open Group.Bytes (backslash encode_backslash ne_of_high quotes)
open Level (isClosing isOpening isProper_start isTop_iff over?_append over?_cons start)
open List (cons_append contains_iff_mem exists_cons_of_ne_nil forall_mem_cons mem_singleton
  singleton_append)
open String (utf8EncodeChar utf8EncodeChar_ne_nil)
open Text (consFirst consFirst_ne_nil encode_ascii encode_cases isEmptyOrBlank join join_singleton
  toBytes toBytes_append toBytes_cons toBytes_injective toNat_toUInt8)

variable {t p part : Text} {parts texts : List Text} {b : UInt8} {l : Level}

/-! ## Separators -/

/-- The blanks within ASCII. -/
def blanks : List UInt8 := [0x09, 0x0A, 0x0B, 0x0C, 0x0D, 0x20]

/-- What may separate: no mark, no bracket, no backslash and no blank. -/
def IsSeparator (b : UInt8) : Prop := b ∉ quotes ++ openers ++ closers ++ backslash :: blanks

instance (b : UInt8) : Decidable (IsSeparator b) := inferInstanceAs (Decidable (_ ∉ _))

/-- A separator of the text is at its top level. -/
def Meets (separator : UInt8) (t : Text) : Prop := Walk.Meets {} separator (toBytes t)

/-- A part between separators: it has no blanks at its ends, leads from the top level to the top
level, and meets no separator there. -/
structure IsNeutral (separator : UInt8) (part : Text) : Prop where
  trim : Text.trim part = part
  atTop : AtTop (toBytes part)
  not_meets : ¬ Meets separator part

/-- The bytes of texts with a separator between them. -/
def joined (separator : UInt8) (texts : List Text) : List UInt8 :=
  [separator].intercalate (texts.map toBytes)

/-- One of the places where pieces are joined. -/
def CutsAt (separator : UInt8) (pieces : List Text) (before after : List UInt8) : Prop :=
  ∃ front back, pieces = front ++ back ∧ front ≠ [] ∧ back ≠ [] ∧
    before = joined separator front ∧ after = joined separator back

/-- The pieces between the separators of the top level: joined they are the text, and the places
where they are joined are the separators of the top level. -/
structure IsSplit (separator : UInt8) (t : Text) (pieces : List Text) : Prop where
  ne_nil : pieces ≠ []
  join : joined separator pieces = toBytes t
  cutsAt_iff : ∀ before after, toBytes t = before ++ separator :: after →
    (AtTop before ↔ CutsAt separator pieces before after)

/-- A separator that is a character. -/
structure Separates (c : Char) : Prop where
  ascii : c.toNat < 0x80
  isQuote : isQuote c = false
  isOpening : isOpening c = false
  isClosing : isClosing c = false
  ne_backslash : c ≠ '\\'
  isBlank : isBlank c = false

theorem IsSeparator.separates {c : Char} (hc : c.toNat < 0x80) (h : IsSeparator c.toUInt8) :
    Separates c := by
  obtain ⟨hquote, hopening, hclosing, hslash, hblank⟩ := forall_ascii (P := fun c =>
    IsSeparator c.toUInt8 → isQuote c = false ∧ isOpening c = false ∧
      isClosing c = false ∧ c ≠ '\\' ∧ isBlank c = false) (by decide +kernel) hc h
  exact ⟨hc, hquote, hopening, hclosing, hslash, hblank⟩

section Separator

variable {separator : Char}

namespace Separates

theorem next (h : Separates separator) (n : Int) :
    Level.next ⟨none, n⟩ separator = ⟨none, n⟩ := by
  simp [Level.next, h.isQuote, h.isOpening, h.isClosing]

theorem sees_iff (h : Separates separator) : l.sees separator = true ↔ l = start := by
  simp [Level.sees, isTop_iff, h.isQuote, h.isOpening, h.isClosing]

theorem pieces_separator (h : Separates separator) (t : Text) :
    pieces separator start (separator :: t) = [] :: pieces separator start t := by
  rw [pieces.eq_def]
  simp [h.ne_backslash, h.sees_iff]

end Separates

/-! ## Separators beyond ASCII -/

/-- A byte beyond ASCII is met at the top level and there are no pieces, or the text is one. -/
theorem pieces?_high (hb : 0x80 ≤ b.toNat) (hl : l.IsProper) (t : Text) :
    l.toWalk.Meets b (toBytes t) ∧ pieces? b l t = none ∨
      ¬ l.toWalk.Meets b (toBytes t) ∧ pieces? b l t = some [t] := by
  have hbackslash : b ≠ backslash := (next_byte hl hb).1
  fun_induction pieces? b l t with
  | case1 l => exact .inr ⟨by simpa using Walk.not_meets_nil, rfl⟩
  | case2 l c hc =>
    obtain rfl : c = '\\' := by simpa using hc
    refine .inr ⟨?_, rfl⟩
    rw [toBytes_cons, encode_backslash, singleton_append, Walk.meets_backslash hbackslash]
    simpa using Walk.not_meets_nil
  | case3 l c hc d ds hmet =>
    obtain rfl : c = '\\' := by simpa using hc
    rw [Bool.and_eq_true, isTop_iff, contains_iff_mem] at hmet
    exact .inl ⟨(meets_escaped hl hbackslash d ds).2 (.inl hmet.symm), rfl⟩
  | case4 l c hc d ds hmet ih =>
    obtain rfl : c = '\\' := by simpa using hc
    rw [Bool.and_eq_true, isTop_iff, contains_iff_mem, and_comm] at hmet
    rw [meets_escaped hl hbackslash, or_iff_right hmet]
    rcases ih hl with ⟨hrest, hpieces⟩ | ⟨hrest, hpieces⟩ <;> simp [hrest, hpieces, consFirst]
  | case5 l c cs hslash hmet hc ih =>
    rw [Bool.and_eq_true, contains_iff_mem, encode_ascii hc, mem_singleton] at hmet
    exact absurd hmet.2 (ne_of_high hb hc)
  | case6 l c cs hslash hmet hc =>
    rw [Bool.and_eq_true, contains_iff_mem, Level.sees, Bool.and_eq_true, isTop_iff] at hmet
    exact .inl ⟨(meets_char hl (by simpa using hslash) cs).2 (.inl ⟨hmet.2, hmet.1.1⟩), rfl⟩
  | case7 l c cs hslash hmet ih =>
    have hpasses : ¬ (b ∈ utf8EncodeChar c ∧ l = start) := by
      rintro ⟨hmem, hstart⟩
      rcases encode_cases c with ⟨hc, hone⟩ | ⟨hc, -⟩
      · exact ne_of_high hb hc (mem_singleton.1 (hone ▸ hmem))
      · simp [Level.sees, isTop_iff.2 hstart, plain_of_high hc, hmem] at hmet
    rw [meets_char hl (by simpa using hslash), or_iff_right hpasses]
    rcases ih (hl.next c) with ⟨hrest, hpieces⟩ | ⟨hrest, hpieces⟩ <;>
      simp [hrest, hpieces, consFirst]

/-! ## Where a text is cut -/

section CutsAt

variable {c : Char} {ps : List Text} {before after : List UInt8}

theorem joined_singleton (p : Text) : joined b [p] = toBytes p := by
  simp [joined]

theorem joined_cons (p : Text) (hps : ps ≠ []) :
    joined b (p :: ps) = toBytes p ++ b :: joined b ps := by
  rw [joined, List.map_cons, List.intercalate_cons_of_ne_nil (by simpa using hps)]
  simp [joined]

theorem joined_cons_head (c : Char) (p : Text) (ps : List Text) :
    joined b ((c :: p) :: ps) = utf8EncodeChar c ++ joined b (p :: ps) := by
  cases ps with
  | nil => rw [joined_singleton, joined_singleton, toBytes_cons]
  | cons q ps =>
    have hne : q :: ps ≠ [] := by simp
    rw [joined_cons _ hne, joined_cons _ hne, toBytes_cons, List.append_assoc]

/-- Texts are joined by a character as they are joined by its byte. -/
theorem joined_toUInt8 (hc : c.toNat < 0x80) (texts : List Text) :
    joined c.toUInt8 texts = toBytes (join [c] texts) := by
  induction texts with
  | nil => simp [joined, join]
  | cons p texts ih =>
    by_cases hne : texts = []
    · rw [hne, joined_singleton, join_singleton]
    · rw [joined_cons p hne, Text.join_cons_of_ne_nil _ _ hne, toBytes_append, toBytes_append, ih,
        toBytes_cons, encode_ascii hc]
      simp

theorem cutsAt_consFirst (hps : ps ≠ []) :
    CutsAt b (consFirst c ps) (utf8EncodeChar c ++ before) after ↔ CutsAt b ps before after := by
  obtain ⟨p, ps, rfl⟩ := exists_cons_of_ne_nil hps
  constructor
  · rintro ⟨front, back, heq, hfront, hback, hbefore, hafter⟩
    obtain ⟨first, front, rfl⟩ := exists_cons_of_ne_nil hfront
    obtain ⟨rfl, rfl⟩ := List.cons.inj heq
    rw [joined_cons_head] at hbefore
    exact ⟨p :: front, back, rfl, by simp, hback, List.append_cancel_left hbefore, hafter⟩
  · rintro ⟨front, back, heq, hfront, hback, rfl, hafter⟩
    obtain ⟨first, front, rfl⟩ := exists_cons_of_ne_nil hfront
    obtain ⟨rfl, rfl⟩ := List.cons.inj heq
    exact ⟨(c :: p) :: front, back, rfl, by simp, hback, (joined_cons_head ..).symm, hafter⟩

theorem not_cutsAt_consFirst_nil : ¬ CutsAt b (consFirst c ps) [] after := by
  rintro ⟨front, back, heq, hfront, -, hbefore, -⟩
  obtain ⟨first, front, rfl⟩ := exists_cons_of_ne_nil hfront
  obtain ⟨p, hp⟩ : ∃ p, first = c :: p := by
    cases ps with
    | nil => exact ⟨[], (List.cons.inj heq).1.symm⟩
    | cons p ps => exact ⟨p, (List.cons.inj heq).1.symm⟩
  rw [hp, joined_cons_head, eq_comm, List.append_eq_nil_iff] at hbefore
  exact utf8EncodeChar_ne_nil hbefore.1

theorem cutsAt_nil_cons (hps : ps ≠ []) : CutsAt b ([] :: ps) [] (joined b ps) :=
  ⟨[[]], ps, rfl, by simp, hps, by simp [joined_singleton], rfl⟩

theorem cutsAt_nil_cons_cons :
    CutsAt b ([] :: ps) (b :: before) after ↔ CutsAt b ps before after := by
  constructor
  · rintro ⟨front, back, heq, hfront, hback, hbefore, hafter⟩
    obtain ⟨first, front, rfl⟩ := exists_cons_of_ne_nil hfront
    obtain ⟨rfl, rfl⟩ := List.cons.inj heq
    have hne : front ≠ [] := by
      rintro rfl
      simp [joined_singleton] at hbefore
    rw [joined_cons _ hne, Text.toBytes_nil] at hbefore
    exact ⟨front, back, rfl, hne, hback, (List.cons.inj hbefore).2, hafter⟩
  · rintro ⟨front, back, rfl, hfront, hback, rfl, hafter⟩
    exact ⟨[] :: front, back, rfl, by simp, hback, by simp [joined_cons _ hfront], hafter⟩

theorem not_cutsAt_singleton {p : Text} : ¬ CutsAt b [p] before after := by
  rintro ⟨front, back, heq, hfront, hback, -⟩
  rcases List.append_eq_singleton_iff.1 heq.symm with ⟨rfl, -⟩ | ⟨-, rfl⟩
  · exact hfront rfl
  · exact hback rfl

end CutsAt

/-- The places where the pieces of a text are joined are those that are reached at the top level. -/
theorem over?_iff_cutsAt (h : Separates separator) {before after : Text}
    (ht : t = before ++ separator :: after) :
    l.over? before = some start ↔
      CutsAt separator.toUInt8 (pieces separator l t) (toBytes before) (toBytes after) := by
  fun_induction pieces separator l t generalizing before with
  | case1 => simp at ht
  | case2 l c hc =>
    obtain rfl : c = '\\' := by simpa using hc
    cases before with
    | nil => exact absurd (List.cons.inj ht).1.symm h.ne_backslash
    | cons d before => simp at ht
  | case3 l c hc d ds ih =>
    obtain rfl : c = '\\' := by simpa using hc
    rcases before with _ | ⟨c', _ | ⟨d', before⟩⟩
    · exact absurd (List.cons.inj ht).1.symm h.ne_backslash
    · obtain rfl : '\\' = c' := (List.cons.inj ht).1
      rw [toBytes_cons, cutsAt_consFirst (consFirst_ne_nil _ _)]
      simp [Level.over?, not_cutsAt_consFirst_nil]
    · obtain ⟨hslash, hd, hds⟩ : '\\' = c' ∧ d = d' ∧ ds = before ++ separator :: after := by
        simpa using ht
      subst hslash hd
      rw [toBytes_cons, cutsAt_consFirst (consFirst_ne_nil _ _), toBytes_cons,
        cutsAt_consFirst (pieces_ne_nil _ _ _), ← ih hds, Level.over?.eq_def]
      simp
  | case4 l c cs hslash hc ih =>
    rw [Bool.and_eq_true, beq_iff_eq] at hc
    obtain ⟨hsees, rfl⟩ := hc
    obtain rfl := h.sees_iff.1 hsees
    cases before with
    | nil =>
      obtain rfl : cs = after := (List.cons.inj ht).2
      have hcut : CutsAt c.toUInt8 ([] :: pieces c start cs) [] _ :=
        cutsAt_nil_cons (pieces_ne_nil c start cs)
      rw [joined_toUInt8 h.ascii, join_pieces] at hcut
      simp [Level.over?, hcut]
    | cons d before =>
      obtain ⟨rfl, hcs⟩ := List.cons.inj ht
      rw [toBytes_cons, encode_ascii h.ascii, singleton_append, cutsAt_nil_cons_cons, ← ih hcs,
        over?_cons h.ne_backslash]
      exact iff_of_eq (congrArg (fun l : Level => l.over? before = some start) (h.next 0))
  | case5 l c cs hslash hc ih =>
    have hslash : c ≠ '\\' := by simpa using hslash
    cases before with
    | nil =>
      obtain rfl : c = separator := (List.cons.inj ht).1
      have hl : l ≠ start := fun hstart => hc (by simp [h.sees_iff.2 hstart])
      simp [Level.over?, not_cutsAt_consFirst_nil, hl]
    | cons d before =>
      obtain ⟨rfl, hcs⟩ := List.cons.inj ht
      rw [toBytes_cons, cutsAt_consFirst (pieces_ne_nil _ _ _), ← ih hcs, over?_cons hslash]

theorem isSplit_pieces (h : Separates separator) (t : Text) :
    IsSplit separator.toUInt8 t (pieces separator start t) where
  ne_nil := pieces_ne_nil _ _ _
  join := by rw [joined_toUInt8 h.ascii, join_pieces]
  cutsAt_iff := by
    intro before after ht
    obtain ⟨before, after, rfl, rfl, rfl⟩ := exists_of_toBytes_eq h.ascii ht
    exact atTop_iff.trans (over?_iff_cutsAt h rfl)

theorem isSplit_singleton (h : ¬ Meets b t) : IsSplit b t [t] where
  ne_nil := by simp
  join := joined_singleton t
  cutsAt_iff := fun before after ht =>
    iff_of_false (fun htop => h ⟨before, after, ht, htop⟩) not_cutsAt_singleton

/-! ## Pieces that are put together -/

/-- No separator of the text is at its top level. -/
def Free (separator : Char) (t : Text) : Prop :=
  ∀ before after, t = before ++ separator :: after → start.over? before ≠ some start

theorem free_of_not_meets (h : Separates separator) (ht : ¬ Meets separator.toUInt8 t) :
    Free separator t := by
  rintro before after rfl hover
  refine ht ⟨toBytes before, toBytes after, ?_, atTop_iff.2 hover⟩
  rw [toBytes_append, toBytes_cons, encode_ascii h.ascii, singleton_append]

/-- A text without separators of the top level goes with the first piece of what follows. -/
theorem pieces_append_of_free (h : Separates separator) {m : Level}
    (hover : l.over? p = some m) (hfree : ∀ before after, p = before ++ separator :: after →
      l.over? before ≠ some start) (rest : Text) :
    pieces separator l (p ++ rest) = p.foldr consFirst (pieces separator m rest) := by
  fun_induction Level.over? l p with
  | case1 l => rw [← Option.some.inj hover]; rfl
  | case2 => cases hover
  | case3 l c hc d ds ih =>
    have hrest := ih hover fun before after hds => by
      have hne := hfree (c :: d :: before) after (by rw [hds]; rfl)
      rw [Level.over?.eq_def] at hne
      simpa [hc] using hne
    rw [cons_append, cons_append, pieces.eq_def]
    simp [hc, hrest]
  | case4 l c cs hc ih =>
    have hslash : c ≠ '\\' := by simpa using hc
    have hpasses : (l.sees c && c == separator) = false := by
      rw [Bool.and_eq_false_imp]
      intro hsees
      rw [beq_eq_false_iff_ne]
      rintro rfl
      exact hfree [] cs rfl (congrArg some (h.sees_iff.1 hsees))
    have hrest := ih hover fun before after hcs => by
      have hne := hfree (c :: before) after (by rw [hcs]; rfl)
      rwa [over?_cons hslash] at hne
    rw [cons_append, pieces_cons hslash hpasses, hrest]
    rfl

theorem pieces_join_of_free (h : Separates separator) {ps : List Text} (hne : ps ≠ [])
    (hps : ∀ p ∈ ps, AtTop (toBytes p) ∧ Free separator p) :
    pieces separator start (join [separator] ps) = ps := by
  obtain ⟨p, ps, rfl⟩ := exists_cons_of_ne_nil hne
  rw [pieces_join h.pieces_separator (fun _ => rfl) fun q hq =>
    pieces_append_of_free h (atTop_iff.1 (hps q hq).1) (hps q hq).2]
  exact congrArg (p :: ·) (List.map_id' ps)

/-! ## Blanks -/

theorem over?_blanks {blanks : Text} (hblanks : ∀ c ∈ blanks, isBlank c = true) :
    start.over? blanks = some start := by
  induction blanks with
  | nil => rfl
  | cons c blanks ih =>
    obtain ⟨hc, hblanks⟩ := forall_mem_cons.1 hblanks
    have hslash : c ≠ '\\' := by
      rintro rfl
      cases hc
    have hnext : start.next c = start := Level.next_of_isPlainCode (isPlainCode_of_isBlank hc) 0
    rw [over?_cons hslash, hnext, ih hblanks]

theorem Free.append {u v : Text} (hu : Free separator u) (htop : start.over? u = some start)
    (hv : Free separator v) : Free separator (u ++ v) := by
  intro before after heq hbefore
  rcases List.append_eq_append_iff.1 heq with ⟨front, rfl, hrest⟩ | ⟨front, rfl, hrest⟩
  · rw [over?_append htop] at hbefore
    exact hv front after hrest hbefore
  · cases front with
    | nil => exact hv [] after hrest.symm rfl
    | cons c front =>
      obtain ⟨rfl, -⟩ := List.cons.inj hrest
      exact hu before front rfl hbefore

/-- A part with blanks around it. -/
def Padded (part t : Text) : Prop :=
  ∃ before after, (∀ c ∈ before, isBlank c = true) ∧ (∀ c ∈ after, isBlank c = true) ∧
    t = before ++ part ++ after

theorem Padded.trim (h : Padded part t) (hpart : Text.trim part = part) : Text.trim t = part := by
  obtain ⟨before, after, hbefore, hafter, rfl⟩ := h
  rw [Text.trim_append_blanks hafter, Text.trim_blanks_append hbefore, hpart]

theorem Padded.atTop (h : Padded part t) (hpart : AtTop (toBytes part)) : AtTop (toBytes t) := by
  obtain ⟨before, after, hbefore, hafter, rfl⟩ := h
  rw [atTop_iff] at hpart ⊢
  rw [List.append_assoc, over?_append (over?_blanks hbefore), over?_append hpart,
    over?_blanks hafter]

theorem Padded.free (hseparator : Separates separator) (h : Padded part t)
    (htop : AtTop (toBytes part)) (hpart : Free separator part) : Free separator t := by
  obtain ⟨before, after, hbefore, hafter, rfl⟩ := h
  have hblanks {s : Text} (hs : ∀ c ∈ s, isBlank c = true) : Free separator s := by
    rintro front back rfl -
    have hblank := hs separator (by simp)
    rw [hseparator.isBlank] at hblank
    cases hblank
  have htop' : start.over? (before ++ part) = some start := by
    rw [over?_append (over?_blanks hbefore), atTop_iff.1 htop]
  exact ((hblanks hbefore).append (over?_blanks hbefore) hpart).append htop' (hblanks hafter)

/-! ## Splitting -/

theorem trim_eq_nil_iff : Text.trim t = [] ↔ isEmptyOrBlank t = true := by
  rw [isEmptyOrBlank, List.all_eq_true]
  constructor
  · intro htrim
    obtain ⟨before, after, heq, hbefore, hafter⟩ := Text.trim_spec t
    rw [htrim, List.append_nil] at heq
    rw [heq]
    exact List.forall_mem_append.2 ⟨hbefore, hafter⟩
  · intro hblank
    have htrim := Text.trim_blanks_append (t := []) hblank
    rw [List.append_nil] at htrim
    rw [htrim]
    rfl

theorem split?_eq_of_pieces? {ps : List Text} (h : pieces? b start t = some ps) :
    split? b t =
      some ((if ps.getLast?.any isEmptyOrBlank then ps.dropLast else ps).map Text.trim) := by
  have hlast : (ps.map Text.trim).getLast? = some [] ↔ ps.getLast?.any isEmptyOrBlank = true := by
    rw [List.getLast?_map, Option.map_eq_some_iff, Option.any_eq_true]
    simp only [trim_eq_nil_iff]
  rw [split?, h, Option.map_some, dropEmptyLast_eq, List.map_dropLast.symm]
  simp only [hlast]
  split <;> rfl

/-- Where a text can be cut, the separator is a character, or there is nothing to cut. -/
theorem cases_of_not_breaks (h : IsSeparator b) (hcut : ¬ (0x80 ≤ b ∧ Meets b t)) :
    (∃ c, Separates c ∧ c.toUInt8 = b) ∨ ¬ Meets b t ∧ pieces? b start t = some [t] := by
  by_cases hb : 0x80 ≤ b
  · refine .inr ((pieces?_high (UInt8.le_iff_toNat_le.1 hb) isProper_start t).resolve_left ?_)
    exact fun hmeets => hcut ⟨hb, hmeets.1⟩
  · have hlow : (Char.ofUInt8 b).toNat < 0x80 :=
      Nat.not_le.1 fun hle => hb (UInt8.le_iff_toNat_le.2 hle)
    have hbyte : (Char.ofUInt8 b).toUInt8 = b := UInt8.toNat_inj.1 (toNat_toUInt8 hlow)
    exact .inl ⟨Char.ofUInt8 b, IsSeparator.separates hlow (hbyte.symm ▸ h), hbyte⟩

section Padded

variable (hparts : ∀ part ∈ parts, IsNeutral b part) (htexts : List.Forall₂ Padded parts texts)

include hparts htexts

theorem map_trim_of_padded : texts.map Text.trim = parts := by
  induction htexts with
  | nil => rfl
  | cons hpadded _ ih =>
    obtain ⟨hpart, hparts⟩ := forall_mem_cons.1 hparts
    rw [List.map_cons, hpadded.trim hpart.trim, ih hparts]

theorem free_of_padded (h : Separates separator) (hb : separator.toUInt8 = b) :
    ∀ t ∈ texts, AtTop (toBytes t) ∧ Free separator t := by
  induction htexts with
  | nil => simp
  | cons hpadded _ ih =>
    obtain ⟨hpart, hparts⟩ := forall_mem_cons.1 hparts
    have hfree := free_of_not_meets h (hb ▸ hpart.not_meets)
    exact forall_mem_cons.2
      ⟨⟨hpadded.atTop hpart.atTop, hpadded.free h hpart.atTop hfree⟩, ih hparts⟩

/-- Neutral parts with blanks around them are found again, where a text can be cut between them. -/
theorem pieces?_of_padded (h : IsSeparator b) (hcut : ¬ (0x80 ≤ b ∧ Meets b t))
    (hne : texts ≠ []) (ht : toBytes t = joined b texts) :
    pieces? b start t = some texts := by
  rcases cases_of_not_breaks h hcut with ⟨c, hc, rfl⟩ | ⟨hmeets, hpieces⟩
  · obtain rfl : t = join [c] texts :=
      toBytes_injective (ht.trans (joined_toUInt8 hc.ascii texts))
    rw [pieces?_eq hc.ascii, pieces_join_of_free hc hne (free_of_padded hparts htexts hc rfl)]
  · cases htexts with
    | nil => exact absurd rfl hne
    | cons hfirst hrest =>
      cases hrest with
      | nil =>
        rw [joined_singleton] at ht
        rw [hpieces, toBytes_injective ht]
      | cons _ _ =>
        -- a separator after the first part would be met at the top level
        rw [joined_cons _ (by simp)] at ht
        exact absurd ⟨_, _, ht, hfirst.atTop (hparts _ List.mem_cons_self).atTop⟩ hmeets

end Padded

/-- **Splitting undoes joining.** A separator beyond ASCII that is met at the top level is within a
character, and a text that meets one cannot be split. In all other texts, neutral parts that are
joined, with any blanks around the separators, are the parts that the text is split into, if the
last is not empty; and any text is split into the pieces between the separators of its top level,
trimmed and in order, where only a last piece of nothing but blanks is left out. -/
theorem split_join_neutral (separator : UInt8) (h : IsSeparator separator) (t : Text) :
    (0x80 ≤ separator ∧ Meets separator t → split? separator t = none) ∧
    (¬ (0x80 ≤ separator ∧ Meets separator t) →
      (∀ parts texts : List Text, (∀ part ∈ parts, IsNeutral separator part) →
        parts.getLast? ≠ some [] → List.Forall₂ Padded parts texts →
        toBytes t = joined separator texts → split? separator t = some parts) ∧
      ∃ pieces, IsSplit separator t pieces ∧
        split? separator t =
          some ((if pieces.getLast?.any isEmptyOrBlank then pieces.dropLast else pieces).map
            Text.trim)) := by
  refine ⟨fun hbreaks => ?_, fun hcut => ⟨fun parts texts hparts hlast htexts ht => ?_, ?_⟩⟩
  · rcases pieces?_high (UInt8.le_iff_toNat_le.1 hbreaks.1) isProper_start t with
      ⟨-, hpieces⟩ | ⟨hmeets, -⟩
    · rw [split?, hpieces, Option.map_none]
    · exact absurd hbreaks.2 hmeets
  · cases htexts with
    | nil =>
      obtain rfl : t = [] := toBytes_injective (ht.trans Text.toBytes_nil.symm)
      rfl
    | cons hfirst hrest =>
      have hall := hrest.cons hfirst
      rw [split?, pieces?_of_padded hparts hall h hcut (by simp) ht, Option.map_some,
        map_trim_of_padded hparts hall, dropEmptyLast_eq, if_neg hlast]
  · rcases cases_of_not_breaks h hcut with ⟨c, hc, rfl⟩ | ⟨hmeets, hpieces⟩
    · exact ⟨_, isSplit_pieces hc t, split?_eq_of_pieces? (pieces?_eq hc.ascii _ t)⟩
    · exact ⟨[t], isSplit_singleton hmeets, split?_eq_of_pieces? hpieces⟩

/-- A text that is not cut has no separator at its top level. -/
theorem not_meets_of_pieces (h : Separates separator) (ht : pieces separator start t = [t]) :
    ¬ Meets separator.toUInt8 t := by
  rintro ⟨before, after, heq, htop⟩
  have hcut := ((isSplit_pieces h t).cutsAt_iff before after heq).1 htop
  rw [ht] at hcut
  exact not_cutsAt_singleton hcut

end Separator

/-- Brackets of different kinds close each other, marks and backslashes hide commas, and an empty
part stays between two commas. -/
theorem split_join_neutral_mixed :
    (∀ part ∈ (["(a,b]", "", "'x,'", "\\,é"] : List Text), IsNeutral ','.toUInt8 part) ∧
      split? ','.toUInt8 "(a,b] ,\t,'x,', \\,é" =
        some (["(a,b]", "", "'x,'", "\\,é"] : List Text) := by
  have hcomma : IsSeparator ','.toUInt8 := by decide
  have hneutral : ∀ part ∈ (["(a,b]", "", "'x,'", "\\,é"] : List Text),
      IsNeutral ','.toUInt8 part := by
    have hchar := hcomma.separates (by decide)
    simp only [List.forall_mem_cons]
    refine ⟨?_, ?_, ?_, ?_, by simp⟩
    all_goals
      exact ⟨by decide +kernel, by decide +kernel, not_meets_of_pieces hchar (by decide +kernel)⟩
  have hpadded : List.Forall₂ Padded (["(a,b]", "", "'x,'", "\\,é"] : List Text)
      ["(a,b] ", "\t", "'x,'", " \\,é"] :=
    .cons ⟨[], [' '], by simp, by simp; decide, by decide +kernel⟩
      (.cons ⟨[], ['\t'], by simp, by simp; decide, by decide +kernel⟩
        (.cons ⟨[], [], by simp, by simp, by decide +kernel⟩
          (.cons ⟨[' '], [], by simp; decide, by simp, by decide +kernel⟩ .nil)))
  have hjoin : "(a,b] ,\t,'x,', \\,é".toList =
      join [','] ["(a,b] ", "\t", "'x,'", " \\,é"] := by decide +kernel
  have hbytes := (congrArg toBytes hjoin).trans (joined_toUInt8 (by decide) _).symm
  have hcut : ¬ (0x80 ≤ ','.toUInt8 ∧ Meets ','.toUInt8 "(a,b] ,\t,'x,', \\,é") :=
    fun h => absurd h.1 (by decide)
  exact ⟨hneutral, ((split_join_neutral ','.toUInt8 hcomma _).2 hcut).1 _ _ hneutral
    (by decide +kernel) hpadded hbytes⟩

/-- A character of two bytes has no pieces at the first of them. -/
theorem split?_within_character :
    IsSeparator 0xC3 ∧ split? 0xC3 ['é'] = none ∧
      ¬ ∃ pieces, IsSplit 0xC3 ['é'] pieces ∧
        split? 0xC3 ['é'] =
          some ((if pieces.getLast?.any isEmptyOrBlank then pieces.dropLast else pieces).map
            Text.trim) := by
  have hnone : split? 0xC3 ['é'] = none := by decide
  refine ⟨by decide, hnone, ?_⟩
  rintro ⟨pieces, -, hsplit⟩
  rw [hnone] at hsplit
  cases hsplit

end BladeView.TopLevel
