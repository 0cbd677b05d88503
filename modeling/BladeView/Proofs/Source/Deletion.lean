import BladeView.Proofs.Declaration.Removal
import BladeView.Proofs.Markup.Replaced

/-!
# What the removal of directives deletes

The directives that configure the view are cut out of the body. What is deleted with a directive is
its text, or all of the lines it stands on if it is alone there and nothing on them was deleted
before; all else is kept. The offsets are in bytes, and no slice between them can fail.

A line is tried from its start, and then the directives on it one by one. A directive that is alone
on its lines would have been found from the start of the line.

## Main statements

* `Body.exists_removalFrom`: what the removal does from any place on.
* `Body.removeDirectives_deletes`: only whole directives are deleted, and all of those that can be.
-/
namespace BladeView

open List (append_assoc append_nil length_append)

variable {names : List Text} {needsArgs : Bool} {before : Option Char} {t : Text}

namespace Text

/-! ## Slices -/

/-- The text from one byte offset up to another. There is none if the offsets are out of order,
beyond the text, or within a character. -/
def between? (t : Text) (start stop : Nat) : Option Text := do
  let rest ← fromByte? start t
  let after ← if start ≤ stop then fromByte? (stop - start) rest else none
  return rest.take (rest.length - after.length)

theorem between?_append (front middle back : Text) (ht : t = front ++ (middle ++ back)) :
    between? t (byteSize front) (byteSize (front ++ middle)) = some middle := by
  have hrest : fromByte? (byteSize front) t = some (middle ++ back) :=
    fromByte?_eq_some_iff.mpr ⟨front, ht, rfl⟩
  have hback : fromByte? (byteSize middle) (middle ++ back) = some back :=
    fromByte?_eq_some_iff.mpr ⟨middle, rfl, rfl⟩
  simp [between?, hrest, hback, byteSize_append]

/-- Of two beginnings of a text the one with fewer characters has fewer bytes. -/
theorem byteSize_le_iff {u v x y : Text} (h : u ++ x = v ++ y) :
    byteSize u ≤ byteSize v ↔ u.length ≤ v.length := by
  rcases List.append_eq_append_iff.mp h with ⟨more, rfl, -⟩ | ⟨more, rfl, -⟩
  · simp [byteSize_append]
  · cases more with
    | nil => simp
    | cons c more =>
      have hpos := c.utf8Size_pos
      simp only [byteSize_append, byteSize_cons, length_append, List.length_cons]
      omega

/-- A text without what stands between some pairs of byte offsets, from the offset `done` on. -/
def without? (t : Text) (done : Nat) : List (Nat × Nat) → Option Text
  | [] => between? t done (byteSize t)
  | (start, stop) :: spans => return (← between? t done start) ++ (← without? t stop spans)

end Text

open Text (between? byteSize dropEndWhile sweep without? word)

namespace Occurrence.Found

/-! ## Lines -/

variable (c : Found t)

/-- The text before a directive up to the start of its line. -/
def above : Text := Text.dropEndWhile (· != '\n') c.front

/-- The text after a directive up to the end of its line. -/
def trail : Text := c.back.takeWhile (· != '\n')

/-- The byte offset of the at sign. -/
def offset : Nat := byteSize c.front

/-- The byte offset after the directive. -/
def ending : Nat := byteSize (c.front ++ c.span)

/-- The byte offset at which the line of the at sign starts. -/
def lineStart : Nat := byteSize c.above

/-- The byte offset at which the line ends that the directive ends on. -/
def lineEnd : Nat := byteSize (c.front ++ c.span ++ c.trail)

/-- The text up to that end of a line, and the break there. -/
def throughLine : Text := c.front ++ c.span ++ c.trail ++ (c.back.dropWhile (· != '\n')).take 1

/-- Only blanks stand around a directive on its lines. -/
def isAlone : Bool :=
  Text.isEmptyOrBlank (c.front.drop c.above.length) && Text.isEmptyOrBlank c.trail

/-- The byte offsets between which text is deleted with a directive, when it has been dealt with
all that comes before the offset `done`. The lines of the directive are deleted, with the break at
their end, if it is alone there and nothing on them was deleted before. -/
def deleted (done : Nat) : Nat × Nat :=
  if c.isAlone ∧ done ≤ c.lineStart then (c.lineStart, byteSize c.throughLine)
  else (c.offset, c.ending)

/-- The byte offsets between which the text is looked at for a directive. -/
def slices : List (Nat × Nat) :=
  [(0, c.offset), (c.ending, byteSize t), (c.lineStart, c.offset), (c.ending, c.lineEnd)]

theorem span_ne_nil : c.span ≠ [] := by
  obtain ⟨more, hspan⟩ := c.exists_span
  simp [hspan]

/-- What is deleted with the lines of a directive. -/
theorem exists_throughLine : ∃ piece, piece ≠ [] ∧ c.throughLine = c.above ++ piece := by
  obtain ⟨lead, hfront, -⟩ := Text.dropEndWhile_append (· != '\n') c.front
  refine ⟨lead ++ c.span ++ c.trail ++ (c.back.dropWhile (· != '\n')).take 1,
    by simp [c.span_ne_nil], ?_⟩
  simp only [throughLine, above, append_assoc]
  rw [← append_assoc _ lead, ← hfront]

theorem isSome_slices : ∀ s ∈ c.slices, (between? t s.1 s.2).isSome = true := by
  obtain ⟨lead, hfront, -⟩ := Text.dropEndWhile_append (· != '\n') c.front
  have hlead : c.front = c.above ++ lead := hfront
  have ht : t = c.front ++ c.span ++ c.back := c.text_eq.trans (append_assoc ..).symm
  have hback : c.back = c.trail ++ c.back.dropWhile (· != '\n') :=
    List.takeWhile_append_dropWhile.symm
  have hslice (front middle back : Text) (h : t = front ++ (middle ++ back)) :
      (between? t (byteSize front) (byteSize (front ++ middle))).isSome = true :=
    Option.isSome_of_eq_some (Text.between?_append front middle back h)
  simp only [slices, List.forall_mem_cons, List.not_mem_nil, false_imp_iff, implies_true, and_true]
  refine ⟨hslice [] c.front _ c.text_eq, ?_, ?_, hslice _ c.trail _ (ht.trans (congrArg _ hback))⟩
  · have hrest := hslice _ c.back [] (ht.trans (congrArg _ (append_nil c.back).symm))
    rwa [← ht] at hrest
  · have hline := hslice c.above lead (c.span ++ c.back)
      (c.text_eq.trans (by rw [← append_assoc c.above, ← hlead]))
    rwa [← hlead] at hline

end Occurrence.Found

namespace Body

open Occurrence (Found OpensList opensArgs_iff Unclosed)

/-- What is deleted with some directives, one after the other. -/
def spans (done : Nat) : List (Found t) → List (Nat × Nat)
  | [] => []
  | c :: cuts => c.deleted done :: spans (c.deleted done).2 cuts

theorem directive?_found {c : Found t} (hc : isRemovable names needsArgs c.directive = true) :
    directive? names needsArgs c.front.getLast? (c.span ++ c.back) = some c.back := by
  simp [directive?_eq, c.read?_eq, Option.filter, hc]

theorem exists_of_directive? {front back rest : Text} (ht : t = front ++ back)
    (h : directive? names needsArgs front.getLast? back = some rest) :
    ∃ c : Found t, isRemovable names needsArgs c.directive = true ∧ c.front = front ∧
      back = c.span ++ rest ∧ c.back = rest := by
  rw [directive?_eq] at h
  obtain ⟨⟨d, after⟩, hfound, rfl⟩ := Option.map_eq_some_iff.mp h
  obtain ⟨hread, hd⟩ := Option.filter_eq_some_iff.mp hfound
  obtain ⟨span, rfl, hstands⟩ := Occurrence.read?_eq_some_iff.mp hread
  exact ⟨⟨front, d, span, after, ht, hstands⟩, hd, rfl, rfl, rfl⟩

/-- A line, and what stands above it. -/
structure IsLine (above line : Text) : Prop where
  above_ends : above.getLast?.any (· != '\n') = false
  no_break : '\n' ∉ line

section

variable {above line back : Text}

theorem IsLine.above_eq (h : IsLine above line) :
    dropEndWhile (· != '\n') (above ++ line) = above := by
  have hline : ∀ c ∈ line.reverse, (c != '\n') = true := by
    intro c hc
    have hmem := List.mem_reverse.mp hc
    simpa using fun heq : c = '\n' => h.no_break (heq ▸ hmem)
  have habove : above.reverse.dropWhile (· != '\n') = above.reverse :=
    Text.dropWhile_eq_self_of_head? (by rw [List.head?_reverse]; exact h.above_ends)
  rw [dropEndWhile, List.reverse_append, List.dropWhile_append_of_pos hline, habove,
    List.reverse_reverse]

theorem exists_isLine (t : Text) : ∃ above line, t = above ++ line ∧ IsLine above line := by
  obtain ⟨line, ht, hline⟩ := Text.dropEndWhile_append (· != '\n') t
  refine ⟨_, line, ht, ?_, fun hmem => by simpa using hline _ hmem⟩
  rw [dropEndWhile, List.getLast?_reverse]
  exact Text.head?_dropWhile _ _

theorem startsDirective_found (c : Found t) : startsDirective c.front.getLast? = true :=
  startsDirective_iff.mpr ⟨c.stands.before_ne_sign, c.stands.before_not_name⟩

/-- A directive that is removed with its lines is alone there. -/
theorem exists_of_wholeLine? {rest : Text} (hline : IsLine above []) (ht : t = above ++ back)
    (h : wholeLine? (directive? names needsArgs none) back = some rest) :
    ∃ c : Found t, isRemovable names needsArgs c.directive = true ∧ c.isAlone = true ∧
      c.above = above ∧ t = c.throughLine ++ rest := by
  obtain ⟨lead, _, after, rfl, hread, hblank, htrail, rfl⟩ := wholeLine?_eq_some h
  have hlead : ∀ c ∈ lead, isBlank c = true := fun c hc => (hblank c hc).1
  have hstarts : startsDirective none = startsDirective (above ++ lead).getLast? := by
    rw [List.getLast?_append, startsDirective_of_line hline.above_ends hlead]
    rfl
  rw [directive?_congr hstarts] at hread
  obtain ⟨c, hc, hfront, rfl, rfl⟩ :=
    exists_of_directive? (t := t) (by rw [ht, append_assoc]) hread
  have habove : c.above = above := by
    rw [Found.above, hfront]
    exact IsLine.above_eq ⟨hline.above_ends, fun hmem => (hblank _ hmem).2 rfl⟩
  refine ⟨c, hc, ?_, habove, ?_⟩
  · rw [Found.isAlone, habove, hfront, List.drop_left, Found.trail, htrail, Bool.and_true]
    exact List.all_eq_true.mpr hlead
  · have hbreak := List.take_append_drop 1 (c.back.dropWhile (· != '\n'))
    have htail := List.takeWhile_append_dropWhile (p := (· != '\n')) (l := c.back)
    rw [Found.throughLine, Found.trail, append_assoc, hbreak, append_assoc, htail, append_assoc]
    exact c.text_eq

/-- A directive that is alone on its lines is removed with them, from wherever the blanks before
it are looked at. -/
theorem wholeLine?_ne_none {c : Found t} (hc : isRemovable names needsArgs c.directive = true)
    (halone : c.isAlone = true) :
    wholeLine? (directive? names needsArgs none) (c.span ++ c.back) ≠ none := by
  obtain ⟨more, hspan⟩ := c.exists_span
  have hdrop : (c.span ++ c.back).dropWhile (fun c => isBlank c && c != '\n') =
      c.span ++ c.back := by
    rw [hspan]
    rfl
  have hread := directive?_found hc
  rw [directive?_congr ((startsDirective_found c).trans (show true = startsDirective none from rfl))]
    at hread
  have htrail : Text.isEmptyOrBlank (c.back.takeWhile (· != '\n')) = true :=
    (Bool.and_eq_true_iff.mp halone).2
  simp [wholeLine?_eq, hdrop, hread, htrail]

end

/-! ## The removal step by step -/

/-- What the removal makes of a text that comes after the character `before`. -/
def removeFrom (names : List Text) (needsArgs : Bool) (before : Option Char) (t : Text) : Text :=
  Text.sweep (Text.substituteStep (removingDirectives names needsArgs)) before () 0 t

section

variable {c : Char} {past kept piece back rest : Text} {cuts : List (Found t)}

theorem removeFrom_copied (h : removingDirectives names needsArgs before (c :: rest) = none) :
    removeFrom names needsArgs before (c :: rest) =
      c :: removeFrom names needsArgs (some c) rest := by
  simp [removeFrom, sweep, Text.substituteStep, h]

theorem removeFrom_removed (hne : piece ≠ [])
    (h : removingDirectives names needsArgs before (piece ++ rest) = some ([], rest)) :
    removeFrom names needsArgs before (piece ++ rest) =
      removeFrom names needsArgs (piece.getLast?.or before) rest := by
  obtain ⟨c, p, rfl⟩ := List.exists_cons_of_ne_nil hne
  have hjump : Text.readBeyond (c :: (p ++ rest)) rest = p.length := Text.readBeyond_append c p rest
  rw [List.cons_append] at h ⊢
  simp only [removeFrom, sweep, Text.substituteStep, h, hjump, List.nil_append]
  rw [Text.sweep_jump, Text.getLast?_cons_or]

/-- What the removal does from a place on: `past` has been dealt with, and `kept` is what has been
kept since. -/
structure RemovalFrom (names : List Text) (needsArgs : Bool) (past kept back : Text)
    (cuts : List (Found t)) : Prop where
  listed : ∀ c ∈ cuts, isRemovable names needsArgs c.directive = true
  start_le : ∀ s ∈ spans (byteSize past) cuts, byteSize (past ++ kept) ≤ s.1
  apart : (spans (byteSize past) cuts).Pairwise fun s s' => s.2 ≤ s'.1
  complete : ∀ c : Found t, isRemovable names needsArgs c.directive = true →
    byteSize (past ++ kept) ≤ c.offset →
      ∃ s ∈ spans (byteSize past) cuts, s.1 ≤ c.offset ∧ c.offset < s.2
  output : without? t (byteSize past) (spans (byteSize past) cuts) =
    some (kept ++ removeFrom names needsArgs (past ++ kept).getLast? back)

namespace RemovalFrom

theorem nil (ht : t = past ++ kept) :
    RemovalFrom names needsArgs past kept [] ([] : List (Found t)) where
  listed := by simp
  start_le := by simp [spans]
  apart := .nil
  complete c _ hle := by
    have hlt := Nat.lt_of_lt_of_le c.start_lt_stop c.stop_le
    rw [← ht] at hle
    exact absurd ((Text.byteSize_le_iff ((append_nil t).trans c.text_eq)).mp hle)
      (Nat.not_le.mpr hlt)
  output := by
    have hslice := Text.between?_append past kept [] (ht.trans (congrArg _ (append_nil kept).symm))
    rw [← ht] at hslice
    rw [spans, without?, hslice]
    simp [removeFrom, sweep]

/-- Where nothing is removed, a character is kept. -/
theorem copied (h : RemovalFrom names needsArgs past (kept ++ [c]) back cuts)
    (ht : t = past ++ (kept ++ c :: back))
    (hnone : removingDirectives names needsArgs (past ++ kept).getLast? (c :: back) = none) :
    RemovalFrom names needsArgs past kept (c :: back) cuts where
  listed := h.listed
  start_le s hs := by
    have hle := h.start_le s hs
    rw [← append_assoc, Text.byteSize_append] at hle
    omega
  apart := h.apart
  complete d hd hle := by
    have hsame : past ++ kept ++ c :: back = d.front ++ (d.span ++ d.back) := by
      rw [append_assoc, ← ht, ← d.text_eq]
    have hnext : past ++ (kept ++ [c]) ++ back = d.front ++ (d.span ++ d.back) := by
      simpa using hsame
    have hstart : (past ++ kept).length ≠ d.front.length := by
      intro hlength
      obtain ⟨hfront, hback⟩ := List.append_inj hsame hlength
      obtain ⟨read, hread⟩ := exists_removingDirectives (directive?_found hd)
      rw [← hfront, ← hback, hnone] at hread
      cases hread
    refine h.complete d hd ((Text.byteSize_le_iff hnext).mpr ?_)
    have hle := (Text.byteSize_le_iff hsame).mp hle
    rw [← append_assoc, length_append, List.length_singleton]
    omega
  output := by
    rw [h.output, removeFrom_copied hnone]
    simp

/-- Something is removed with a directive. -/
theorem cut {d : Found t} (h : RemovalFrom names needsArgs (past ++ kept ++ piece) [] back cuts)
    (ht : t = past ++ kept ++ piece ++ back) (hd : isRemovable names needsArgs d.directive = true)
    (hdeleted : d.deleted (byteSize past) =
      (byteSize (past ++ kept), byteSize (past ++ kept ++ piece))) (hne : piece ≠ [])
    (hread : removingDirectives names needsArgs (past ++ kept).getLast? (piece ++ back) =
      some ([], back)) :
    RemovalFrom names needsArgs past kept (piece ++ back) (d :: cuts) := by
  have hspans : spans (byteSize past) (d :: cuts) =
      (byteSize (past ++ kept), byteSize (past ++ kept ++ piece)) ::
        spans (byteSize (past ++ kept ++ piece)) cuts := by
    rw [spans, hdeleted]
  obtain ⟨hlisted, hstart, hapart, hcomplete, houtput⟩ := h
  rw [append_nil] at hstart hcomplete houtput
  refine ⟨List.forall_mem_cons.mpr ⟨hd, hlisted⟩, ?_, ?_, ?_, ?_⟩ <;> rw [hspans]
  · refine List.forall_mem_cons.mpr ⟨Nat.le_refl _, fun s hs => Nat.le_trans ?_ (hstart s hs)⟩
    rw [Text.byteSize_append _ piece]
    exact Nat.le_add_right _ _
  · exact List.pairwise_cons.mpr ⟨hstart, hapart⟩
  · intro c hc hle
    by_cases hlt : c.offset < byteSize (past ++ kept ++ piece)
    · exact ⟨_, List.mem_cons_self, hle, hlt⟩
    · obtain ⟨s, hs, hinside⟩ := hcomplete c hc (Nat.le_of_not_lt hlt)
      exact ⟨s, List.mem_cons_of_mem _ hs, hinside⟩
  · have hslice : between? t (byteSize past) (byteSize (past ++ kept)) = some kept :=
      Text.between?_append past kept (piece ++ back) (by simp [ht])
    rw [without?, hslice, houtput, removeFrom_removed hne hread, ← List.getLast?_append]
    rfl

end RemovalFrom

/-- A line that is blank so far, and of which nothing was deleted, was tried from its start and not
removed. -/
def Tried (names : List Text) (needsArgs : Bool) (past kept back : Text) : Prop :=
  ∀ above line, past ++ kept = above ++ line → IsLine above line → line ≠ [] →
    byteSize past ≤ byteSize above → Text.isEmptyOrBlank line = true →
      wholeLine? (directive? names needsArgs none) back = none

/-- Behind what is removed nothing of the line is left to try. -/
theorem Tried.of_kept_nil (names : List Text) (needsArgs : Bool) (past back : Text) :
    Tried names needsArgs past [] back := by
  intro above line hsplit _ hne hle
  obtain ⟨c, line, rfl⟩ := List.exists_cons_of_ne_nil hne
  have hpos := c.utf8Size_pos
  rw [← append_nil past, hsplit, Text.byteSize_append, Text.byteSize_cons] at hle
  omega

theorem wholeLine?_eq_none (hline : IsLine past [])
    (hnone : removingDirectives names needsArgs past.getLast? back = none) :
    wholeLine? (directive? names needsArgs none) back = none := by
  rw [removingDirectives, hline.above_ends] at hnone
  cases hwhole : wholeLine? (directive? names needsArgs none) back with
  | none => rfl
  | some rest => simp [hwhole] at hnone

/-- Where nothing is removed, the line is tried no more. -/
theorem Tried.snoc (h : Tried names needsArgs past kept (c :: back))
    (hnone : removingDirectives names needsArgs (past ++ kept).getLast? (c :: back) = none) :
    Tried names needsArgs past (kept ++ [c]) back := by
  intro above line hsplit hline hne hle hblank
  obtain ⟨line, d, rfl⟩ := (List.eq_nil_or_concat' line).resolve_left hne
  rw [← append_assoc, ← append_assoc] at hsplit
  obtain ⟨hfront, hlast⟩ := List.append_inj' hsplit rfl
  obtain rfl := List.singleton_inj.mp hlast
  obtain ⟨hstart, hbreak⟩ := hline
  rw [List.mem_append, not_or, List.mem_singleton] at hbreak
  simp only [Text.isEmptyOrBlank, List.all_append, List.all_cons, List.all_nil, Bool.and_true,
    Bool.and_eq_true] at hblank
  have htry : wholeLine? (directive? names needsArgs none) (c :: back) = none := by
    by_cases hnil : line = []
    · rw [hnil, append_nil] at hfront
      exact wholeLine?_eq_none ⟨hfront ▸ hstart, by simp⟩ hnone
    · exact h above line hfront ⟨hstart, hbreak.1⟩ hnil hle hblank.1
  rwa [wholeLine?, List.dropWhile_cons_of_pos (by simp [hblank.2, Ne.symm hbreak.2])] at htry

/-- What is removed at a place is what is deleted with a directive there. -/
theorem exists_of_removingDirectives {new : Text} (ht : t = past ++ kept ++ back)
    (htried : Tried names needsArgs past kept back)
    (h : removingDirectives names needsArgs (past ++ kept).getLast? back = some (new, rest)) :
    ∃ (d : Found t) (piece : Text), isRemovable names needsArgs d.directive = true ∧ piece ≠ [] ∧
      back = piece ++ rest ∧
      d.deleted (byteSize past) = (byteSize (past ++ kept), byteSize (past ++ kept ++ piece)) := by
  unfold removingDirectives at h
  split at h
  case h_1 rest' hwhole =>
    obtain ⟨-, rfl⟩ := Prod.mk.inj (Option.some.inj h)
    obtain ⟨hstart, hwhole⟩ := Option.ite_none_right_eq_some.mp hwhole
    obtain ⟨d, hd, halone, habove, hthrough⟩ :=
      exists_of_wholeLine? ⟨by simpa using hstart, by simp⟩ ht hwhole
    obtain ⟨piece, hne, hpiece⟩ := d.exists_throughLine
    rw [habove] at hpiece
    rw [hpiece, ht, append_assoc _ piece] at hthrough
    have hle : byteSize past ≤ byteSize (past ++ kept) := by
      rw [Text.byteSize_append]
      exact Nat.le_add_right _ _
    refine ⟨d, piece, hd, hne, List.append_cancel_left hthrough, ?_⟩
    rw [Found.deleted, Found.lineStart, habove, if_pos ⟨halone, hle⟩, hpiece]
  case h_2 hnone =>
    obtain ⟨rest', hread, heq⟩ := Option.map_eq_some_iff.mp h
    obtain ⟨-, rfl⟩ := Prod.mk.inj heq
    obtain ⟨d, hd, hfront, hspan, hrest⟩ := exists_of_directive? ht hread
    refine ⟨d, d.span, hd, d.span_ne_nil, hspan, ?_⟩
    rw [Found.deleted, if_neg, Found.offset, Found.ending, hfront]
    rintro ⟨halone, hle⟩
    -- A directive that is alone was tried with its line.
    refine wholeLine?_ne_none hd halone ?_
    rw [hrest, ← hspan]
    obtain ⟨above, line, hsplit, hline⟩ := exists_isLine (past ++ kept)
    have habove : d.above = above := by
      rw [Found.above, hfront, hsplit, hline.above_eq]
    by_cases hnil : line = []
    · rw [hnil, append_nil] at hsplit
      rw [hsplit, hline.above_ends] at hnone
      exact hnone
    · have hlead := (Bool.and_eq_true_iff.mp halone).1
      rw [habove, hfront, hsplit, List.drop_left] at hlead
      rw [Found.lineStart, habove] at hle
      exact htried above line hsplit hline hnil hle hlead

/-- What the removal does from any place on. The induction follows the text that is left. -/
theorem exists_removalFrom (ht : t = past ++ (kept ++ back))
    (htried : Tried names needsArgs past kept back) :
    ∃ cuts : List (Found t), RemovalFrom names needsArgs past kept back cuts := by
  induction hlength : back.length using Nat.strongRecOn generalizing past kept back with
  | _ n ih =>
    subst hlength
    cases hread : removingDirectives names needsArgs (past ++ kept).getLast? back with
    | some read =>
      obtain ⟨new, rest⟩ := read
      obtain rfl : new = [] := removingDirectives_fst hread
      obtain ⟨d, piece, hd, hne, rfl, hdeleted⟩ :=
        exists_of_removingDirectives (ht.trans (append_assoc ..).symm) htried hread
      -- Behind what is deleted nothing has been kept yet.
      have hpos := List.length_pos_iff.mpr hne
      obtain ⟨cuts, hcuts⟩ := ih rest.length (by rw [length_append]; omega)
        (by simp [ht]) (.of_kept_nil names needsArgs (past ++ kept ++ piece) rest) rfl
      exact ⟨d :: cuts, hcuts.cut (by simp [ht]) hd hdeleted hne hread⟩
    | none =>
      cases back with
      | nil => exact ⟨[], .nil (by simpa using ht)⟩
      | cons c back =>
        obtain ⟨cuts, hcuts⟩ := ih back.length (by simp) (by simp [ht]) (htried.snoc hread) rfl
        exact ⟨cuts, hcuts.copied ht hread⟩

end

/-! ## The whole removal -/

/-- What the removal of directives does to a text: it deletes text with the directives `cuts`, in
this order. -/
structure Removal (names : List Text) (needsArgs : Bool) (cuts : List (Found t)) : Prop where
  /-- Each is a directive of the list, with arguments where they are needed. -/
  listed : ∀ c ∈ cuts, c.directive.name ∈ names ∧ (needsArgs = false ∨ c.directive.args.isSome = true)
  /-- Nothing is deleted twice. -/
  apart : (spans 0 cuts).Pairwise fun s s' => s.2 ≤ s'.1
  /-- All else is kept. -/
  output : without? t 0 (spans 0 cuts) = some (removeDirectives names needsArgs t)
  /-- A name of the list that is kept is no directive, its list is not closed, or it has none where
  one is needed. -/
  left : ∀ front rest, t = front ++ '@' :: rest → Text.word rest ≠ [] → Text.word rest ∈ names →
    (∀ s ∈ spans 0 cuts, byteSize front < s.1 ∨ s.2 ≤ byteSize front) →
      (front.getLast? = some '@' ∨ front.getLast?.any isNameChar = true) ∨
        Occurrence.Unclosed (Text.word rest) ('@' :: rest) ∨
        needsArgs = true ∧ ¬ Occurrence.OpensList (rest.drop (Text.word rest).length)
  /-- Names are read from within the text, and between characters. -/
  words : ∀ front rest, t = front ++ '@' :: rest →
    between? t (byteSize front + 1) (byteSize front + 1 + byteSize (Text.word rest)) =
      some (Text.word rest)
  /-- So is all else that is looked at. -/
  slices : ∀ c ∈ cuts, ∀ s ∈ c.slices, (between? t s.1 s.2).isSome = true

/-- A list that is opened and cannot be read is not closed. -/
theorem unclosed_of_args? {rest : Text} (hne : word rest ≠ [])
    (hargs : Group.args? (rest.drop (word rest).length) = none)
    (hopens : Group.opensArgs (rest.drop (word rest).length) = true) :
    Unclosed (word rest) ('@' :: rest) := by
  obtain ⟨blanks, list, hrest, hblanks⟩ := opensArgs_iff.mp hopens
  rw [hrest, Occurrence.args?_list hblanks] at hargs
  refine ⟨hne, List.all_eq_true.mp List.all_takeWhile, blanks, list, ?_, hblanks, ?_⟩
  · rw [← hrest, word, Text.drop_length_takeWhile, List.takeWhile_append_dropWhile]
  · rintro args more rfl hlist
    rw [Group.read?_of_isList hlist] at hargs
    cases hargs

/-- The directive that stands at a name of the list, or why there is none. -/
theorem found_or {front rest : Text} (ht : t = front ++ '@' :: rest) (hne : word rest ≠ [])
    (hname : word rest ∈ names) :
    (∃ c : Found t, c.front = front ∧ isRemovable names needsArgs c.directive = true) ∨
      (front.getLast? = some '@' ∨ front.getLast?.any isNameChar = true) ∨
        Unclosed (word rest) ('@' :: rest) ∨
        needsArgs = true ∧ ¬ OpensList (rest.drop (word rest).length) := by
  cases hread : directive? names needsArgs front.getLast? ('@' :: rest) with
  | some after =>
    obtain ⟨c, hc, hfront, -⟩ := exists_of_directive? ht hread
    exact .inl ⟨c, hfront, hc⟩
  | none =>
    refine .inr ?_
    cases hstarts : startsDirective front.getLast? with
    | false =>
      refine .inl ?_
      by_contra hboundary
      rw [not_or, Bool.not_eq_true] at hboundary
      rw [startsDirective_iff.mpr hboundary] at hstarts
      cases hstarts
    | true =>
      simp only [directive?, hstarts, List.isEmpty_eq_false_iff.mpr hne,
        List.contains_iff_mem.mpr hname, Bool.not_false, Bool.and_true, if_true] at hread
      cases hargs : Group.args? (rest.drop (word rest).length) with
      | some list => simp [hargs] at hread
      | none =>
        cases hopens : Group.opensArgs (rest.drop (word rest).length) with
        | true => exact .inr (.inl (unclosed_of_args? hne hargs hopens))
        | false =>
          rw [← opensArgs_iff, hopens]
          exact .inr (.inr ⟨by simpa [hargs, hopens] using hread, by simp⟩)

/-- **Only whole directives are removed**, and all of the list that can be. Around a directive only
its own lines go, and no slice of the text can fail. -/
theorem removeDirectives_deletes (names : List Text) (needsArgs : Bool) (t : Text) :
    ∃ cuts : List (Found t), Removal names needsArgs cuts := by
  obtain ⟨cuts, h⟩ :=
    exists_removalFrom (List.nil_append t).symm (.of_kept_nil names needsArgs [] t)
  refine ⟨cuts, fun c hc => ?_, h.apart, h.output, ?_, ?_, ?_⟩
  · simpa [isRemovable] using h.listed c hc
  · intro front rest ht hne hname hkept
    refine (found_or ht hne hname).resolve_left ?_
    rintro ⟨c, rfl, hc⟩
    obtain ⟨s, hs, hstart, hstop⟩ := h.complete c hc (Nat.zero_le _)
    rcases hkept s hs with hlt | hle
    · exact absurd hstart (Nat.not_le.mpr hlt)
    · exact absurd hstop (Nat.not_lt.mpr hle)
  · intro front rest ht
    have hsign : byteSize (front ++ ['@']) = byteSize front + 1 := Text.byteSize_append _ _
    have hslice : between? t (byteSize (front ++ ['@'])) _ = _ :=
      Text.between?_append _ (word rest) (rest.dropWhile isPlainChar) (by simp [ht, word])
    rwa [Text.byteSize_append _ (word rest), hsign] at hslice
  · exact fun c _ => c.isSome_slices

end Body
end BladeView
