import BladeView.Proofs.Markup.Standing
import BladeView.Proofs.Text.Replace

/-!
# What a pass over directives replaces

A pass asks about directives from left to right. Those that are answered are cut out of the text and
their answers put in; all the rest is copied. So the text and the output are the same but for the
directives that are answered, and a directive is passed over only if it stands inside one of those.

## Main statements

* `Occurrence.exists_pass`: a pass replaces directives and nothing else.
-/
namespace BladeView

open List (append_assoc flatMap_cons length_append length_cons mem_cons mem_cons_of_mem
  mem_cons_self mem_filter pairwise_cons)

variable {front name back : Text} {place : Nat}

/-! ## Stretches of a text -/

namespace Text

/-- The characters of a text from one place up to another. -/
def slice (t : Text) (start stop : Nat) : Text := (t.take stop).drop start

@[simp] theorem slice_self (t : Text) (place : Nat) : slice t place place = [] := by
  simp [slice]

theorem slice_length (t : Text) (start : Nat) : slice t start t.length = t.drop start := by
  rw [slice, List.take_length]

theorem slice_append (front middle back : Text) :
    slice (front ++ (middle ++ back)) front.length (front.length + middle.length) = middle := by
  simp [slice, List.take_append]

theorem slice_append_slice (t : Text) {start stop : Nat} (hstart : start ≤ place)
    (hstop : place ≤ stop) : slice t start place ++ slice t place stop = slice t start stop := by
  simp only [slice, List.drop_take]
  have hplace : t.drop place = (t.drop start).drop (place - start) := by
    rw [List.drop_drop, Nat.add_sub_cancel' hstart]
  have hsum : stop - start = place - start + (stop - place) := by omega
  rw [hplace, hsum, List.take_add]

end Text

namespace Occurrence

/-! ## Directives of a text -/

/-- What stands at the places of a name. -/
theorem isPlainChar_of_name {t rest : Text} (ht : t = front ++ '@' :: (name ++ rest))
    (hname : ∀ ch ∈ name, isPlainChar ch = true) {ch : Char} (hlt : front.length < place)
    (hle : place ≤ front.length + name.length) (hch : t[place]? = some ch) :
    isPlainChar ch = true := by
  have hplace : place - front.length = place - front.length - 1 + 1 := by omega
  rw [ht, List.getElem?_append_right (Nat.le_of_lt hlt), hplace, List.getElem?_cons_succ,
    List.getElem?_append_left (by omega)] at hch
  exact hname ch (List.mem_of_getElem? hch)

/-- A directive that stands in a text, between `front` and `back`. -/
@[ext] structure Found (t : Text) where
  front : Text
  directive : Occurrence
  span : Text
  back : Text
  text_eq : t = front ++ (span ++ back)
  stands : Stands front.getLast? directive span back

namespace Found

variable {t : Text}

/-- The place of the at sign. -/
def start (c : Found t) : Nat := c.front.length

/-- The place after the directive. -/
def stop (c : Found t) : Nat := c.front.length + c.span.length

/-- A directive whose at sign stands in another one. -/
def Inside (c r : Found t) : Prop := r.start < c.start ∧ c.start < r.stop

def isReplaced (answer : Occurrence → Option Text) (c : Found t) : Bool :=
  (answer c.directive).isSome

/-- The text in place of a directive. -/
def new (answer : Occurrence → Option Text) (c : Found t) : Text :=
  (answer c.directive).getD []

theorem read?_eq (c : Found t) :
    read? c.front.getLast? (c.span ++ c.back) = some (c.directive, c.back) :=
  read?_eq_some_iff.mpr ⟨c.span, rfl, c.stands⟩

/-- A directive that is read stands there. -/
theorem exists_of_read? {rest : Text} {d : Occurrence} (ht : t = front ++ back)
    (h : read? front.getLast? back = some (d, rest)) :
    ∃ c : Found t, c.front = front ∧ c.directive = d ∧ back = c.span ++ rest := by
  obtain ⟨span, rfl, hstands⟩ := read?_eq_some_iff.mp h
  exact ⟨⟨front, d, span, rest, ht, hstands⟩, rfl, rfl, rfl⟩

/-- No directive stands where none is read. -/
theorem start_ne_of_read? (c : Found t) (ht : t = front ++ back)
    (h : read? front.getLast? back = none) : c.start ≠ front.length := by
  intro hstart
  obtain ⟨hfront, hback⟩ := List.append_inj (c.text_eq.symm.trans ht) hstart
  have hread := c.read?_eq
  rw [hfront, hback, h] at hread
  cases hread

/-- At most one directive stands at a place. -/
theorem eq_of_start_eq {c d : Found t} (h : c.start = d.start) : c = d := by
  obtain ⟨hfront, hrest⟩ := List.append_inj (c.text_eq.symm.trans d.text_eq) h
  have hread := c.read?_eq
  rw [hfront, hrest, d.read?_eq] at hread
  obtain ⟨hdirective, hback⟩ := Prod.mk.inj (Option.some.inj hread)
  rw [← hback] at hrest
  exact Found.ext hfront hdirective.symm (List.append_cancel_right hrest) hback.symm

theorem exists_span (c : Found t) : ∃ more, c.span = '@' :: (c.directive.name ++ more) := by
  rcases c.stands.form with ⟨-, h, -, -⟩ | ⟨blanks, args, -, -, -, h⟩
  · exact ⟨[], by rw [h, List.append_nil]⟩
  · exact ⟨_, h⟩

theorem start_lt_stop (c : Found t) : c.start < c.stop := by
  obtain ⟨more, hspan⟩ := c.exists_span
  simp [start, stop, hspan]

theorem stop_le (c : Found t) : c.stop ≤ t.length := by
  have hlength := congrArg List.length c.text_eq
  simp only [length_append] at hlength
  rw [stop]
  omega

theorem slice_eq (c : Found t) : Text.slice t c.start c.stop = c.span := by
  have hslice := Text.slice_append c.front c.span c.back
  rwa [← c.text_eq] at hslice

theorem exists_text_eq (c : Found t) :
    ∃ more, t = c.front ++ '@' :: (c.directive.name ++ more) := by
  obtain ⟨more, hspan⟩ := c.exists_span
  refine ⟨more ++ c.back, c.text_eq.trans ?_⟩
  rw [hspan, List.cons_append, append_assoc]

theorem getElem?_start (c : Found t) : t[c.start]? = some '@' := by
  obtain ⟨more, ht⟩ := c.exists_text_eq
  have hsign : (c.front ++ '@' :: (c.directive.name ++ more))[c.start]? = some '@' := by
    simp [start]
  rwa [← ht] at hsign

/-- A directive that comes after an at sign with a name comes after the whole name. -/
theorem le_start_of_name (c : Found t) {rest : Text} (ht : t = front ++ '@' :: (name ++ rest))
    (hname : ∀ ch ∈ name, isPlainChar ch = true) (h : front.length < c.start) :
    front.length + 1 + name.length ≤ c.start := by
  refine Nat.le_of_not_lt fun hlt => ?_
  have hplain := isPlainChar_of_name ht hname h (by omega) c.getElem?_start
  exact absurd hplain (by decide)

/-- A name that starts in a directive is over before the directive is. -/
theorem lt_stop_of_name (c : Found t) {rest : Text} (ht : t = front ++ '@' :: (name ++ rest))
    (hname : ∀ ch ∈ name, isPlainChar ch = true) (hstart : c.start < front.length)
    (hstop : front.length < c.stop) :
    front.length + 1 + name.length < c.stop := by
  have hsign : t[front.length]? = some '@' := by simp [ht]
  rcases c.stands.form with ⟨-, hspan, -, -⟩ | ⟨blanks, args, -, -, -, hspan⟩
  · obtain ⟨more, hc⟩ := c.exists_text_eq
    have hlength : c.stop = c.front.length + (c.directive.name.length + 1) := by
      rw [stop, hspan, length_cons]
    have hplain := isPlainChar_of_name hc c.stands.name_isPlain hstart (by omega) hsign
    exact absurd hplain (by decide)
  · -- The last character of the directive is a parenthesis, which is not in the name.
    have hlast : t[c.stop - 1]? = some ')' := by
      obtain ⟨inner, hinner⟩ : ∃ inner, c.span = inner ++ [')'] :=
        ⟨'@' :: (c.directive.name ++ (blanks ++ '(' :: args)), by simp [hspan]⟩
      have hplace : c.stop - 1 = (c.front ++ inner).length := by
        simp [stop, hinner, ← Nat.add_assoc]
      have htext : t = c.front ++ inner ++ ')' :: c.back := by
        rw [List.append_cons, append_assoc c.front, ← hinner, append_assoc]
        exact c.text_eq
      have hend : (c.front ++ inner ++ ')' :: c.back)[c.stop - 1]? = some ')' := by simp [hplace]
      rwa [← htext] at hend
    refine Nat.lt_of_not_le fun hle => ?_
    by_cases heq : c.stop - 1 = front.length
    · rw [heq, hsign] at hlast
      exact absurd hlast (by decide)
    · have hplain := isPlainChar_of_name ht hname (by omega) (by omega) hlast
      exact absurd hplain (by decide)

end Found

/-! ## Texts in place of directives -/

variable {t : Text}

/-- The text from place `start` up to `stop`, with `new` in place of the given directives. -/
def fill (t : Text) (new : Found t → Text) (stop : Nat) : Nat → List (Found t) → Text
  | start, [] => Text.slice t start stop
  | start, c :: cs => Text.slice t start c.start ++ (new c ++ fill t new stop c.stop cs)

/-- What stands before the first directive is copied. -/
theorem slice_append_fill (new : Found t → Text) {start stop : Nat} {cs : List (Found t)}
    (hstart : start ≤ place) (hstop : place ≤ stop) (hcs : ∀ c ∈ cs, place ≤ c.start) :
    Text.slice t start place ++ fill t new stop place cs = fill t new stop start cs := by
  cases cs with
  | nil => exact Text.slice_append_slice t hstart hstop
  | cons c cs =>
    rw [fill, fill, ← append_assoc, Text.slice_append_slice t hstart (hcs c mem_cons_self)]

/-- With their own texts in place of the directives nothing changes. -/
theorem fill_span {start : Nat} {cs : List (Found t)} (hstart : ∀ c ∈ cs, start ≤ c.start)
    (happart : cs.Pairwise fun c d => c.stop ≤ d.start) (hle : start ≤ t.length) :
    fill t Found.span t.length start cs = t.drop start := by
  induction cs generalizing start with
  | nil => exact Text.slice_length t start
  | cons c cs ih =>
    obtain ⟨hnext, hrest⟩ := pairwise_cons.mp happart
    have hc := hstart c mem_cons_self
    rw [fill, ih hnext hrest c.stop_le, ← c.slice_eq, ← Text.slice_length t c.stop,
      Text.slice_append_slice t (Nat.le_of_lt c.start_lt_stop) c.stop_le,
      Text.slice_append_slice t hc (Nat.le_trans (Nat.le_of_lt c.start_lt_stop) c.stop_le),
      Text.slice_length]

/-- A stretch that no directive touches is copied, and the directives before it and after it are
filled in apart. -/
theorem exists_fill_eq (new : Found t → Text) {start stop : Nat} (hle : start ≤ stop)
    (hstop : stop ≤ t.length) {cs : List (Found t)} (hplace : place ≤ start)
    (huntouched : ∀ c ∈ cs, c.stop ≤ start ∨ stop ≤ c.start) :
    ∃ before after, cs = before ++ after ∧
      fill t new t.length place cs =
        fill t new start place before ++
          (Text.slice t start stop ++ fill t new t.length stop after) := by
  induction cs generalizing place with
  | nil =>
    refine ⟨[], [], rfl, ?_⟩
    simp only [fill]
    rw [Text.slice_append_slice t hle hstop,
      Text.slice_append_slice t hplace (Nat.le_trans hle hstop)]
  | cons c cs ih =>
    rcases huntouched c mem_cons_self with hbefore | hafter
    · obtain ⟨before, after, rfl, hfill⟩ :=
        ih hbefore fun d hd => huntouched d (mem_cons_of_mem c hd)
      exact ⟨c :: before, after, rfl, by simp only [fill, hfill, append_assoc]⟩
    · refine ⟨[], c :: cs, rfl, ?_⟩
      simp only [fill]
      rw [← append_assoc (Text.slice t stop c.start),
        ← Text.slice_append_slice t hplace (Nat.le_trans hle hafter),
        ← Text.slice_append_slice t hle hafter]
      simp only [append_assoc]

/-! ## Passes -/

variable (answer : Occurrence → Option Text)

/-- The directives that are answered. -/
def replaced (calls : List (Found t)) : List (Found t) := calls.filter (Found.isReplaced answer)

/-- What a pass makes of a text that comes after the character `before`, when it has read `jump`
characters already. -/
def passFrom (before : Option Char) (jump : Nat) (t : Text) : List Segment :=
  Text.sweep (segmentStep answer) before () jump t

section Steps

variable {answer} {before : Option Char} {ch : Char} {cs rest : Text} {d : Occurrence}

theorem passFrom_copied (h : read? before (ch :: cs) = none) :
    passFrom answer before 0 (ch :: cs) = .copied ch :: passFrom answer (some ch) 0 cs := by
  simp [passFrom, Text.sweep, segmentStep, h]

theorem passFrom_declined (h : read? before (ch :: cs) = some (d, rest)) (hd : answer d = none) :
    passFrom answer before 0 (ch :: cs) =
      .declined d :: .copied ch :: passFrom answer (some ch) 0 cs := by
  simp [passFrom, Text.sweep, segmentStep, h, hd]

theorem passFrom_replaced {new : Text} (h : read? before (ch :: cs) = some (d, rest))
    (hd : answer d = some new) :
    passFrom answer before 0 (ch :: cs) =
      .replaced d new :: passFrom answer (some ch) (Text.readBeyond (ch :: cs) rest) cs := by
  simp [passFrom, Text.sweep, segmentStep, h, hd]

end Steps

/-- What a pass does from a place on: the segments that it gives, and the directives that it asks
about. -/
structure PassFrom (start : Nat) (segments : List Segment) (calls : List (Found t)) : Prop where
  asked : segments.filterMap Segment.asked? = calls.map Found.directive
  start_le : ∀ c ∈ calls, start ≤ c.start
  ordered : calls.Pairwise fun c d =>
    c.start < d.start ∧ (c.isReplaced answer = true → c.stop ≤ d.start)
  complete : ∀ c : Found t, start ≤ c.start → c ∈ calls ∨ ∃ r ∈ replaced answer calls, c.Inside r
  output : segments.flatMap Segment.output =
    fill t (Found.new answer) t.length start (replaced answer calls)

namespace PassFrom

variable {answer} {start : Nat} {segments : List Segment} {calls : List (Found t)}

theorem nil (h : t.length ≤ start) : PassFrom answer start [] ([] : List (Found t)) where
  asked := rfl
  start_le := by simp
  ordered := .nil
  complete c hc := by
    have hlt := c.start_lt_stop
    have hle := c.stop_le
    omega
  output := by
    rw [replaced, List.filter_nil, fill, Text.slice_length, List.drop_of_length_le h]
    rfl

theorem start_le_of_mem_replaced (h : PassFrom answer start segments calls) :
    ∀ c ∈ replaced answer calls, start ≤ c.start := by
  intro c hc
  exact h.start_le c (mem_filter.mp hc).1

/-- Where no directive stands, a character is copied. -/
theorem copied {ch : Char} (h : PassFrom answer (start + 1) segments calls)
    (hnone : ∀ c : Found t, c.start ≠ start) (hle : start + 1 ≤ t.length)
    (hch : Text.slice t start (start + 1) = [ch]) :
    PassFrom answer start (.copied ch :: segments) calls where
  asked := h.asked
  start_le c hc := Nat.le_of_succ_le (h.start_le c hc)
  ordered := h.ordered
  complete c hc := h.complete c (Nat.lt_of_le_of_ne hc (hnone c).symm)
  output := by
    rw [flatMap_cons, Segment.output, h.output, ← hch]
    exact slice_append_fill _ (Nat.le_succ start) hle h.start_le_of_mem_replaced

/-- A directive that is declined is asked about, and its at sign is copied. -/
theorem declined {ch : Char} {c : Found t} (h : PassFrom answer (c.start + 1) segments calls)
    (hc : answer c.directive = none) (hch : Text.slice t c.start (c.start + 1) = [ch]) :
    PassFrom answer c.start (.declined c.directive :: .copied ch :: segments) (c :: calls) := by
  have hreplaced : replaced answer (c :: calls) = replaced answer calls := by
    simp [replaced, Found.isReplaced, hc]
  have hlt := c.start_lt_stop
  have hle := c.stop_le
  refine ⟨congrArg (c.directive :: ·) h.asked, ?_, ?_, ?_, ?_⟩
  · intro d hd
    rcases mem_cons.mp hd with rfl | hd
    · exact Nat.le_refl _
    · exact Nat.le_of_succ_le (h.start_le d hd)
  · refine pairwise_cons.mpr ⟨fun d hd => ⟨h.start_le d hd, fun hreplaced => ?_⟩, h.ordered⟩
    simp [Found.isReplaced, hc] at hreplaced
  · intro d hd
    rw [hreplaced]
    by_cases heq : c.start = d.start
    · rw [Found.eq_of_start_eq heq]
      exact .inl mem_cons_self
    · rcases h.complete d (Nat.lt_of_le_of_ne hd heq) with hmem | hinside
      · exact .inl (mem_cons_of_mem c hmem)
      · exact .inr hinside
  · rw [hreplaced, flatMap_cons, flatMap_cons, h.output, Segment.output, Segment.output,
      List.nil_append, ← hch]
    exact slice_append_fill _ (Nat.le_succ _) (by omega) h.start_le_of_mem_replaced

/-- A directive that is answered is replaced, and the pass goes on after it. -/
theorem replaced {new : Text} {c : Found t} (h : PassFrom answer c.stop segments calls)
    (hc : answer c.directive = some new) :
    PassFrom answer c.start (.replaced c.directive new :: segments) (c :: calls) := by
  have hreplaced :
      Occurrence.replaced answer (c :: calls) = c :: Occurrence.replaced answer calls := by
    simp [Occurrence.replaced, Found.isReplaced, hc]
  have hlt := c.start_lt_stop
  refine ⟨congrArg (c.directive :: ·) h.asked, ?_, ?_, ?_, ?_⟩
  · intro d hd
    rcases mem_cons.mp hd with rfl | hd
    · exact Nat.le_refl _
    · exact Nat.le_trans (Nat.le_of_lt hlt) (h.start_le d hd)
  · refine pairwise_cons.mpr ⟨fun d hd => ?_, h.ordered⟩
    have hnext := h.start_le d hd
    exact ⟨by omega, fun _ => hnext⟩
  · intro d hd
    rw [hreplaced]
    by_cases heq : c.start = d.start
    · rw [Found.eq_of_start_eq heq]
      exact .inl mem_cons_self
    · by_cases hstop : c.stop ≤ d.start
      · rcases h.complete d hstop with hmem | ⟨r, hr, hinside⟩
        · exact .inl (mem_cons_of_mem c hmem)
        · exact .inr ⟨r, mem_cons_of_mem c hr, hinside⟩
      · exact .inr ⟨c, mem_cons_self, by omega, by omega⟩
  · rw [hreplaced, fill, Text.slice_self, flatMap_cons, h.output, Segment.output, Found.new, hc]
    rfl

end PassFrom

/-- What a pass does from any place on. The induction follows the text that is left: the pass jumps
over what it has read, copies a character, or asks about a directive. -/
theorem exists_passFrom (jump : Nat) (ht : t = front ++ back) :
    ∃ calls : List (Found t), PassFrom answer (front.length + jump)
      (passFrom answer front.getLast? jump back) calls := by
  induction back generalizing front jump with
  | nil =>
    refine ⟨[], ?_⟩
    have hnil : passFrom answer front.getLast? jump [] = [] := by cases jump <;> rfl
    rw [hnil]
    exact .nil (by simp [ht])
  | cons ch cs ih =>
    have hnext : t = front ++ [ch] ++ cs := by simp [ht]
    have hlength : (front ++ [ch]).length = front.length + 1 := by simp
    have hlast : (front ++ [ch]).getLast? = some ch := List.getLast?_concat
    have hle : front.length + 1 ≤ t.length := by simp [ht]
    have hch : Text.slice t front.length (front.length + 1) = [ch] := by
      have hslice := Text.slice_append front [ch] cs
      rwa [← append_assoc, ← hnext] at hslice
    cases jump with
    | succ jump =>
      obtain ⟨calls, hcalls⟩ := ih jump hnext
      rw [hlength, hlast, Nat.add_assoc, Nat.add_comm 1] at hcalls
      exact ⟨calls, hcalls⟩
    | zero =>
      rw [Nat.add_zero]
      cases hread : read? front.getLast? (ch :: cs) with
      | none =>
        obtain ⟨calls, hcalls⟩ := ih 0 hnext
        rw [hlength, hlast] at hcalls
        rw [passFrom_copied hread]
        exact ⟨calls, hcalls.copied (fun c => c.start_ne_of_read? ht hread) hle hch⟩
      | some found =>
        obtain ⟨d, rest⟩ := found
        obtain ⟨c, hfront, rfl, hback⟩ := Found.exists_of_read? ht hread
        have hstart : front.length = c.start := by rw [Found.start, hfront]
        cases hd : answer c.directive with
        | none =>
          obtain ⟨calls, hcalls⟩ := ih 0 hnext
          rw [hlength, hlast, hstart] at hcalls
          rw [hstart] at hch
          rw [passFrom_declined hread hd, hstart]
          exact ⟨c :: calls, hcalls.declined hd hch⟩
        | some new =>
          obtain ⟨calls, hcalls⟩ := ih (Text.readBeyond (ch :: cs) rest) hnext
          have hstop : front.length + 1 + Text.readBeyond (ch :: cs) rest = c.stop := by
            have hsizes := congrArg List.length hback
            have hlt := c.start_lt_stop
            simp only [length_append, length_cons] at hsizes
            simp only [Found.start, Found.stop, hfront] at hlt ⊢
            rw [Text.readBeyond, length_cons]
            omega
          rw [hlength, hlast, hstop] at hcalls
          rw [passFrom_replaced hread hd, hstart]
          exact ⟨c :: calls, hcalls.replaced hd⟩

/-! ## A whole pass -/

/-- The output has the text from place `start` up to `stop` as it was, between what the pass makes
of the text before it and of the text after it. -/
def Stays (calls : List (Found t)) (start stop : Nat) : Prop :=
  ∃ before after, replaced answer calls = before ++ after ∧
    substitute answer t =
      fill t (Found.new answer) start 0 before ++
        (Text.slice t start stop ++ fill t (Found.new answer) t.length stop after)

/-- What a pass over a text asks about, replaces and keeps. The directives that it asks about are
`calls`, in this order. -/
structure Pass (calls : List (Found t)) : Prop where
  asked : (segments answer t).filterMap Segment.asked? = calls.map Found.directive
  increasing : calls.Pairwise fun c d => c.start < d.start
  /-- A directive is passed over just if it stands inside one that is replaced. -/
  mem_iff : ∀ c : Found t, c ∈ calls ↔ ∀ r ∈ replaced answer calls, ¬ c.Inside r
  apart : (replaced answer calls).Pairwise fun c d => c.stop ≤ d.start
  source : fill t Found.span t.length 0 (replaced answer calls) = t
  output : substitute answer t = fill t (Found.new answer) t.length 0 (replaced answer calls)
  /-- What no directive that is replaced touches stays. -/
  kept : ∀ start stop, start ≤ stop → stop ≤ t.length →
    (∀ r ∈ replaced answer calls, r.stop ≤ start ∨ stop ≤ r.start) → Stays answer calls start stop
  /-- A directive that is declined stays. -/
  declined : ∀ c ∈ calls, answer c.directive = none →
    Stays answer calls c.start (c.start + 1 + c.directive.name.length)
  /-- A name whose list is not closed is not asked about. It stays, unless it stands in the list of
  a directive that is replaced. -/
  unclosed : ∀ front back name, t = front ++ back → Unclosed name back →
    (∀ c ∈ calls, c.start ≠ front.length) ∧
      (Stays answer calls front.length (front.length + 1 + name.length) ∨
        ∃ r ∈ replaced answer calls,
          r.start < front.length ∧ front.length + 1 + name.length < r.stop)
  /-- Without answers the text stays as it is. -/
  unanswered : (∀ d, answer d = none) → substitute answer t = t

namespace PassFrom

variable {answer} {start : Nat} {segments : List Segment} {calls : List (Found t)}

/-- What is asked about after a directive that is replaced stands after it. -/
theorem stop_le (h : PassFrom answer start segments calls) {r c : Found t} (hr : r ∈ calls)
    (hreplaced : r.isReplaced answer = true) (hc : c ∈ calls) (hlt : r.start < c.start) :
    r.stop ≤ c.start := by
  have hforward : calls.Pairwise fun c d =>
      c.start < d.start → c.isReplaced answer = true → c.stop ≤ d.start :=
    h.ordered.imp fun hcd _ => hcd.2
  have hbackward : calls.Pairwise fun d c =>
      c.start < d.start → c.isReplaced answer = true → c.stop ≤ d.start :=
    h.ordered.imp fun hcd hdc => absurd hdc (Nat.lt_asymm hcd.1)
  have hrefl : ∀ c ∈ calls, c.start < c.start → c.isReplaced answer = true → c.stop ≤ c.start :=
    fun c _ hlt => absurd hlt (Nat.lt_irrefl _)
  exact hforward.forall_of_forall_of_flip hrefl hbackward hr hc hlt hreplaced

theorem mem_iff (h : PassFrom answer 0 segments calls) (c : Found t) :
    c ∈ calls ↔ ∀ r ∈ Occurrence.replaced answer calls, ¬ c.Inside r := by
  constructor
  · intro hc r hr hinside
    obtain ⟨hmem, hreplaced⟩ := mem_filter.mp hr
    exact absurd hinside.2 (Nat.not_lt.mpr (h.stop_le hmem hreplaced hc hinside.1))
  · intro houtside
    rcases h.complete c (Nat.zero_le _) with hmem | ⟨r, hr, hinside⟩
    · exact hmem
    · exact absurd hinside (houtside r hr)

theorem apart (h : PassFrom answer start segments calls) :
    (Occurrence.replaced answer calls).Pairwise fun c d => c.stop ≤ d.start :=
  List.pairwise_filter.mpr (h.ordered.imp fun hcd hc _ => hcd.2 hc)

theorem stays (h : PassFrom answer 0 (Occurrence.segments answer t) calls) {start stop : Nat}
    (hle : start ≤ stop) (hstop : stop ≤ t.length)
    (huntouched : ∀ r ∈ Occurrence.replaced answer calls, r.stop ≤ start ∨ stop ≤ r.start) :
    Stays answer calls start stop := by
  obtain ⟨before, after, hsplit, hfill⟩ :=
    exists_fill_eq (Found.new answer) hle hstop (Nat.zero_le start) huntouched
  exact ⟨before, after, hsplit, h.output.trans hfill⟩

theorem stays_of_declined (h : PassFrom answer 0 (Occurrence.segments answer t) calls)
    {c : Found t} (hc : c ∈ calls) (hdeclined : answer c.directive = none) :
    Stays answer calls c.start (c.start + 1 + c.directive.name.length) := by
  obtain ⟨more, ht⟩ := c.exists_text_eq
  refine h.stays (by omega) ?_ fun r hr => ?_
  · have hlength := congrArg List.length ht
    simp only [length_append, length_cons] at hlength
    rw [Found.start]
    omega
  · obtain ⟨hmem, hreplaced⟩ := mem_filter.mp hr
    by_cases hlt : r.start < c.start
    · exact .inl (h.stop_le hmem hreplaced hc hlt)
    · by_cases heq : r.start = c.start
      · rw [Found.isReplaced, Found.eq_of_start_eq heq, hdeclined] at hreplaced
        cases hreplaced
      · have hgt : c.start < r.start := by omega
        exact .inr (r.le_start_of_name ht c.stands.name_isPlain hgt)

theorem stays_of_unclosed (h : PassFrom answer 0 (Occurrence.segments answer t) calls)
    (ht : t = front ++ back) (hunclosed : Unclosed name back) :
    Stays answer calls front.length (front.length + 1 + name.length) ∨
      ∃ r ∈ Occurrence.replaced answer calls,
        r.start < front.length ∧ front.length + 1 + name.length < r.stop := by
  obtain ⟨blanks, rest, rfl, -, -⟩ := hunclosed.text_eq
  by_cases hinside : ∃ r ∈ Occurrence.replaced answer calls,
      r.start < front.length ∧ front.length < r.stop
  · obtain ⟨r, hr, hstart, hstop⟩ := hinside
    exact .inr ⟨r, hr, hstart, r.lt_stop_of_name ht hunclosed.name_isPlain hstart hstop⟩
  · refine .inl (h.stays (by omega) ?_ fun r hr => ?_)
    · have hlength := congrArg List.length ht
      simp only [length_append, length_cons] at hlength
      omega
    · have hne := r.start_ne_of_read? ht (hunclosed.read?_eq_none _)
      by_cases hstart : r.start < front.length
      · exact .inl (Nat.le_of_not_lt fun hstop => hinside ⟨r, hr, hstart, hstop⟩)
      · exact .inr (r.le_start_of_name ht hunclosed.name_isPlain (by omega))

end PassFrom

/-- **A pass replaces directives and nothing else.** -/
theorem exists_pass (t : Text) : ∃ calls : List (Found t), Pass answer calls := by
  obtain ⟨calls, h⟩ : ∃ calls : List (Found t), PassFrom answer 0 (segments answer t) calls :=
    exists_passFrom answer 0 (List.nil_append t).symm
  have hsource : fill t Found.span t.length 0 (replaced answer calls) = t :=
    fill_span h.start_le_of_mem_replaced h.apart (Nat.zero_le _)
  refine ⟨calls, h.asked, h.ordered.imp And.left, h.mem_iff, h.apart, hsource, h.output,
    fun start stop => h.stays, fun c => h.stays_of_declined, ?_, ?_⟩
  · intro front back name ht hunclosed
    exact ⟨fun c _ => c.start_ne_of_read? ht (hunclosed.read?_eq_none _),
      h.stays_of_unclosed ht hunclosed⟩
  · intro hnone
    have hnil : replaced answer calls = [] := by simp [replaced, Found.isReplaced, hnone]
    have houtput := h.output
    rw [hnil] at houtput hsource
    exact houtput.trans hsource

-- Only `@b` is answered: inside `@a`, which is declined, and inside `@c`, whose list is not closed.
example :
    substitute (fun d => if d.name = "b".toList then some "-".toList else none)
      "@a(@b(1)) x@b @@b @c(@b".toList = "@a(-) x@b @@b @c(-".toList := by
  decide +kernel

end Occurrence
end BladeView
