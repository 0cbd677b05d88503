import BladeView.Proofs.Group.Reading
import BladeView.Proofs.Text.Replace
import BladeView.Token
import Mathlib.Data.List.TakeWhile

/-!
# Lines and directives

A body is read in steps. A step reads a line of text, a line that is dropped, or a directive with
the blanks around it, and the next step goes on right after. This module says what each step reads
and where it stops; what holds of all tokens of a body is then shown from one step to the next.
-/
namespace BladeView

variable {line rest : Text}

/-! ## Lines of a text -/

namespace Token

/-- The first line of a text, without its line break. -/
def firstLine (t : Text) : Text := t.takeWhile (· != '\n')

/-- What follows the first line of a text and its line break. -/
def afterLine (t : Text) : Text := t.drop ((firstLine t).length + 1)

theorem firstLine_append_cons (u w : Text) : firstLine (u ++ '\n' :: w) = firstLine u :=
  Text.takeWhile_append_cons (by decide) u w

theorem firstLine_eq_self (h : '\n' ∉ line) : firstLine line = line :=
  List.takeWhile_eq_self_iff.2 fun _ hc => bne_iff_ne.2 fun heq => h (heq ▸ hc)

theorem firstLine_line (h : '\n' ∉ line) (rest : Text) :
    firstLine (line ++ '\n' :: rest) = line := by
  rw [firstLine_append_cons, firstLine_eq_self h]

theorem afterLine_line (h : '\n' ∉ line) (rest : Text) :
    afterLine (line ++ '\n' :: rest) = rest := by
  rw [afterLine, firstLine_line h, List.append_cons line '\n' rest]
  exact List.drop_left' (by simp)

theorem afterLine_eq_nil (h : '\n' ∉ line) : afterLine line = [] := by
  rw [afterLine, firstLine_eq_self h]
  exact List.drop_eq_nil_of_le (Nat.le_succ _)

theorem notMem_firstLine (t : Text) : '\n' ∉ firstLine t := fun h =>
  absurd (List.all_eq_true.1 List.all_takeWhile _ h) (by decide)

/-- A text is its first line, or goes on after a line break. -/
theorem firstLine_cases (t : Text) :
    (t = firstLine t ∧ afterLine t = []) ∨ t = firstLine t ++ '\n' :: afterLine t := by
  have hsplit : t = firstLine t ++ t.dropWhile (· != '\n') :=
    List.takeWhile_append_dropWhile.symm
  cases hrest : t.dropWhile (· != '\n') with
  | nil =>
    rw [hrest, List.append_nil] at hsplit
    refine .inl ⟨hsplit, List.drop_eq_nil_of_le ?_⟩
    rw [← hsplit]
    omega
  | cons c rest =>
    have hhead := List.head?_dropWhile_not (· != '\n') t
    rw [hrest] at hhead
    obtain rfl : c = '\n' := by simpa using hhead
    rw [hrest] at hsplit
    refine .inr ?_
    have hafter : afterLine t = rest := by
      rw [hsplit, afterLine_line (notMem_firstLine t)]
    rw [hafter]
    exact hsplit

theorem afterLine_suffix (t : Text) : afterLine t <:+ t := List.drop_suffix _ t

theorem length_afterLine_lt {t : Text} (h : t ≠ []) : (afterLine t).length < t.length := by
  have hpos := List.length_pos_iff.2 h
  rw [afterLine, List.length_drop]
  omega

end Token

/-! ## Directives -/

/-- What a directive is written as: a name that stands alone, or one that is followed by its
argument list after spaces and tabs. The name says whether there has to be a list. -/
structure Directive.IsWritten (d : Directive) : Prop where
  named : (argumentRule? d.name).isSome = true
  bare : d.args = none → d.raw = '@' :: d.name
  listed : ∀ args, d.args = some args → ∃ blanks, (∀ c ∈ blanks, isSpaceOrTab c = true) ∧
    d.raw = '@' :: (d.name ++ (blanks ++ '(' :: (args ++ [')'])))
  required : argumentRule? d.name = some .required → d.args.isSome = true

theorem Directive.IsWritten.raw_pos {d : Directive} (h : d.IsWritten) : 0 < d.raw.length := by
  cases hargs : d.args with
  | none => simp [h.bare hargs]
  | some args =>
    obtain ⟨blanks, -, hraw⟩ := h.listed args hargs
    simp [hraw]

namespace Token

/-- The arguments that are read stand at the front of the text. -/
theorem arguments?_eq_some {rule : ArgumentRule} {args : Option Text} {size : Nat}
    (h : arguments? rule rest = some (args, size)) :
    (args = none ∧ size = 0 ∧ rule ≠ .required) ∨
      ∃ inner blanks after, args = some inner ∧ (∀ c ∈ blanks, isSpaceOrTab c = true) ∧
        rest = blanks ++ '(' :: (inner ++ [')']) ++ after ∧
        size = (blanks ++ '(' :: (inner ++ [')'])).length := by
  unfold arguments? at h
  split at h
  case h_1 =>
    obtain ⟨rfl, rfl⟩ := Prod.mk.inj (Option.some.inj h)
    exact .inl ⟨rfl, rfl, by decide⟩
  case h_2 =>
    split at h
    case h_1 inner after hargs =>
      obtain ⟨-, h⟩ := Option.ite_none_right_eq_some.1 h
      obtain ⟨rfl, rfl⟩ := Prod.mk.inj (Option.some.inj h)
      obtain ⟨blanks, hblanks, rfl⟩ := Group.args?_eq_some hargs
      refine .inr ⟨inner, blanks, after, rfl, hblanks, by simp, ?_⟩
      simp only [List.length_append, List.length_cons, List.length_nil]
      omega
    case h_2 =>
      obtain ⟨hrule, h⟩ := Option.ite_none_left_eq_some.1 h
      obtain ⟨rfl, rfl⟩ := Prod.mk.inj (Option.some.inj h)
      refine .inl ⟨rfl, rfl, ?_⟩
      rintro rfl
      simp at hrule

/-- A directive that is read stands at the front of the text, and is well written. -/
theorem directive?_eq_some {t : Text} {d : Directive} (h : directive? t = some d) :
    (∃ rest, t = d.raw ++ rest) ∧ d.IsWritten := by
  unfold directive? at h
  split at h
  case h_2 => cases h
  case h_1 cs =>
    dsimp only at h
    obtain ⟨rule, hrule, h⟩ := Option.bind_eq_some_iff.1 h
    have hsplit : cs = Text.word cs ++ cs.drop (Text.word cs).length := by
      rw [Text.word, Text.drop_length_takeWhile, List.takeWhile_append_dropWhile]
    obtain ⟨-, h⟩ := Option.ite_none_left_eq_some.1 h
    obtain ⟨⟨args, size⟩, hargs, h⟩ := Option.bind_eq_some_iff.1 h
    obtain rfl := Option.some.inj h
    have hnamed : (argumentRule? (Text.word cs)).isSome = true := by rw [hrule]; rfl
    have hfront : ∃ rest, '@' :: cs =
        '@' :: (Text.word cs ++ (cs.drop (Text.word cs).length).take size) ++ rest := by
      refine ⟨(cs.drop (Text.word cs).length).drop size, ?_⟩
      rw [List.cons_append, List.append_assoc, List.take_append_drop, ← hsplit]
    refine ⟨hfront, ?_⟩
    rcases arguments?_eq_some hargs with
      ⟨rfl, rfl, hnot⟩ | ⟨inner, blanks, after, rfl, hblanks, hrest, hsize⟩
    · refine ⟨hnamed, fun _ => by simp, nofun, fun hreq => ?_⟩
      exact absurd (Option.some.inj (hrule.symm.trans hreq)) hnot
    · refine ⟨hnamed, nofun, fun args hargs => ⟨blanks, hblanks, ?_⟩, fun _ => rfl⟩
      obtain rfl := Option.some.inj hargs
      dsimp only
      rw [hrest, hsize, List.take_left]

/-- A directive starts with an at sign. -/
theorem directive?_of_head? {t : Text} (h : t.head? ≠ some '@') : directive? t = none := by
  unfold directive?
  split
  case h_1 => exact absurd rfl h
  case h_2 => rfl

/-! ## The first words of lines -/

/-- A line that starts, after blanks, with an at sign and one of some words. -/
def IsMarker (names : List Text) (line : Text) : Prop :=
  ∃ blanks name tail, (∀ c ∈ blanks, isBlank c = true) ∧ name ∈ names ∧
    tail.head?.any isPlainChar = false ∧ line = blanks ++ '@' :: (name ++ tail)

theorem headWord?_eq_some {word : Text} (h : headWord? line = some word) :
    ∃ blanks rest, (∀ c ∈ blanks, isBlank c = true) ∧ line = blanks ++ '@' :: rest ∧
      word = Text.word rest := by
  obtain ⟨rest, hafter, rfl⟩ := Option.map_eq_some_iff.1 h
  refine ⟨line.takeWhile isBlank, rest, List.all_eq_true.1 List.all_takeWhile, ?_, rfl⟩
  calc
    line = line.takeWhile isBlank ++ Text.trimStart line :=
      List.takeWhile_append_dropWhile.symm
    _ = _ := by rw [Text.after?_eq_some.1 hafter]; rfl

theorem startsWithAny_iff {names : List Text}
    (hnames : ∀ name ∈ names, name.all isPlainChar = true) :
    startsWithAny names line = true ↔ IsMarker names line := by
  constructor
  · intro h
    obtain ⟨word, hword, hmem⟩ := (Option.any_eq_true ..).1 h
    obtain ⟨blanks, rest, hblanks, rfl, rfl⟩ := headWord?_eq_some hword
    refine ⟨blanks, Text.word rest, rest.dropWhile isPlainChar, hblanks, by simpa using hmem,
      Text.head?_dropWhile .., ?_⟩
    rw [Text.word, List.takeWhile_append_dropWhile]
  · rintro ⟨blanks, name, tail, hblanks, hmem, htail, rfl⟩
    have hstart : Text.trimStart (blanks ++ '@' :: (name ++ tail)) = '@' :: (name ++ tail) := by
      rw [Text.trimStart, Text.dropWhile_append_cons (by decide),
        List.dropWhile_eq_nil_iff.2 hblanks, List.nil_append]
    have hword : Text.word (name ++ tail) = name := by
      have htake : tail.takeWhile isPlainChar = [] := by
        cases tail with
        | nil => rfl
        | cons c tail => exact List.takeWhile_cons_of_neg (by simpa using htail)
      rw [Text.word, List.takeWhile_append_of_pos (List.all_eq_true.1 (hnames name hmem)), htake,
        List.append_nil]
    have hafter : Text.after? "@" ('@' :: (name ++ tail)) = some (name ++ tail) :=
      Text.after?_eq_some.2 rfl
    rw [startsWithAny, headWord?, hstart, hafter, Option.map_some, hword]
    simpa using hmem

/-- A line that starts with no at sign is no marker. -/
theorem startsWithAny_of_head? (h : (Text.trimStart line).head? ≠ some '@') (names : List Text) :
    startsWithAny names line = false := by
  have hafter : Text.after? "@" (Text.trimStart line) = none := by
    rw [Option.eq_none_iff_forall_ne_some]
    intro rest hrest
    exact h (Text.after?_eq_some.1 hrest ▸ rfl)
  rw [startsWithAny, headWord?, hafter]
  rfl

/-! ## Steps -/

/-- The lines and directives of a text, read from a place on. -/
def items (place : Place) (t : Text) : List Item := Text.sweep (fun _ => readLine) none place 0 t

theorem ofBody_eq (body : Text) : ofBody body = ofItems (items {} body) := rfl

/-- The blanks at the front of the first line. -/
def lineIndent (t : Text) : Text := (firstLine t).takeWhile isBlank

/-- A region starts at the first line. -/
def startsRegion (t : Text) : Bool :=
  startsWithAny serverStarts (firstLine t) || startsWithAny clientStarts (firstLine t)

/-- What is read after a directive: the next line if nothing but blanks follow on its own. -/
def afterDirective (rest : Text) : Text :=
  if Text.isEmptyOrBlank (firstLine rest) then afterLine rest else rest

section Steps

variable {place : Place} {t : Text}

@[simp] theorem items_nil : items place [] = [] := rfl

theorem items_eq (h : t ≠ []) :
    items place t = (readLine place t).1 ++
      items (readLine place t).2.1 (t.drop ((readLine place t).2.2 + 1)) := by
  cases t with
  | nil => exact absurd rfl h
  | cons c t =>
    rw [items, Text.sweep, List.drop_succ_cons]
    exact congrArg _ (Text.sweep_drop ..)

/-! Outside of regions. -/

theorem readLine_both (hside : place.side = .both) : readLine place t =
    if startsWithAny serverStarts (firstLine t) then droppedLine place .server (firstLine t)
    else if startsWithAny clientStarts (firstLine t) then droppedLine place .client (firstLine t)
    else
      match directive? (t.drop (lineIndent t).length) with
      | none => textLine place (firstLine t)
      | some d =>
        let read := (lineIndent t).length + d.raw.length
        let after := firstLine (t.drop read)
        ([.directive d], place,
          if Text.isEmptyOrBlank after then read + after.length else read - 1) := by
  unfold readLine
  rw [hside]
  rfl

/-- A line without a directive is text. -/
theorem items_text (hside : place.side = .both) (ht : t ≠ []) (hstart : startsRegion t = false)
    (hdirective : directive? (t.drop (lineIndent t).length) = none) :
    items place t = .line (lineText place.preformatted (firstLine t)) ::
      items { place with preformatted := preformattedAfter place.preformatted (firstLine t) }
        (afterLine t) := by
  obtain ⟨hserver, hclient⟩ := Bool.or_eq_false_iff.1 hstart
  rw [items_eq ht, readLine_both hside, hserver, hclient, hdirective]
  rfl

/-- A directive is read with the blanks around it. -/
theorem items_directive (hside : place.side = .both) (hstart : startsRegion t = false)
    {d : Directive} (h : directive? (t.drop (lineIndent t).length) = some d)
    (hrest : t.drop (lineIndent t).length = d.raw ++ rest) :
    items place t = .directive d :: items place (afterDirective rest) := by
  obtain ⟨hserver, hclient⟩ := Bool.or_eq_false_iff.1 hstart
  have ht : t ≠ [] := by
    rintro rfl
    cases h
  have hraw := (directive?_eq_some h).2.raw_pos
  have hdrop : t.drop ((lineIndent t).length + d.raw.length) = rest := by
    rw [← List.drop_drop, hrest, List.drop_left]
  rw [items_eq ht, readLine_both hside, hserver, hclient, h]
  simp only [Bool.false_eq_true, if_false, hdrop, List.singleton_append, afterDirective]
  split
  · rw [Nat.add_assoc, ← List.drop_drop, hdrop]
    rfl
  · rw [Nat.sub_add_cancel (by omega), hdrop]

/-- A region for the server starts. -/
theorem items_startServer (hside : place.side = .both) (ht : t ≠ [])
    (hstart : startsWithAny serverStarts (firstLine t) = true) :
    items place t = items { place with side := .server } (afterLine t) := by
  rw [items_eq ht, readLine_both hside, hstart]
  rfl

/-- A region for the client starts. -/
theorem items_startClient (hside : place.side = .both) (ht : t ≠ [])
    (hserver : startsWithAny serverStarts (firstLine t) = false)
    (hstart : startsWithAny clientStarts (firstLine t) = true) :
    items place t = items { place with side := .client } (afterLine t) := by
  rw [items_eq ht, readLine_both hside, hserver, hstart]
  rfl

/-! Within a region. -/

theorem items_server (hside : place.side = .server) (ht : t ≠ []) :
    items place t =
      items { place with side := if startsWithAny serverEnds (firstLine t) then .both else .server }
        (afterLine t) := by
  have hread : readLine place t = droppedLine place
      (if startsWithAny serverEnds (firstLine t) then .both else .server) (firstLine t) := by
    unfold readLine
    rw [hside]
    rfl
  rw [items_eq ht, hread]
  rfl

theorem items_client (hside : place.side = .client) (ht : t ≠ []) :
    items place t =
      if startsWithAny clientEnds (firstLine t) then
        items { place with side := .both } (afterLine t)
      else .line (lineText place.preformatted (firstLine t)) ::
        items { place with preformatted := preformattedAfter place.preformatted (firstLine t) }
          (afterLine t) := by
  have hread : readLine place t =
      if startsWithAny clientEnds (firstLine t) then droppedLine place .both (firstLine t)
      else textLine place (firstLine t) := by
    unfold readLine
    rw [hside]
    rfl
  rw [items_eq ht, hread]
  split <;> rfl

end Steps

end Token
end BladeView
