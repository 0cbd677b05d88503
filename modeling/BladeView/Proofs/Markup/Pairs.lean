import BladeView.Proofs.Block.Argument
import BladeView.Proofs.Markup.Replaced
import BladeView.Proofs.Markup.Tags
import BladeView.Proofs.Text.Pieces

/-!
# Directives that yield attributes, line by line

Directives that yield an attribute under a key stand in opening tags. They compile to the attribute
and a list of what is yielded, and then the lists of each line are merged. So each line with
directives leaves one list at most, and it is the line that decides in which tag.
-/
namespace BladeView.Attribute

open List (append_assoc cons_append forall_mem_cons map_cons map_map map_take mem_append mem_cons
  mem_cons_self mem_singleton prefix_append suffix_append suffix_cons takeWhile_cons)

/-! ## Directives and characters -/

/-- A character that may stand in a plain name or key. -/
def isAttributeChar (c : Char) : Bool := !(['\x22', '\x27', '<', '>', '\\', '\n', '\r'].contains c)

/-- An attribute and the key it is yielded under. -/
structure Pair where
  name : Text
  key : Text
  isPlain : ∀ c ∈ name ++ key, isAttributeChar c = true

namespace Pair

/-- The name and the key of a directive that has just these two, in quotes. -/
def ofDirective? (d : Occurrence) : Option Pair := do
  let args := Text.trim (← d.args)
  match Text.enclosed? '[' ']' args, TopLevel.split args with
  | none, [first, second] =>
    let name ← Name.unquote? first
    let key ← Name.unquote? second
    if h : (name ++ key).all isAttributeChar = true then
      some ⟨name, key, List.all_eq_true.1 h⟩
    else none
  | _, _ => none

/-- A pair in a list. -/
def listed (y : Pair) : Text := y.name ++ ":" ++ y.key

/-- The value of the attribute. -/
def value (y : Pair) : Text := yielded y.key "null"

/-- The attribute itself. -/
def assigned (y : Pair) : Text := setting y.name y.value

/-- What the directive of a pair compiles to: the attribute, and a list of one. -/
theorem yield?_eq {d : Occurrence} {y : Pair} (h : ofDirective? d = some y) {new : Text}
    (hnew : yield? d = some new) : new = y.assigned ++ inserted y.listed := by
  obtain ⟨args, hargs, h⟩ := Option.bind_eq_some_iff.1 h
  rw [yield?, hargs] at hnew
  dsimp only at h
  split at h
  case h_2 => cases h
  case h_1 first second hnone hsplit =>
    obtain ⟨name, hname, h⟩ := Option.bind_eq_some_iff.1 h
    obtain ⟨key, hkey, h⟩ := Option.bind_eq_some_iff.1 h
    split at h
    case isFalse => cases h
    case isTrue =>
      obtain rfl := Option.some.inj h
      obtain ⟨-, hnew⟩ := Option.ite_none_right_eq_some.1 hnew
      simp only [Option.bind_eq_bind, Option.bind_some, hnone, hsplit, Name.bare, hname, hkey,
        List.head?_nil, Option.map_none, Option.getD_none, Option.pure_def, Option.some.injEq] at hnew
      rw [← hnew]
      simp only [assigned, listed, inserted, append_assoc]
      rfl

variable (y : Pair)

theorem ne_of_mem {c : Char} (hc : c ∈ y.name ∨ c ∈ y.key) :
    c ≠ '\x22' ∧ c ≠ '\x27' ∧ c ≠ '<' ∧ c ≠ '>' ∧ c ≠ '\\' ∧ c ≠ '\n' ∧ c ≠ '\r' := by
  simpa [isAttributeChar] using y.isPlain c (mem_append.2 hc)

theorem single_key : Quoted.single y.key = '\x27' :: (y.key ++ ['\x27']) := by
  have hescape : ∀ c ∈ y.key, Quoted.singleChar c = [c] := by
    intro c hc
    simp [Quoted.singleChar, y.ne_of_mem (.inr hc)]
  rw [Quoted.single, Quoted.flatMap_eq_self hescape]
  rfl

theorem value_eq : y.value = "$\x7bApp.View.yieldContent('" ++ (y.key ++ "', null)\x7d") := by
  have hstart : ("$\x7bApp.View.yieldContent('" : Text) =
      "$\x7bApp.View.yieldContent(" ++ ['\x27'] := rfl
  have hend : ("', null)\x7d" : Text) = '\x27' :: (", " ++ ("null" ++ ")\x7d")) := rfl
  unfold value yielded
  rw [single_key, hstart, hend]
  simp only [append_assoc, cons_append, List.nil_append]

theorem notMem_value {c : Char} (hc : c ∈ ['\x22', '>', '\n']) : c ∉ y.value := by
  have hkey : c ∉ y.key := by
    intro hmem
    have hne := y.ne_of_mem (.inr hmem)
    simp [hne] at hc
  have hother : c ∉ "$\x7bApp.View.yieldContent('".toList ∧ c ∉ "', null)\x7d".toList := by
    simp only [mem_cons, List.not_mem_nil, or_false] at hc
    rcases hc with rfl | rfl | rfl <;> exact ⟨by decide, by decide⟩
  rw [value_eq, mem_append, mem_append, not_or, not_or]
  exact ⟨hother.1, hkey, hother.2⟩

theorem assigned_eq : y.assigned = (y.name ++ ['=']) ++ '\x22' :: (y.value ++ ['\x22']) := by
  simp [assigned, setting]

/-- Nothing in an attribute ends its tag or its line. -/
theorem notMem_assigned {c : Char} (hc : c ∈ ['>', '\n']) : c ∉ y.assigned := by
  have hname : c ∉ y.name := by
    intro hmem
    have hne := y.ne_of_mem (.inl hmem)
    simp [hne] at hc
  have hvalue := y.notMem_value (List.mem_cons_of_mem _ hc)
  simp only [mem_cons, List.not_mem_nil, or_false] at hc
  rcases hc with rfl | rfl <;> simp [assigned_eq, hname, hvalue]

theorem after_assigned (n : Nat) : (Place.tag n).after y.assigned = .tag n := by
  rw [assigned_eq]
  refine Place.after_tag_quoted (fun c hc => ?_) (y.notMem_value mem_cons_self)
  rcases mem_append.1 hc with hc | hc
  · have hne := y.ne_of_mem (.inl hc)
    exact ⟨hne.2.2.2.1, hne.1, hne.2.1⟩
  · obtain rfl := mem_singleton.1 hc
    decide

theorem isPlainList_listed (h : ¬ yieldList <:+: y.assigned) : IsPlainList y.listed where
  quiet := by
    have hname : y.name <:+: y.assigned := by
      rw [assigned_eq, append_assoc]
      exact (prefix_append ..).isInfix
    have hkey : y.key <:+: y.assigned := by
      have hin : y.key <:+: y.value := ⟨_, _, (append_assoc ..).trans y.value_eq.symm⟩
      rw [assigned_eq]
      exact hin.trans ⟨y.name ++ ['='] ++ ['\x22'], ['\x22'], by simp⟩
    have hlisted : y.listed = y.name ++ ':' :: y.key := by simp [listed]
    rw [hlisted, Text.isInfix_append_cons_iff (by decide), not_or]
    exact ⟨fun hin => h (hin.trans hname), fun hin => h (hin.trans hkey)⟩
  chars c hc := by
    have hcases : (c ∈ y.name ∨ c ∈ y.key) ∨ c = ':' := by
      simp only [listed, mem_append] at hc
      rcases hc with (hc | hc) | hc
      · exact .inl (.inl hc)
      · exact .inr (by simpa using hc)
      · exact .inl (.inr hc)
    rcases hcases with hc | rfl
    · have hne := y.ne_of_mem hc
      exact ⟨hne.2.2.1, hne.2.2.2.1, hne.1, hne.2.1⟩
    · decide

end Pair

/-- A character, or the directive of a pair. -/
inductive Part where
  | char (c : Char)
  | yields (y : Pair)

namespace Part

/-- What a part compiles to, lists left out. -/
def bare : Part → Text
  | char c => [c]
  | yields y => y.assigned

/-- What a part compiles to. -/
def compiled : Part → Text
  | char c => [c]
  | yields y => y.assigned ++ inserted y.listed

/-- The part that a segment is. A directive that is declined is made of characters. -/
def ofSegment? : Occurrence.Segment → Option Part
  | .copied c => some (.char c)
  | .declined _ => none
  | .replaced d _ => (Pair.ofDirective? d).map .yields

end Part

/-- Whether a segment is no directive, or the directive of a pair. -/
def isPairs : Occurrence.Segment → Bool
  | .replaced d _ => (Pair.ofDirective? d).isSome
  | _ => true

/-- The characters and directives of a text. -/
def parts (t : Text) : List Part := (Occurrence.segments yield? t).filterMap Part.ofSegment?

def bareText (ps : List Part) : Text := ps.flatMap Part.bare

def compiledText (ps : List Part) : Text := ps.flatMap Part.compiled

/-- What is put in place of a directive is the answer for it. -/
theorem answer_of_mem_passFrom {answer : Occurrence → Option Text} {t : Text}
    {before : Option Char} {jump : Nat} {d : Occurrence} {new : Text}
    (h : .replaced d new ∈ Occurrence.passFrom answer before jump t) : answer d = some new := by
  obtain ⟨before, _, t, h⟩ := Text.exists_of_mem_sweep h
  unfold Occurrence.segmentStep at h
  split at h
  case h_1 => simp [-map_take] at h
  case h_2 e rest hread =>
    split at h
    case h_1 answered he =>
      obtain ⟨rfl, rfl⟩ := Occurrence.Segment.replaced.inj (mem_singleton.1 h)
      exact he
    case h_2 => simp [-map_take] at h

/-- A text whose directives all are pairs is compiled part by part. -/
theorem substitute_eq_compiledText {t : Text}
    (h : ∀ s ∈ Occurrence.segments yield? t, isPairs s = true) :
    Occurrence.substitute yield? t = compiledText (parts t) := by
  have hanswer : ∀ d new, .replaced d new ∈ Occurrence.segments yield? t → yield? d = some new :=
    fun _ _ => answer_of_mem_passFrom
  unfold Occurrence.substitute compiledText parts
  generalize Occurrence.segments yield? t = segments at h hanswer
  induction segments with
  | nil => rfl
  | cons s segments ih =>
    obtain ⟨hs, hsegments⟩ := forall_mem_cons.1 h
    have hrest := ih hsegments fun d new hmem => hanswer d new (List.mem_cons_of_mem s hmem)
    cases s with
    | copied c => simp [Part.ofSegment?, Occurrence.Segment.output, Part.compiled, hrest]
    | declined d => exact hrest
    | replaced d new =>
      obtain ⟨y, hy⟩ := Option.isSome_iff_exists.1 hs
      have hnew := Pair.yield?_eq hy (hanswer d new mem_cons_self)
      simp [Part.ofSegment?, Occurrence.Segment.output, Part.compiled, hy, hnew, hrest]

/-! ## Lists of a compiled line -/

/-- The name of a list that is read stands before the first quote. -/
theorem isInfix_of_yieldList? {t : Text} {found : Text × Text} (h : yieldList? t = some found) :
    yieldList <:+: t.takeWhile (· != '\x22') := by
  obtain ⟨x, rest⟩ := found
  obtain ⟨blanks, hblanks, -, rfl⟩ := yieldList?_eq_some h
  have htext : blanks ++ (setting yieldList x ++ rest) =
      (blanks ++ (yieldList ++ ['='])) ++ '\x22' :: (x ++ '\x22' :: rest) := by
    have hhead : listHead = yieldList ++ ['=', '\x22'] := rfl
    rw [setting_yieldList, hhead]
    simp only [append_assoc, cons_append, List.nil_append]
  have hquote : ∀ c ∈ blanks ++ (yieldList ++ ['=']), (c != '\x22') = true := by
    intro c hc
    rcases mem_append.1 hc with hc | hc
    · have hblank := hblanks c hc
      rw [bne_iff_ne]
      rintro rfl
      cases hblank
    · exact List.all_eq_true.1 (by decide : (yieldList ++ ['=']).all (· != '\x22') = true) c hc
  rw [htext, Text.takeWhile_append_cons rfl, List.takeWhile_eq_self_iff.2 hquote]
  exact ⟨blanks, ['='], by simp⟩

/-- Up to the first quote there is no list yet. -/
theorem takeWhile_compiledText (ps : List Part) :
    (compiledText ps).takeWhile (· != '\x22') = (bareText ps).takeWhile (· != '\x22') := by
  induction ps with
  | nil => rfl
  | cons part ps ih =>
    cases part with
    | char c =>
      have hcompiled : compiledText (.char c :: ps) = c :: compiledText ps := rfl
      have hbare : bareText (.char c :: ps) = c :: bareText ps := rfl
      rw [hcompiled, hbare, takeWhile_cons, takeWhile_cons, ih]
    | yields y =>
      have hcompiled : compiledText (.yields y :: ps) = (y.name ++ ['=']) ++ '\x22' ::
          (y.value ++ '\x22' :: (inserted y.listed ++ compiledText ps)) := by
        simp [compiledText, Part.compiled, Pair.assigned_eq]
      have hbare : bareText (.yields y :: ps) =
          (y.name ++ ['=']) ++ '\x22' :: (y.value ++ '\x22' :: bareText ps) := by
        simp [bareText, Part.bare, Pair.assigned_eq]
      rw [hcompiled, hbare]
      exact (Text.takeWhile_append_cons rfl _ _).trans (Text.takeWhile_append_cons rfl _ _).symm

/-- In an attribute that does not have the name of a list, no list is read. -/
theorem silent_assigned {y : Pair} (h : ¬ yieldList <:+: y.assigned) :
    Text.Silent yieldList? y.assigned := by
  intro s hs hne u
  rw [Option.eq_none_iff_forall_ne_some]
  intro found hfound
  obtain ⟨front, rfl⟩ : ∃ front, s = front ++ ['\x22'] := by
    have hlast : y.assigned = (y.name ++ '=' :: '\x22' :: y.value) ++ ['\x22'] := by
      rw [y.assigned_eq]
      simp
    rw [hlast] at hs
    obtain ⟨front, hfront, -⟩ := (List.suffix_concat_iff.1 hs).resolve_left hne
    exact ⟨front, hfront⟩
  have hin := isInfix_of_yieldList? hfound
  rw [append_assoc, List.singleton_append, Text.takeWhile_append_cons rfl] at hin
  have hfront : front.takeWhile (· != '\x22') <:+: front ++ ['\x22'] :=
    ((List.takeWhile_prefix _).trans (prefix_append front _)).isInfix
  exact h ((hin.trans hfront).trans hs.isInfix)

/-- The pairs among some parts. -/
def pairs : List Part → List Pair
  | [] => []
  | .char _ :: ps => pairs ps
  | .yields y :: ps => y :: pairs ps

theorem yieldList?_inserted {y : Pair} (h : ¬ yieldList <:+: y.assigned) (rest : Text) :
    yieldList? (inserted y.listed ++ rest) = some (y.listed, rest) := by
  have hquote : '\x22' ∉ y.listed := fun hmem => ((y.isPlainList_listed h).chars _ hmem).2.2.1 rfl
  have hstart : Text.trimStart (inserted y.listed ++ rest) = setting yieldList y.listed ++ rest := rfl
  have hhead : Text.after? (yieldList ++ "=\"") (setting yieldList y.listed ++ rest) =
      some (y.listed ++ '\x22' :: rest) := by
    rw [Text.after?_eq_some, setting_yieldList]
    simp [listHead]
  rw [yieldList?, hstart, hhead]
  exact Text.cut?_singleton_eq_some.2 ⟨hquote, rfl⟩

theorem droppedList?_eq_none {t : Text} (h : yieldList? t = none) : droppedList? t = none := by
  rw [droppedList?, h]
  rfl

theorem lists_silent {u : Text} (hu : Text.Silent yieldList? u) (v : Text) :
    lists (u ++ v) = lists v ∧ withoutLists (u ++ v) = u ++ withoutLists v := by
  constructor
  · rw [lists, lists, Text.readAll_eq_pass, Text.readAll_eq_pass, Text.pass_silent hu]
    simp
  · have hdropped : Text.Silent droppedList? u :=
      fun s hs hne v => droppedList?_eq_none (hu s hs hne v)
    rw [withoutLists, withoutLists, Text.substitute_eq_pass, Text.substitute_eq_pass,
      Text.pass_silent hdropped, List.flatMap_singleton']

theorem lists_found {t x rest : Text} (h : yieldList? t = some (x, rest)) :
    lists t = x :: lists rest ∧ withoutLists t = withoutLists rest := by
  have hdropped : droppedList? t = some ([], rest) := by
    rw [droppedList?, h]
    rfl
  have hwithout := Text.substitute_found consumes_droppedList? hdropped
  exact ⟨Text.readAll_of_consumes consumes_yieldList? h, hwithout⟩

/-- The lists of a compiled line are those of its pairs, and without them the bare text is left. -/
theorem lists_compiledText {ps : List Part} (h : ¬ yieldList <:+: bareText ps) :
    lists (compiledText ps) = (pairs ps).map Pair.listed ∧
      withoutLists (compiledText ps) = bareText ps := by
  induction ps with
  | nil => exact ⟨rfl, rfl⟩
  | cons part ps ih =>
    cases part with
    | char c =>
      have hbare : bareText (.char c :: ps) = c :: bareText ps := rfl
      have hcompiled : compiledText (.char c :: ps) = c :: compiledText ps := rfl
      have hrest := ih fun hin => h (hin.trans (suffix_cons c _).isInfix)
      have hnone : yieldList? (c :: compiledText ps) = none := by
        rw [Option.eq_none_iff_forall_ne_some]
        intro found hfound
        have hin := isInfix_of_yieldList? hfound
        rw [← hcompiled, takeWhile_compiledText] at hin
        exact h (hin.trans (List.takeWhile_prefix _).isInfix)
      rw [hcompiled, hbare, lists, withoutLists, Text.readAll_other hnone,
        Text.substitute_other (droppedList?_eq_none hnone)]
      exact ⟨hrest.1, congrArg (c :: ·) hrest.2⟩
    | yields y =>
      have hbare : bareText (.yields y :: ps) = y.assigned ++ bareText ps := rfl
      have hcompiled : compiledText (.yields y :: ps) =
          y.assigned ++ (inserted y.listed ++ compiledText ps) := append_assoc ..
      rw [hbare] at h
      have hown : ¬ yieldList <:+: y.assigned :=
        fun hin => h (hin.trans (prefix_append ..).isInfix)
      have hrest := ih fun hin => h (hin.trans (suffix_append ..).isInfix)
      have hassigned := lists_silent (silent_assigned hown) (inserted y.listed ++ compiledText ps)
      have hlist := lists_found (yieldList?_inserted hown (compiledText ps))
      rw [hcompiled, hbare, hassigned.1, hassigned.2, hlist.1, hlist.2, hrest.1, hrest.2]
      exact ⟨rfl, rfl⟩

/-- The lists of the pairs of a line, merged. -/
def merged (ys : List Pair) : Text := Text.join [','] (ys.map Pair.listed)

/-- What merging does to a line: nothing if it has one list at most, otherwise it puts a list of all
pairs into the bare text. -/
theorem mergeLine_compiledText {ps : List Part} (h : ¬ yieldList <:+: bareText ps) :
    mergeLine (compiledText ps) =
      if (pairs ps).length < 2 then compiledText ps
      else insertAttribute (inserted (merged (pairs ps))) (bareText ps) := by
  obtain ⟨hlists, hwithout⟩ := lists_compiledText h
  have hmerge : mergeLine (compiledText ps) = if (lists (compiledText ps)).length < 2 then
      compiledText ps else insertAttribute
        (" " ++ setting yieldList (Text.join "," (lists (compiledText ps))))
        (withoutLists (compiledText ps)) := rfl
  rw [hmerge, hlists, hwithout, List.length_map]
  rfl

/-! ## Lines -/

/-- The place after a part. A directive stays where it stands. -/
def Part.next (p : Place) : Part → Place
  | char c => p.next c
  | yields _ => p

/-- Whether a part is no closing bracket. -/
def Part.isNoBracket : Part → Bool
  | char c => c != '>'
  | yields _ => true

/-- The place after some parts. -/
def placeAfter (p : Place) (ps : List Part) : Place := ps.foldl Part.next p

/-- The pairs among some parts, with the places that their directives stand at. -/
def yieldsFrom (p : Place) : List Part → List (Place × Pair)
  | [] => []
  | .char c :: ps => yieldsFrom (p.next c) ps
  | .yields y :: ps => (p, y) :: yieldsFrom p ps

/-- The parts of a line, and the place where it begins. -/
structure Line where
  start : Place
  parts : List Part

namespace Line

def yields (l : Line) : List (Place × Pair) := yieldsFrom l.start l.parts

/-- The pairs of a line as they are listed, with the tags that carry them. -/
def carried (l : Line) : List (Nat × Text) := l.yields.map fun y => (y.1.count, y.2.listed)

/-- The place before the first closing bracket of a line, or at its end. -/
def mergePlace (l : Line) : Place :=
  placeAfter l.start (l.parts.takeWhile Part.isNoBracket)

/-- The lists that a line leaves in its tags: that of a single directive, or one for all of them if
they are put into a tag. -/
def found (l : Line) : List (Nat × Text) :=
  if l.carried.length < 2 then l.carried
  else (l.mergePlace.tag?.map fun n => (n, Text.join [','] (l.carried.map Prod.snd))).toList

/-- All directives of a line stand inside opening tags. -/
def IsInside (l : Line) : Prop := ∀ y ∈ l.yields, y.1.tag?.isSome = true

instance (l : Line) : Decidable l.IsInside :=
  inferInstanceAs (Decidable (∀ y ∈ l.yields, y.1.tag?.isSome = true))

end Line

theorem map_yieldsFrom (p : Place) (ps : List Part) :
    (yieldsFrom p ps).map Prod.snd = pairs ps := by
  induction ps generalizing p with
  | nil => rfl
  | cons part ps ih =>
    cases part with
    | char c => exact ih (p.next c)
    | yields y => exact congrArg (y :: ·) (ih p)

theorem Line.map_carried (l : Line) : l.carried.map Prod.snd = (pairs l.parts).map Pair.listed := by
  rw [carried, map_map, ← map_yieldsFrom l.start, map_map]
  rfl

theorem bareText_takeWhile (ps : List Part) :
    (bareText ps).takeWhile (· != '>') = bareText (ps.takeWhile Part.isNoBracket) := by
  induction ps with
  | nil => rfl
  | cons part ps ih =>
    cases part with
    | char c =>
      have hbare (ps : List Part) : bareText (.char c :: ps) = c :: bareText ps := rfl
      rw [hbare, takeWhile_cons, takeWhile_cons, ih]
      cases hc : c != '>' with
      | true => rw [if_pos rfl, Part.isNoBracket, if_pos hc, hbare]
      | false => simp [Part.isNoBracket, hc, bareText]
    | yields y =>
      have hbare (ps : List Part) : bareText (.yields y :: ps) = y.assigned ++ bareText ps := rfl
      have hassigned : ∀ c ∈ y.assigned, (c != '>') = true := by
        intro c hc
        rw [bne_iff_ne]
        exact ne_of_mem_of_not_mem hc (y.notMem_assigned (by simp))
      rw [hbare, List.takeWhile_append_of_pos hassigned, ih, List.takeWhile_cons_of_pos rfl, hbare]

/-- Where all directives stand inside tags, their attributes change no place. -/
theorem after_bareText {p : Place} {ps : List Part} (h : Line.IsInside ⟨p, ps⟩) :
    p.after (bareText ps) = placeAfter p ps := by
  induction ps generalizing p with
  | nil => rfl
  | cons part ps ih =>
    cases part with
    | char c => exact ih h
    | yields y =>
      have hbare : bareText (.yields y :: ps) = y.assigned ++ bareText ps := rfl
      obtain ⟨hp, hrest⟩ := forall_mem_cons.1 h
      obtain ⟨n, hn⟩ := Option.isSome_iff_exists.1 hp
      obtain rfl := Place.count_of_tag? hn
      rw [hbare, Place.after_append, y.after_assigned, ih hrest]
      rfl

theorem Line.IsInside.takeWhile {p : Place} {ps : List Part} (h : IsInside ⟨p, ps⟩)
    (f : Part → Bool) : IsInside ⟨p, ps.takeWhile f⟩ := by
  induction ps generalizing p with
  | nil => exact h
  | cons part ps ih =>
    rw [takeWhile_cons]
    split
    case isFalse => simp [IsInside, Line.yields, yieldsFrom]
    case isTrue =>
      cases part with
      | char c => exact ih h
      | yields y =>
        obtain ⟨hp, hrest⟩ := forall_mem_cons.1 h
        exact forall_mem_cons.2 ⟨hp, ih hrest⟩

theorem assigned_isInfix {ps : List Part} {y : Pair} (h : y ∈ pairs ps) :
    y.assigned <:+: bareText ps := by
  induction ps with
  | nil => cases h
  | cons part ps ih =>
    cases part with
    | char c => exact (ih h).trans (suffix_cons c _).isInfix
    | yields z =>
      rcases mem_cons.1 h with rfl | h
      · exact (prefix_append ..).isInfix
      · exact (ih h).trans (suffix_append ..).isInfix

theorem isPlainList_merged {ps : List Part} (h : ¬ yieldList <:+: bareText ps) :
    IsPlainList (merged (pairs ps)) := by
  have hlisted : ∀ t ∈ (pairs ps).map Pair.listed, IsPlainList t := by
    intro t ht
    obtain ⟨y, hy, rfl⟩ := List.mem_map.1 ht
    exact y.isPlainList_listed fun hin => h (hin.trans (assigned_isInfix hy))
  constructor
  · rw [merged, Text.isInfix_join_iff (by decide) (by decide)]
    rintro ⟨t, ht, hin⟩
    exact (hlisted t ht).quiet hin
  · refine Text.join_induction (P := fun t => ∀ c ∈ t, c ≠ '<' ∧ c ≠ '>' ∧ c ≠ '\x22' ∧ c ≠ '\x27')
      (by simp) (fun s t hs ht => ?_) (by simp) fun t ht => (hlisted t ht).chars
    rw [List.forall_mem_append]
    exact ⟨hs, ht⟩

section Line

variable {p : Place} {ps : List Part} (hquiet : ¬ yieldList <:+: bareText ps)
  (hinside : Line.IsInside ⟨p, ps⟩) (v : Text)

include hinside in
theorem after_line : p.after (bareText ps ++ ['\n']) = (placeAfter p ps).next '\n' := by
  rw [Place.after_append, after_bareText hinside]
  rfl

include hquiet hinside

/-- As long as a line is not merged, each of its directives leaves a list in its own tag. -/
theorem tagLists_compiledText :
    tagLists p (compiledText ps ++ '\n' :: v) =
      Line.carried ⟨p, ps⟩ ++ tagLists ((placeAfter p ps).next '\n') v := by
  induction ps generalizing p with
  | nil => exact tagLists_quiet (u := []) (by decide) (by decide)
  | cons part ps ih =>
    cases part with
    | char c =>
      have hnone : ¬ yieldList <+: c :: (compiledText ps ++ '\n' :: v) := by
        rw [← cons_append, Text.prefix_append_cons_iff (by decide)]
        rintro ⟨rest, hrest⟩
        have hbare := takeWhile_compiledText (.char c :: ps)
        have hcompiled : compiledText (.char c :: ps) = yieldList ++ rest := hrest.symm
        rw [hcompiled, List.takeWhile_append_of_pos (List.all_eq_true.1 (by decide))] at hbare
        have hbegins : yieldList <+: bareText (.char c :: ps) :=
          (hbare ▸ prefix_append ..).trans (List.takeWhile_prefix _)
        exact hquiet hbegins.isInfix
      have hrest := ih (fun hin => hquiet (hin.trans (suffix_cons c _).isInfix)) hinside
      have htext : compiledText (.char c :: ps) ++ '\n' :: v =
          c :: (compiledText ps ++ '\n' :: v) := rfl
      rw [htext, tagLists, listAt?_eq_none hnone]
      exact hrest
    | yields y =>
      obtain ⟨hp, hinside⟩ := forall_mem_cons.1 hinside
      obtain ⟨n, hn⟩ := Option.isSome_iff_exists.1 hp
      obtain rfl : p = .tag n := Place.count_of_tag? hn
      have hown : ¬ yieldList <:+: y.assigned :=
        fun hin => hquiet (hin.trans (prefix_append ..).isInfix)
      have hplain := y.isPlainList_listed hown
      have hrest := ih (fun hin => hquiet (hin.trans (suffix_append ..).isInfix)) hinside
      have htext : compiledText (.yields y :: ps) ++ '\n' :: v = y.assigned ++ ' ' ::
          (setting yieldList y.listed ++ (compiledText ps ++ '\n' :: v)) := by
        simp [compiledText, Part.compiled, inserted]
      have hplace : (Place.tag n).after (y.assigned ++ [' ']) = .tag n := by
        rw [Place.after_append, y.after_assigned]
        rfl
      have hlist : (Place.tag n).after (setting yieldList y.listed) = .tag n :=
        after_tag_inserted hplain n
      rw [htext, tagLists_quiet hown (by decide), hplace, tagLists_setting hplain, hlist, hrest]
      rfl

theorem tagLists_line_merged :
    tagLists p (insertAttribute (inserted (merged (pairs ps))) (bareText ps) ++ '\n' :: v) =
      ((Line.mergePlace ⟨p, ps⟩).tag?.map fun n => (n, merged (pairs ps))).toList ++
        tagLists ((placeAfter p ps).next '\n') v := by
  have hplace : p.after ((bareText ps).takeWhile (· != '>')) = Line.mergePlace ⟨p, ps⟩ := by
    rw [bareText_takeWhile, after_bareText (hinside.takeWhile _)]
    rfl
  rw [tagLists_insertAttribute (isPlainList_merged hquiet) p hquiet, hplace, after_line hinside]

/-- A line leaves its lists in the tags, and the next line begins where the line ends. -/
theorem tagLists_mergeLine :
    tagLists p (mergeLine (compiledText ps) ++ '\n' :: v) =
      Line.found ⟨p, ps⟩ ++ tagLists ((placeAfter p ps).next '\n') v := by
  have hlisted := Line.map_carried ⟨p, ps⟩
  have hlength : (Line.carried ⟨p, ps⟩).length = (pairs ps).length := by
    simpa using congrArg List.length hlisted
  rw [mergeLine_compiledText hquiet, Line.found, hlength]
  split
  case isTrue => exact tagLists_compiledText hquiet hinside v
  case isFalse =>
    rw [tagLists_line_merged hquiet hinside, hlisted]
    rfl

end Line

/-! ## All lines -/

/-- Whether a part ends its line. -/
def Part.isBreak : Part → Bool
  | char c => c == '\n'
  | yields _ => false

/-- Lines one after the other, each with the place where it begins. -/
def linesFrom (p : Place) : List (List Part) → List Line
  | [] => []
  | ps :: others => ⟨p, ps⟩ :: linesFrom ((placeAfter p ps).next '\n') others

/-- The lines of a text. -/
def lines (t : Text) : List Line := linesFrom (.text 0) ((parts t).splitOnP Part.isBreak)

/-- A text of parts is broken into lines as its parts are. -/
theorem splitOn_flatMap {f : Part → Text} (hchar : ∀ c, f (.char c) = [c])
    (hyields : ∀ y, '\n' ∉ f (.yields y)) (ps : List Part) :
    Text.splitOn '\n' (ps.flatMap f) = (ps.splitOnP Part.isBreak).map (·.flatMap f) := by
  have hkept : ∀ part, part.isBreak = false → '\n' ∉ f part := by
    intro part hpart
    cases part with
    | char c =>
      rw [hchar, mem_singleton]
      rintro rfl
      cases hpart
    | yields y => exact hyields y
  induction ps with
  | nil => rfl
  | cons part ps ih =>
    obtain ⟨first, others, hlines⟩ := List.exists_cons_of_ne_nil (List.splitOnP_ne_nil Part.isBreak ps)
    rw [List.flatMap_cons, List.splitOnP_cons_eq_if_modifyHead]
    cases hpart : part.isBreak with
    | false =>
      obtain ⟨line, lines, hsplit, heq⟩ :=
        Text.splitOn_append_of_notMem (hkept part hpart) (ps.flatMap f)
      rw [ih, hlines, map_cons] at hsplit
      obtain ⟨rfl, rfl⟩ := List.cons.inj hsplit
      rw [heq, hlines]
      rfl
    | true =>
      have hbreak : part = .char '\n' := by
        cases part with
        | char c => rw [beq_iff_eq.1 hpart]
        | yields y => cases hpart
      rw [hbreak, hchar, List.singleton_append, Text.splitOn, ih]
      rfl

/-- Lists that are read line by line are those of the whole text. -/
theorem tagLists_linesFrom {compile : List Part → Text} {left : Line → List (Nat × Text)}
    {p : Place} {others : List (List Part)}
    (h : ∀ l ∈ linesFrom p others, ∀ v, tagLists l.start (compile l.parts ++ '\n' :: v) =
      left l ++ tagLists ((placeAfter l.start l.parts).next '\n') v) :
    tagLists p (Text.join ['\n'] (others.map compile)) = (linesFrom p others).flatMap left := by
  induction others generalizing p with
  | nil => rfl
  | cons ps others ih =>
    obtain ⟨hfirst, hothers⟩ := forall_mem_cons.1 h
    rw [linesFrom, List.flatMap_cons, ← ih hothers]
    cases others with
    | nil =>
      rw [List.map_singleton, Text.join_singleton, ← tagLists_break]
      exact hfirst []
    | cons ps' others =>
      rw [map_cons, map_cons, Text.join_cons_cons, append_assoc, List.singleton_append]
      exact hfirst _

theorem parts_mem_of_mem_linesFrom {p : Place} {others : List (List Part)} {l : Line}
    (h : l ∈ linesFrom p others) : l.parts ∈ others := by
  induction others generalizing p with
  | nil => cases h
  | cons ps others ih =>
    rcases mem_cons.1 h with rfl | h
    · exact mem_cons_self
    · exact List.mem_cons_of_mem ps (ih h)

/-- A line has no name of a list if the text has none. -/
theorem quiet_of_mem_lines {t : Text} (h : ¬ yieldList <:+: bareText (parts t)) {l : Line}
    (hl : l ∈ lines t) : ¬ yieldList <:+: bareText l.parts := by
  have hlines : Text.splitOn '\n' (bareText (parts t)) =
      ((parts t).splitOnP Part.isBreak).map bareText :=
    splitOn_flatMap (fun _ => rfl) (fun y => y.notMem_assigned (by simp)) (parts t)
  intro hin
  rw [← Text.join_splitOn '\n' (bareText (parts t)), hlines,
    Text.isInfix_join_iff (by decide) (by decide)] at h
  exact h ⟨_, List.mem_map_of_mem (parts_mem_of_mem_linesFrom hl), hin⟩

theorem splitOn_compiledText (ps : List Part) :
    Text.splitOn '\n' (compiledText ps) = (ps.splitOnP Part.isBreak).map compiledText := by
  refine splitOn_flatMap (fun _ => rfl) (fun y => ?_) ps
  have hlisted : '\n' ∉ y.listed := by
    simp only [Pair.listed, mem_append, not_or]
    exact ⟨⟨fun hmem => (y.ne_of_mem (.inl hmem)).2.2.2.2.2.1 rfl, by decide⟩,
      fun hmem => (y.ne_of_mem (.inr hmem)).2.2.2.2.2.1 rfl⟩
  have hassigned := y.notMem_assigned (c := '\n') (by simp)
  simp [Part.compiled, inserted_eq, hassigned, hlisted]

section Yields

variable {t : Text} (hpairs : ∀ s ∈ Occurrence.segments yield? t, isPairs s = true)
  (hinside : ∀ l ∈ lines t, l.IsInside) (hquiet : ¬ yieldList <:+: bareText (parts t))

include hpairs hinside hquiet

/-- Before the lists of a line are merged, each tag has the lists of its own directives. -/
theorem tagLists_substitute :
    tagLists (.text 0) (Occurrence.substitute yield? t) = (lines t).flatMap Line.carried := by
  rw [substitute_eq_compiledText hpairs, ← Text.join_splitOn '\n' (compiledText (parts t)),
    splitOn_compiledText]
  exact tagLists_linesFrom fun l hl =>
    tagLists_compiledText (quiet_of_mem_lines hquiet hl) (hinside l hl)

/-- When they are merged, each tag has the lists that the lines leave in it. -/
theorem tagLists_substituteYields :
    tagLists (.text 0) (substituteYields t) = (lines t).flatMap Line.found := by
  rw [substituteYields, substitute_eq_compiledText hpairs, splitOn_compiledText, map_map]
  exact tagLists_linesFrom fun l hl =>
    tagLists_mergeLine (quiet_of_mem_lines hquiet hl) (hinside l hl)

end Yields

end BladeView.Attribute
