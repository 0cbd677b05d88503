import BladeView.Proofs.Markup.Plain
import BladeView.Proofs.Source.Verbatim
import BladeView.Proofs.Text.Trimmed

/-!
# Lists of yielded attributes

The lists of yielded attributes on a line are merged into one if there are two or more. All items
stay; what is lost is the attribute's name and quotes of each list but one.
-/
namespace BladeView

open Text (cut? readAll_other splitOn weight weight_append weight_cons)
open List (append_assoc count_append count_eq_zero length_cons)

variable {t rest x line : Text}

theorem Text.readAll_of_consumes {α : Type} {reader : Text → Option (α × Text)}
    (h : Consumes reader) {value : α} (hread : reader t = some (value, rest)) :
    readAll (fun _ => reader) t = value :: readAll (fun _ => reader) rest := by
  rw [readAll_eq_pass, readAll_eq_pass, pass_found h hread, List.singleton_append]

namespace Attribute

/-! ## Reading lists -/

/-- The lists of yielded attributes of a line, as they are read from left to right. -/
def lists (line : Text) : List Text := Text.readAll (fun _ => yieldList?) line

/-- What a list of yielded attributes starts with. -/
def listHead : Text := yieldList ++ "=\""

theorem setting_yieldList (x : Text) : setting yieldList x = listHead ++ (x ++ ['\x22']) :=
  append_assoc ..

theorem yieldList?_eq_some (h : yieldList? t = some (x, rest)) :
    ∃ blanks, (∀ c ∈ blanks, isBlank c = true) ∧ '\x22' ∉ x ∧
      t = blanks ++ (setting yieldList x ++ rest) := by
  obtain ⟨inside, hhead, hcut⟩ := Option.bind_eq_some_iff.1 h
  have hquote : cut? ['\x22'] inside = some (x, rest) := hcut
  obtain ⟨hx, rfl⟩ := Text.cut?_singleton_eq_some.1 hquote
  refine ⟨t.takeWhile isBlank, fun c hc => List.all_eq_true.1 List.all_takeWhile c hc, hx, ?_⟩
  have hrest : setting yieldList x ++ rest = Text.trimStart t := by
    rw [Text.after?_eq_some.1 hhead, setting_yieldList]
    simp [listHead]
  rw [hrest]
  exact List.takeWhile_append_dropWhile.symm

theorem consumes_yieldList? : Text.Consumes yieldList? := by
  intro t x rest hread
  obtain ⟨blanks, -, -, rfl⟩ := yieldList?_eq_some hread
  refine ⟨blanks ++ setting yieldList x, ?_, by rw [append_assoc]⟩
  rw [setting_yieldList]
  simp

/-- Where a list stands, one is read. -/
theorem yieldList?_setting (x rest : Text) : yieldList? (setting yieldList x ++ rest) ≠ none := by
  have hstart : Text.trimStart (setting yieldList x ++ rest) = setting yieldList x ++ rest :=
    rfl
  have hhead : Text.after? (yieldList ++ "=\"") (setting yieldList x ++ rest) =
      some (x ++ '\x22' :: rest) := by
    rw [Text.after?_eq_some, setting_yieldList]
    simp [listHead]
  intro hnone
  rw [yieldList?, hstart, hhead] at hnone
  have hcut : cut? ['\x22'] (x ++ '\x22' :: rest) = none := hnone
  rw [Text.cut?_eq_none_iff (by simp)] at hcut
  exact hcut ⟨x, rest, by simp⟩

/-- Two lists stand one after the other on the line. -/
def HasTwoLists (line : Text) : Prop :=
  ∃ before x between y after,
    line = before ++ (setting yieldList x ++ (between ++ (setting yieldList y ++ after)))

theorem exists_of_lists_cons {xs : List Text} (h : lists t = x :: xs) :
    ∃ before rest, t = before ++ (setting yieldList x ++ rest) ∧ lists rest = xs := by
  induction t using Text.substitute_induction consumes_yieldList? with
  | nil => cases h
  | found t y rest hread ih =>
    rw [lists, Text.readAll_of_consumes consumes_yieldList? hread] at h
    obtain ⟨rfl, hxs⟩ := List.cons.inj h
    obtain ⟨blanks, -, -, rfl⟩ := yieldList?_eq_some hread
    exact ⟨blanks, rest, rfl, hxs⟩
  | other c t hread ih =>
    rw [lists, readAll_other hread] at h
    obtain ⟨before, rest, rfl, hxs⟩ := ih h
    exact ⟨c :: before, rest, rfl, hxs⟩

theorem lists_ne_nil (before x after : Text) :
    lists (before ++ (setting yieldList x ++ after)) ≠ [] := by
  generalize ht : before ++ (setting yieldList x ++ after) = t
  induction t using Text.substitute_induction consumes_yieldList? generalizing before with
  | nil =>
    rw [setting_yieldList] at ht
    simp at ht
  | found t y rest hread ih =>
    rw [lists, Text.readAll_of_consumes consumes_yieldList? hread]
    exact List.cons_ne_nil _ _
  | other c t hread ih =>
    cases before with
    | nil => exact absurd (ht ▸ hread) (yieldList?_setting x after)
    | cons d before =>
      rw [lists, readAll_other hread]
      exact ih before (List.cons.inj ht).2

/-- A text that has two quotes goes on after the second. -/
theorem suffix_of_two_quotes {u v s : Text} (h : u ++ s = v ++ t) (hv : v.count '\x22' = 1)
    (hu : 2 ≤ u.count '\x22') : ∃ more, u = v ++ more ∧ '\x22' ∈ more := by
  rcases List.append_eq_append_iff.1 h with ⟨more, rfl, -⟩ | ⟨more, rfl, -⟩
  · rw [count_append] at hv
    omega
  · refine ⟨more, rfl, ?_⟩
    rw [count_append] at hu
    exact List.count_pos_iff.1 (by omega)

theorem count_listHead : listHead.count '\x22' = 1 := by decide

/-- The first list that is read ends where a list that stands on the line ends, or before. -/
theorem suffix_of_yieldList? {before after y : Text}
    (h : yieldList? (before ++ (setting yieldList x ++ after)) = some (y, rest)) :
    after <:+ rest := by
  obtain ⟨blanks, hblanks, hy, heq⟩ := yieldList?_eq_some h
  have hnone : blanks.count '\x22' = 0 := by
    rw [count_eq_zero]
    intro hmem
    cases hblanks _ hmem
  have hsplit : (before ++ setting yieldList x) ++ after =
      (blanks ++ listHead ++ y) ++ ('\x22' :: rest) := by
    rw [append_assoc, heq, setting_yieldList]
    simp
  -- the quotes before the closing one of the list that is read: just the opening one
  have hone : (blanks ++ listHead ++ y).count '\x22' = 1 := by
    rw [count_append, count_append, hnone, count_listHead, count_eq_zero.2 hy]
  have htwo : 2 ≤ (before ++ setting yieldList x).count '\x22' := by
    rw [setting_yieldList, count_append, count_append, count_append, count_listHead]
    simp
    omega
  obtain ⟨more, hmore, hquote⟩ := suffix_of_two_quotes hsplit hone htwo
  rw [hmore, append_assoc, List.append_cancel_left_eq] at hsplit
  obtain ⟨c, more, rfl⟩ := List.exists_cons_of_ne_nil (List.ne_nil_of_mem hquote)
  exact ⟨more, (List.cons.inj hsplit).2⟩

/-- The lines on which two lists are read. -/
theorem hasTwoLists_iff : HasTwoLists line ↔ 2 ≤ (lists line).length := by
  constructor
  · rintro ⟨before, x, between, y, after, h⟩
    induction line using Text.substitute_induction consumes_yieldList? generalizing before with
    | nil =>
      rw [setting_yieldList x] at h
      simp at h
    | found t z rest hread ih =>
      subst h
      obtain ⟨more, hmore⟩ := suffix_of_yieldList? hread
      have hrest : lists rest ≠ [] := by
        rw [← hmore, ← append_assoc]
        exact lists_ne_nil _ y after
      have hpos := List.length_pos_iff.2 hrest
      rw [lists, Text.readAll_of_consumes consumes_yieldList? hread, length_cons]
      exact Nat.succ_le_succ hpos
    | other c t hread ih =>
      cases before with
      | nil => exact absurd (h ▸ hread) (yieldList?_setting x _)
      | cons d before =>
        rw [lists, readAll_other hread]
        exact ih before (List.cons.inj h).2
  · intro h
    obtain ⟨x, y, more, hlists⟩ : ∃ x y more, lists line = x :: y :: more := by
      match hlists : lists line with
      | [] => simp [hlists] at h
      | [x] => simp [hlists] at h
      | x :: y :: more => exact ⟨x, y, more, rfl⟩
    obtain ⟨before, rest, rfl, hrest⟩ := exists_of_lists_cons hlists
    obtain ⟨between, after, rfl, -⟩ := exists_of_lists_cons hrest
    exact ⟨before, x, between, y, after, rfl⟩

theorem mergeLine_of_not_hasTwoLists (h : ¬ HasTwoLists line) : mergeLine line = line := by
  rw [hasTwoLists_iff, Nat.not_le] at h
  exact if_pos h

/-! ## Merging lists -/

/-- Reads a list, and leaves nothing in its place. -/
def droppedList? (t : Text) : Option (Text × Text) :=
  ((yieldList? t).map Prod.snd).map fun rest => ([], rest)

/-- A line without its lists. -/
def withoutLists (line : Text) : Text := Text.substitute (fun _ => droppedList?) line

theorem consumes_droppedList? : Text.Consumes droppedList? := by
  intro t new rest hread
  simp only [droppedList?, Option.map_map, Option.map_eq_some_iff] at hread
  obtain ⟨⟨x, rest'⟩, hlist, hfound⟩ := hread
  obtain ⟨-, rfl⟩ := Prod.mk.inj hfound
  exact consumes_yieldList? _ _ _ hlist

section Weight

variable {w : Char → Nat} (hw : ∀ c, isBlank c = true → w c = 0)

theorem weight_setting (x : Text) :
    weight w (setting yieldList x) =
      weight w (setting yieldList []) + weight w x := by
  rw [setting_yieldList, setting_yieldList]
  simp only [weight_append, Text.weight_nil]
  omega

include hw

theorem weight_withoutLists (line : Text) :
    weight w line = weight w (withoutLists line) +
      weight (fun x => weight w (setting yieldList x)) (lists line) := by
  induction line using Text.substitute_induction consumes_yieldList? with
  | nil => rfl
  | found t x rest hread ih =>
    have hwithout : withoutLists t = [] ++ withoutLists rest :=
      Text.substitute_found consumes_droppedList? (by rw [droppedList?, hread]; rfl)
    obtain ⟨blanks, hblanks, -, rfl⟩ := yieldList?_eq_some hread
    rw [hwithout, List.nil_append, lists, Text.readAll_of_consumes consumes_yieldList? hread,
      weight_cons, weight_append, weight_append, Text.weight_blanks hw hblanks, ih, lists]
    omega
  | other c t hread ih =>
    have hwithout : withoutLists (c :: t) = c :: withoutLists t :=
      Text.substitute_other (by rw [droppedList?, hread]; rfl)
    rw [hwithout, lists, readAll_other hread, weight_cons, weight_cons, ih, lists]
    omega

omit hw

theorem weight_insertAttribute (new line : Text) :
    weight w (insertAttribute new line) = weight w new + weight w line := by
  unfold insertAttribute
  split
  case h_1 tag rest hcut =>
    have hbracket : cut? ['>'] line = some (tag, rest) := hcut
    obtain ⟨-, rfl⟩ := Text.cut?_singleton_eq_some.1 hbracket
    split
    case isTrue hend =>
      obtain ⟨front, rfl⟩ := List.isSuffixOf_iff_suffix.1 hend
      simp
      omega
    case isFalse =>
      simp
      omega
  case h_2 =>
    rw [weight_append]
    omega

theorem weight_map_setting (xs : List Text) :
    weight (fun x => weight w (setting yieldList x)) xs =
      xs.length * weight w (setting yieldList []) + weight (weight w) xs := by
  induction xs with
  | nil => simp
  | cons x xs ih =>
    rw [weight_cons, ih, weight_setting x, weight_cons, length_cons, Nat.succ_mul]
    omega

include hw

/-- What merging changes: of each list but one the attribute's name and its quotes are lost, and a
comma stands for them. -/
theorem weight_mergeLine (h : HasTwoLists line) :
    weight w (mergeLine line) +
        ((lists line).length - 1) * weight w (setting yieldList []) =
      weight w line + ((lists line).length - 1) * w ',' := by
  rw [hasTwoLists_iff] at h
  have hmerge : mergeLine line =
      insertAttribute (" " ++ setting yieldList (Text.join "," (lists line))) (withoutLists line) :=
    if_neg (Nat.not_lt.2 h)
  have hspace : weight w " " = 0 := Text.weight_blanks hw (by simp; decide)
  rw [hmerge, weight_insertAttribute, weight_append, hspace, weight_setting,
    weight_withoutLists hw line, weight_map_setting]
  cases hlists : lists line with
  | nil => simp [hlists] at h
  | cons x xs =>
    have hcomma : weight w "," = w ',' := Nat.add_zero _
    rw [Text.weight_join_cons, hcomma, length_cons, Nat.add_sub_cancel, Nat.succ_mul]
    omega

/-- Merging makes a line lighter whose lists have names that weigh more than a comma. -/
theorem weight_mergeLine_lt (hcomma : w ',' < weight w (setting yieldList []))
    (h : HasTwoLists line) : weight w (mergeLine line) < weight w line := by
  have hweight := weight_mergeLine hw h
  rw [hasTwoLists_iff] at h
  obtain ⟨count, hcount⟩ : ∃ count, (lists line).length - 1 = count + 1 :=
    ⟨(lists line).length - 2, by omega⟩
  have hless : (count + 1) * w ',' < (count + 1) * weight w (setting yieldList []) :=
    Nat.mul_lt_mul_of_pos_left hcomma count.succ_pos
  rw [hcount] at hweight
  omega

theorem weight_mergeLine_le (hcomma : w ',' < weight w (setting yieldList [])) (line : Text) :
    weight w (mergeLine line) ≤ weight w line := by
  by_cases h : HasTwoLists line
  · exact Nat.le_of_lt (weight_mergeLine_lt hw hcomma h)
  · rw [mergeLine_of_not_hasTwoLists h]

end Weight

/-! ## All lines -/

/-- A text with the lists of each line merged. -/
def mergeLines (t : Text) : Text := Text.join "\n" ((splitOn '\n' t).map mergeLine)

theorem substituteYields_eq_mergeLines (h : '@' ∉ t) : substituteYields t = mergeLines t := by
  rw [substituteYields, Occurrence.substitute_eq_self _ h, mergeLines]

theorem mergeLines_eq_self (h : ∀ line ∈ splitOn '\n' t, ¬ HasTwoLists line) :
    mergeLines t = t := by
  have hlines : (splitOn '\n' t).map mergeLine = splitOn '\n' t := by
    refine (List.map_congr_left fun line hline => ?_).trans (List.map_id _)
    exact mergeLine_of_not_hasTwoLists (h line hline)
  rw [mergeLines, hlines]
  exact Text.join_splitOn '\n' t

/-- Merging makes a text lighter, unless no line has two lists. -/
theorem weight_mergeLines_cases {w : Char → Nat} (hw : ∀ c, isBlank c = true → w c = 0)
    (hcomma : w ',' < weight w (setting yieldList [])) (t : Text) :
    (∀ line ∈ splitOn '\n' t, ¬ HasTwoLists line) ∨
      weight w (mergeLines t) < weight w t := by
  by_cases h : ∃ line ∈ splitOn '\n' t, HasTwoLists line
  · right
    obtain ⟨line, hline, htwo⟩ := h
    rw [mergeLines, Text.weight_joinLines hw, ← Text.weight_splitOn hw t]
    exact Text.weight_map_lt (fun line _ => weight_mergeLine_le hw hcomma line) hline
      (weight_mergeLine_lt hw hcomma htwo)
  · left
    intro line hline htwo
    exact h ⟨line, hline, htwo⟩

theorem weight_mergeLines_le {w : Char → Nat} (hw : ∀ c, isBlank c = true → w c = 0)
    (hcomma : w ',' < weight w (setting yieldList [])) (t : Text) :
    weight w (mergeLines t) ≤ weight w t := by
  rcases weight_mergeLines_cases hw hcomma t with hnone | hlt
  · rw [mergeLines_eq_self hnone]
  · exact Nat.le_of_lt hlt

/-- No character comes in with merging, but those of a list. -/
theorem notMem_mergeLines {c : Char} (hblank : isBlank c = false)
    (hlist : c ∉ setting yieldList []) (hcomma : c ≠ ',') (h : c ∉ t) :
    c ∉ mergeLines t := by
  have hw : ∀ d, isBlank d = true → (if d = c then 1 else 0) = 0 := by
    intro d hd
    refine if_neg ?_
    rintro rfl
    rw [hblank] at hd
    cases hd
  have hline : ∀ line ∈ splitOn '\n' t, c ∉ mergeLine line := by
    intro line hline
    have hnot : c ∉ line := fun hmem => h (Text.mem_of_mem_splitOn hline hmem)
    by_cases htwo : HasTwoLists line
    · have hweight := weight_mergeLine hw htwo
      rw [Text.weight_indicator, Text.weight_indicator, Text.weight_indicator,
        count_eq_zero.2 hlist, count_eq_zero.2 hnot, if_neg (Ne.symm hcomma)] at hweight
      exact count_eq_zero.1 (by simpa using hweight)
    · rwa [mergeLine_of_not_hasTwoLists htwo]
  refine Text.join_induction (P := fun t => c ∉ t) (by simp) ?_ ?_ ?_
  · intro s t hs ht
    rw [List.mem_append, not_or]
    exact ⟨hs, ht⟩
  · have hbreak : c ≠ '\n' := by
      rintro rfl
      cases hblank
    simpa using hbreak
  · intro line hmem
    obtain ⟨line', hline', rfl⟩ := List.mem_map.1 hmem
    exact hline line' hline'

end Attribute

/-! ## Text without directives -/

namespace Markup

/-- Text without at signs and braces is compiled by merging lists. -/
theorem compile_eq_mergeLines (bindings : Bindings) (hsign : '@' ∉ t) (hbrace : '\x7b' ∉ t) :
    compile bindings t = Attribute.mergeLines t := by
  have hsign' : '@' ∉ Attribute.mergeLines t :=
    Attribute.notMem_mergeLines (by decide) (by decide) (by decide) hsign
  have hbrace' : '\x7b' ∉ Attribute.mergeLines t :=
    Attribute.notMem_mergeLines (by decide) (by decide) (by decide) hbrace
  simp only [compile, Handler.substitute, Attribute.substituteBindings,
    Attribute.substituteSubscriptions, Inline.substituteBlocks, Inline.substituteIncludes,
    Inline.substituteFields, Occurrence.substitute_eq_self _ hsign,
    Attribute.substituteYields_eq_mergeLines hsign, Occurrence.substitute_eq_self _ hsign',
    Echo.substitute_eq_self bindings hbrace']

/-- A run of text without at signs, braces and quotes is compiled to itself. -/
theorem compile_eq_self (bindings : Bindings) (hsign : '@' ∉ t) (hbrace : '\x7b' ∉ t)
    (hquote : '\x22' ∉ t) : compile bindings t = t := by
  rw [compile_eq_mergeLines bindings hsign hbrace]
  refine Attribute.mergeLines_eq_self fun line hline => ?_
  rintro ⟨before, x, between, y, after, rfl⟩
  exact hquote (Text.mem_of_mem_splitOn hline (by simp [Attribute.setting]))

end Markup
end BladeView
