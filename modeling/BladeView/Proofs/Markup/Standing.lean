import BladeView.Markup.Occurrence
import BladeView.Proofs.Group.Offsets
import BladeView.Proofs.Text.Word

/-!
# Where directives stand in a text

A directive stands at a place if a name follows an at sign there, and neither another at sign nor a
character of a name stands before it. Behind the name there is a closed argument list, after spaces
and tabs, or nothing that opens one. A name whose list is opened and never closed is no directive.

This says what reading a directive finds, without the reader: the list is a group of the grammar,
and the name is as long as it can be.
-/
namespace BladeView

open Text (byteSize byteSize_cons word)

variable {args rest t blanks name : Text} {before : Option Char}

theorem Body.startsDirective_iff :
    Body.startsDirective before = true ↔ before ≠ some '@' ∧ before.any isNameChar = false := by
  cases before <;> simp [Body.startsDirective]

/-! ## Argument lists -/

namespace Group

/-- Parentheses around these arguments belong together. -/
def IsList (args : Text) : Prop := Bytes.IsGroup (Text.toBytes ('(' :: (args ++ [')'])))

/-- A group that fills some bytes stands at their start and ends with the last of them. -/
theorem Bytes.isGroup_iff_isGroupAt {bs : List UInt8} (hne : bs ≠ []) :
    IsGroup bs ↔ IsGroupAt bs 0 (bs.length - 1) := by
  have hlength : 0 < bs.length := List.length_pos_iff.mpr hne
  have htake : bs.take (bs.length - 1 + 1) = bs := by
    rw [Nat.sub_add_cancel hlength, List.take_length]
  rw [IsGroupAt, htake, List.drop_zero]
  exact (and_iff_right (by omega)).symm

/-- An argument list is closed if reading it from its parenthesis gives all of it. -/
theorem isList_iff_read? : IsList args ↔ read? ('(' :: (args ++ [')'])) = some (args, []) := by
  have hbytes : Text.toBytes ('(' :: (args ++ [')'])) ≠ [] := by
    rw [← List.length_pos_iff, Text.length_toBytes, byteSize_cons]
    exact Nat.add_pos_left (by decide) _
  have hsize : byteSize ('(' :: (args ++ [')'])) - 1 = 1 + byteSize args := by
    rw [byteSize_cons, Text.byteSize_append]
    have hopening : '('.utf8Size = 1 := by decide
    have hclosing : byteSize [')'] = 1 := by decide
    omega
  have hat : at? ('(' :: (args ++ [')'])) 0 = _ := at?_eq rfl
  rw [IsList, Bytes.isGroup_iff_isGroupAt hbytes, ← Bytes.closed?_scan_eq_some_iff, closed?_scan,
    Text.length_toBytes, hsize, hat]
  simp only [closer?, Option.bind_some, Option.map_map, read?]
  constructor
  · intro h
    obtain ⟨⟨inner, rest⟩, hinside, hclosing⟩ := Option.map_eq_some_iff.mp h
    -- The group ends with the last byte, so nothing can follow it.
    have hsplit := inside?_eq_some hinside
    have hsizes := congrArg byteSize hsplit
    simp only [Function.comp_apply, Text.byteSize_append, byteSize_cons] at hclosing hsizes
    have hrest : byteSize rest = 0 := by
      have hnil : byteSize [] = 0 := rfl
      omega
    obtain rfl : rest = [] := by
      cases rest with
      | nil => rfl
      | cons c rest =>
        have hpos := c.utf8Size_pos
        rw [byteSize_cons] at hrest
        omega
    rw [hinside, List.append_cancel_right hsplit]
  · intro h
    rw [h]
    simp

theorem read?_of_isList (h : IsList args) (rest : Text) :
    read? ('(' :: (args ++ ')' :: rest)) = some (args, rest) := by
  simpa using read?_append_right (isList_iff_read?.mp h) rest

theorem isList_of_read? (h : read? ('(' :: (args ++ ')' :: rest)) = some (args, rest)) :
    IsList args := by
  rw [isList_iff_read?]
  exact inside?_rest h []

end Group

namespace Occurrence

/-! ## Directives -/

/-- A parenthesis comes next, after spaces and tabs. -/
def OpensList (t : Text) : Prop :=
  ∃ blanks rest, t = blanks ++ '(' :: rest ∧ ∀ c ∈ blanks, isSpaceOrTab c = true

/-- A directive stands at the front of a text, after the character `before`: `span` is the text of
the directive, and `rest` follows it. -/
structure Stands (before : Option Char) (d : Occurrence) (span rest : Text) : Prop where
  before_ne_sign : before ≠ some '@'
  before_not_name : before.any isNameChar = false
  name_ne_nil : d.name ≠ []
  name_isPlain : ∀ c ∈ d.name, isPlainChar c = true
  form :
    (d.args = none ∧ span = '@' :: d.name ∧ rest.head?.any isPlainChar = false ∧ ¬ OpensList rest) ∨
    ∃ blanks args, d.args = some args ∧ (∀ c ∈ blanks, isSpaceOrTab c = true) ∧ Group.IsList args ∧
      span = '@' :: (d.name ++ (blanks ++ '(' :: (args ++ [')'])))

/-- A name with an argument list that is never closed stands at the front of a text. -/
structure Unclosed (name t : Text) : Prop where
  name_ne_nil : name ≠ []
  name_isPlain : ∀ c ∈ name, isPlainChar c = true
  text_eq : ∃ blanks rest, t = '@' :: (name ++ (blanks ++ '(' :: rest)) ∧
    (∀ c ∈ blanks, isSpaceOrTab c = true) ∧
    ∀ args more, rest = args ++ ')' :: more → ¬ Group.IsList args

theorem isPlainChar_eq_false_of_isSpaceOrTab {c : Char} (h : isSpaceOrTab c = true) :
    isPlainChar c = false := by
  simp only [isSpaceOrTab, Bool.or_eq_true, beq_iff_eq] at h
  rcases h with rfl | rfl <;> decide

theorem isBlank_of_isSpaceOrTab {c : Char} (h : isSpaceOrTab c = true) : isBlank c = true := by
  simp only [isSpaceOrTab, Bool.or_eq_true, beq_iff_eq] at h
  rcases h with rfl | rfl <;> decide

theorem opensArgs_iff : Group.opensArgs t = true ↔ OpensList t := by
  rw [Group.opensArgs, Text.startsWith, List.isPrefixOf_iff_prefix]
  constructor
  · rintro ⟨rest, hrest⟩
    refine ⟨t.takeWhile isSpaceOrTab, rest, ?_, List.all_eq_true.mp List.all_takeWhile⟩
    have hsplit := List.takeWhile_append_dropWhile (p := isSpaceOrTab) (l := t)
    rw [← hrest] at hsplit
    exact hsplit.symm
  · rintro ⟨blanks, rest, rfl, hblanks⟩
    refine ⟨rest, ?_⟩
    rw [List.dropWhile_append_of_pos hblanks]
    rfl

/-- The name of a directive ends before the blanks and the parenthesis of its list. -/
theorem head?_list (h : ∀ c ∈ blanks, isSpaceOrTab c = true) (rest : Text) :
    (blanks ++ '(' :: rest).head?.any isPlainChar = false := by
  cases blanks with
  | nil => rfl
  | cons c blanks => exact isPlainChar_eq_false_of_isSpaceOrTab (h c List.mem_cons_self)

theorem args?_list (h : ∀ c ∈ blanks, isSpaceOrTab c = true) (rest : Text) :
    Group.args? (blanks ++ '(' :: rest) = Group.read? ('(' :: rest) := by
  rw [Group.args?_blanks fun c hc => isBlank_of_isSpaceOrTab (h c hc), List.all_eq_true.mpr h]
  rfl

/-! ## Reading -/

/-- What is read from an at sign on, by the name and what follows it. -/
theorem read?_name (before : Option Char) (hne : name ≠ [])
    (hname : ∀ c ∈ name, isPlainChar c = true) (hrest : rest.head?.any isPlainChar = false) :
    read? before ('@' :: (name ++ rest)) =
      if Body.startsDirective before then
        match Group.args? rest with
        | some (args, after) => some (⟨name, some args⟩, after)
        | none => if Group.opensArgs rest then none else some (⟨name, none⟩, rest)
      else none := by
  have hword : word (name ++ rest) = name := by
    have hnone : rest.takeWhile isPlainChar = [] := by
      cases rest with
      | nil => rfl
      | cons c rest =>
        have hc : isPlainChar c = false := hrest
        simp [hc]
    rw [word, List.takeWhile_append_of_pos hname, hnone, List.append_nil]
  have hempty : name.isEmpty = false := List.isEmpty_eq_false_iff.mpr hne
  simp only [read?, hword, hempty, Bool.false_or, List.drop_left]
  cases Body.startsDirective before <;> rfl

/-- What is read starts with an at sign and a name. -/
theorem exists_name_of_read? {found : Occurrence × Text} (h : read? before t = some found) :
    ∃ name rest, t = '@' :: (name ++ rest) ∧ name ≠ [] ∧ (∀ c ∈ name, isPlainChar c = true) ∧
      rest.head?.any isPlainChar = false := by
  rw [read?.eq_def] at h
  split at h
  case h_1 cs =>
    refine ⟨word cs, cs.dropWhile isPlainChar, ?_, ?_, List.all_eq_true.mp List.all_takeWhile,
      Text.head?_dropWhile isPlainChar cs⟩
    · rw [word, List.takeWhile_append_dropWhile]
    · intro hnil
      simp [hnil] at h
  case h_2 => cases h

/-- **What is read is what stands there.** -/
theorem read?_eq_some_iff {d : Occurrence} :
    read? before t = some (d, rest) ↔ ∃ span, t = span ++ rest ∧ Stands before d span rest := by
  constructor
  · intro h
    obtain ⟨name, after, rfl, hne, hname, hafter⟩ := exists_name_of_read? h
    rw [read?_name before hne hname hafter] at h
    obtain ⟨hstarts, h⟩ := Option.ite_none_right_eq_some.1 h
    obtain ⟨hsign, hchar⟩ := Body.startsDirective_iff.mp hstarts
    split at h
    case h_1 args more hargs =>
      cases h
      obtain ⟨blanks, hblanks, rfl⟩ := Group.args?_eq_some hargs
      rw [args?_list hblanks] at hargs
      exact ⟨'@' :: (name ++ (blanks ++ '(' :: (args ++ [')']))), by simp, hsign, hchar, hne,
        hname, .inr ⟨blanks, args, rfl, hblanks, Group.isList_of_read? hargs, rfl⟩⟩
    case h_2 =>
      obtain ⟨hopens, h⟩ := Option.ite_none_left_eq_some.1 h
      cases h
      exact ⟨'@' :: name, rfl, hsign, hchar, hne, hname,
        .inl ⟨rfl, rfl, hafter, fun hlist => hopens (opensArgs_iff.mpr hlist)⟩⟩
  · rintro ⟨span, rfl, hsign, hchar, hne, hname, hform⟩
    have hstarts := Body.startsDirective_iff.mpr ⟨hsign, hchar⟩
    obtain ⟨name, args⟩ := d
    rcases hform with ⟨hargs, rfl, hrest, hopens⟩ | ⟨blanks, list, hargs, hblanks, hlist, rfl⟩
    · have hclosed : Group.opensArgs rest = false :=
        Bool.eq_false_iff.mpr fun h => hopens (opensArgs_iff.mp h)
      rw [List.cons_append, read?_name before hne hname hrest, if_pos hstarts,
        Group.args?_eq_none hclosed, hclosed]
      dsimp only at hargs ⊢
      rw [if_neg Bool.false_ne_true, hargs]
    · have heq : '@' :: (name ++ (blanks ++ '(' :: (list ++ [')']))) ++ rest =
          '@' :: (name ++ (blanks ++ '(' :: (list ++ ')' :: rest))) := by simp
      dsimp only at hargs ⊢
      rw [heq, read?_name before hne hname (head?_list hblanks _), if_pos hstarts,
        args?_list hblanks, Group.read?_of_isList hlist, hargs]

/-- Nothing is read where a list is not closed. -/
theorem Unclosed.read?_eq_none (h : Unclosed name t) (before : Option Char) :
    read? before t = none := by
  obtain ⟨blanks, rest, rfl, hblanks, hopen⟩ := h.text_eq
  have hread : Group.read? ('(' :: rest) = none := by
    rw [Option.eq_none_iff_forall_ne_some]
    rintro ⟨args, more⟩ hread
    obtain rfl : rest = args ++ ')' :: more := Group.inside?_eq_some hread
    exact hopen args more rfl (Group.isList_of_read? hread)
  have hopens : Group.opensArgs (blanks ++ '(' :: rest) = true :=
    opensArgs_iff.mpr ⟨blanks, rest, rfl, hblanks⟩
  rw [read?_name before h.name_ne_nil h.name_isPlain (head?_list hblanks rest), args?_list hblanks,
    hread, hopens]
  simp

end Occurrence
end BladeView
