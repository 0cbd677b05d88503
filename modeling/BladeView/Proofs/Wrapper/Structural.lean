import BladeView.Wrapper.Split
import BladeView.Proofs.Reference.Mention
import BladeView.Proofs.Source.Verbatim

/-!
# Fragments kept around a wrapper

The pass over the text outside of a wrapper cuts it into closed fragments and characters at which no
closed fragment begins. Of the fragments those are kept that do something, each one whole; nothing
else is. What is kept is cut into the same fragments again.

## Main statements

* `WrapperSplit.structural_whole_fragments`: what is kept, and that it stays.
-/
namespace BladeView.WrapperSplit

/-! ## The parts of a text -/

/-- Code that does something: after blanks it begins with one of the calls. -/
def IsStructural (code : Text) : Prop := ∃ start ∈ structuralStarts, start <+: Text.trimStart code

instance (code : Text) : Decidable (IsStructural code) :=
  inferInstanceAs (Decidable (∃ start ∈ structuralStarts, start <+: Text.trimStart code))

/-- A part of a text. -/
inductive Part where
  /-- A character at which no closed fragment begins. -/
  | sign (c : Char)
  /-- A fragment with the code in its braces. -/
  | fragment (code : Text)

namespace Part

/-- What stands in the text. -/
def text : Part → Text
  | sign c => [c]
  | fragment code => "$\x7b" ++ code ++ "\x7d"

/-- What is kept of a part. -/
def kept? : Part → Option Text
  | sign _ => none
  | fragment code => if IsStructural code then some (fragment code).text else none

theorem text_fragment_append (code rest : Text) :
    (fragment code).text ++ rest = '$' :: '\x7b' :: (code ++ '\x7d' :: rest) := by
  simp [text]

end Part

/-- The parts into which the pass cuts their text: each fragment is closed by the brace that ends
it, and no closed fragment begins at the other characters. -/
inductive Cuts : List Part → Prop
  | nil : Cuts []
  | sign {c : Char} {parts : List Part}
      (h : Reference.interpolation? (c :: parts.flatMap Part.text) = none) :
      Cuts parts → Cuts (.sign c :: parts)
  | fragment {code : Text} {parts : List Part}
      (h : Group.read? ('\x7b' :: (code ++ '\x7d' :: parts.flatMap Part.text)) =
        some (code, parts.flatMap Part.text)) :
      Cuts parts → Cuts (.fragment code :: parts)

theorem exists_cuts (t : Text) : ∃ parts, Cuts parts ∧ parts.flatMap Part.text = t := by
  have hconsumes : Text.Consumes Reference.interpolation? := by
    intro t code rest hread
    obtain ⟨cs, rfl, hgroup⟩ := Reference.interpolation?_eq_some.1 hread
    refine ⟨(Part.fragment code).text, by simp [Part.text], ?_⟩
    rw [Part.text_fragment_append, Group.inside?_eq_some hgroup]
  induction t using Text.substitute_induction hconsumes with
  | nil => exact ⟨[], .nil, rfl⟩
  | found t code rest hread ih =>
    obtain ⟨parts, hcuts, rfl⟩ := ih
    obtain ⟨cs, rfl, hgroup⟩ := Reference.interpolation?_eq_some.1 hread
    obtain rfl : cs = code ++ '\x7d' :: parts.flatMap Part.text := Group.inside?_eq_some hgroup
    refine ⟨.fragment code :: parts, .fragment hgroup hcuts, ?_⟩
    rw [List.flatMap_cons, Part.text_fragment_append]
  | other c t hread ih =>
    obtain ⟨parts, hcuts, rfl⟩ := ih
    exact ⟨.sign c :: parts, .sign hread hcuts, rfl⟩

/-! ## What is kept -/

theorem fragment?_eq (t : Text) : fragment? t =
    (Reference.interpolation? t).map fun found => ((Part.fragment found.1).kept?, found.2) := by
  have htest : ∀ code, (structuralStarts.any fun start =>
      Text.startsWith start (Text.trimStart code)) = decide (IsStructural code) := by
    intro code
    rw [Bool.eq_iff_iff, List.any_eq_true, decide_eq_true_iff]
    simp only [Text.startsWith, List.isPrefixOf_iff_prefix, IsStructural]
  rw [fragment?]
  cases Reference.interpolation? t with
  | none => rfl
  | some found =>
    simp only [Option.bind_eq_bind, Option.bind_some, Option.map_some, htest, decide_eq_true_eq,
      Part.kept?, Part.text]
    split <;> rfl

theorem readAll_fragment {code rest : Text}
    (h : Group.read? ('\x7b' :: (code ++ '\x7d' :: rest)) = some (code, rest)) :
    Text.readAll (fun _ => fragment?) ((Part.fragment code).text ++ rest) =
      (Part.fragment code).kept? :: Text.readAll (fun _ => fragment?) rest := by
  have hread : fragment? ('$' :: '\x7b' :: (code ++ '\x7d' :: rest)) =
      some ((Part.fragment code).kept?, rest) := by
    rw [fragment?_eq, Reference.interpolation?_eq_some.2 ⟨_, rfl, h⟩]
    rfl
  have hsplit : (Part.fragment code).text ++ rest =
      '$' :: ('\x7b' :: (code ++ ['\x7d']) ++ rest) := by
    simp [Part.text_fragment_append]
  rw [hsplit]
  refine Text.readAll_found ?_
  rw [← hread]
  simp

theorem Cuts.structural_eq {parts : List Part} (h : Cuts parts) :
    structural (parts.flatMap Part.text) = Text.join "\n" (parts.filterMap Part.kept?) := by
  refine congrArg (Text.join "\n") ?_
  induction h with
  | nil => rfl
  | @sign c parts hread _ ih =>
    have hnone : fragment? (c :: parts.flatMap Part.text) = none := by rw [fragment?_eq, hread]; rfl
    exact (congrArg (List.filterMap id) (Text.readAll_other hnone)).trans ih
  | @fragment code parts hread _ ih =>
    rw [List.flatMap_cons, readAll_fragment hread, List.filterMap_cons, List.filterMap_cons, ih]
    rfl

/-- A fragment that is kept, closed whatever comes after it. -/
def IsWhole (piece : Text) : Prop :=
  ∃ code, piece = (Part.fragment code).text ∧ IsStructural code ∧
    ∀ rest, Group.read? ('\x7b' :: (code ++ '\x7d' :: rest)) = some (code, rest)

theorem Cuts.isWhole {parts : List Part} (h : Cuts parts) :
    ∀ piece ∈ parts.filterMap Part.kept?, IsWhole piece := by
  intro piece hpiece
  obtain ⟨part, hpart, hkept⟩ := List.mem_filterMap.1 hpiece
  induction h with
  | nil => cases hpart
  | sign _ _ ih =>
    rcases List.mem_cons.1 hpart with rfl | hpart
    · cases hkept
    · exact ih (List.mem_filterMap.2 ⟨part, hpart, hkept⟩) hpart
  | @fragment code parts hread _ ih =>
    rcases List.mem_cons.1 hpart with rfl | hpart
    · rw [Part.kept?] at hkept
      obtain ⟨hstructural, hkept⟩ := Option.ite_none_right_eq_some.1 hkept
      exact ⟨code, (Option.some.inj hkept).symm, hstructural, Group.inside?_rest hread⟩
    · exact ih (List.mem_filterMap.2 ⟨part, hpart, hkept⟩) hpart

/-- Fragments on lines of their own are all kept. -/
theorem structural_join {pieces : List Text} (h : ∀ piece ∈ pieces, IsWhole piece) :
    structural (Text.join "\n" pieces) = Text.join "\n" pieces := by
  refine congrArg (Text.join "\n") ?_
  induction pieces with
  | nil => rfl
  | cons piece pieces ih =>
    rw [List.forall_mem_cons] at h
    obtain ⟨⟨code, rfl, hstructural, hread⟩, hpieces⟩ := h
    have hkept : (Part.fragment code).kept? = some (Part.fragment code).text := if_pos hstructural
    cases pieces with
    | nil =>
      have hlast := readAll_fragment (hread [])
      rw [List.append_nil, hkept] at hlast
      rw [Text.join_singleton]
      exact congrArg (List.filterMap id) hlast
    | cons next pieces =>
      have hbreak : fragment? ('\n' :: Text.join "\n" (next :: pieces)) = none := by
        rw [fragment?_eq]
        rfl
      rw [Text.join_line_cons, readAll_fragment (hread _), hkept, Text.readAll_other hbreak]
      exact congrArg (_ :: ·) (ih hpieces)

/-- **Whole fragments are kept, and nothing else; filtering again changes nothing.** The text is a
row of closed fragments and of characters at which none begins. Of the fragments just those stay
whose code does something, one to a line, and each is closed by its own brace wherever it stands. -/
theorem structural_whole_fragments (t : Text) :
    (∃ parts, Cuts parts ∧ parts.flatMap Part.text = t ∧
      structural t = Text.join "\n" (parts.filterMap Part.kept?) ∧
      ∀ piece ∈ parts.filterMap Part.kept?, IsWhole piece) ∧
    structural (structural t) = structural t := by
  obtain ⟨parts, hcuts, rfl⟩ := exists_cuts t
  refine ⟨⟨parts, hcuts, rfl, hcuts.structural_eq, hcuts.isWhole⟩, ?_⟩
  rw [hcuts.structural_eq, structural_join hcuts.isWhole]

end BladeView.WrapperSplit
