import BladeView.Reference
import BladeView.Proofs.Group.Reading

/-!
# Where a name is noticed

The search for names works on text alone. This module says what it finds, as a place where the name
stands: in a piece of code, or between the braces of an interpolation as the reader of groups reads
them.
-/
namespace BladeView

namespace Text

/-- A test holds somewhere if it holds at some cut of the text. -/
theorem holdsSomewhere_iff {test : Option Char → Text → Bool} {before : Option Char} {t : Text} :
    holdsSomewhere test before t = true ↔
      ∃ u v, t = u ++ v ∧ test (u.getLast?.or before) v = true := by
  induction t generalizing before with
  | nil =>
    constructor
    · exact fun htest => ⟨[], [], rfl, htest⟩
    · rintro ⟨u, v, heq, htest⟩
      obtain ⟨rfl, rfl⟩ := List.append_eq_nil_iff.mp heq.symm
      exact htest
  | cons c cs ih =>
    rw [holdsSomewhere, Bool.or_eq_true, ih]
    constructor
    · rintro (htest | ⟨u, v, rfl, htest⟩)
      · exact ⟨[], c :: cs, rfl, htest⟩
      · exact ⟨c :: u, v, rfl, by rwa [getLast?_cons_or]⟩
    · rintro ⟨u, v, heq, htest⟩
      cases u with
      | nil =>
        obtain rfl : c :: cs = v := heq
        exact .inl htest
      | cons d u =>
        obtain ⟨rfl, rfl⟩ := List.cons.inj heq
        exact .inr ⟨u, v, rfl, by rwa [getLast?_cons_or] at htest⟩

end Text

namespace Reference

/-- No character that belongs to names stands next to what is between two texts. -/
structure IsWhole (before after : Text) : Prop where
  before : ∀ c, before.getLast? = some c → isNameChar c = false
  after : ∀ c, after.head? = some c → isNameChar c = false

/-- A name does not reach over a character that is not in it: it stands before or after. -/
theorem before_or_after {before name after left right : Text} {c : Char} (hc : c ∉ name)
    (hne : name ≠ []) (h : before ++ name ++ after = left ++ c :: right) :
    (∃ more, left = before ++ name ++ more ∧ after = more ++ c :: right) ∨
      ∃ more, before = left ++ c :: more ∧ right = more ++ name ++ after := by
  rw [List.append_assoc] at h
  rcases List.append_eq_append_iff.mp h with ⟨u, rfl, hu⟩ | ⟨u, rfl, hu⟩
  · rcases List.append_eq_append_iff.mp hu with ⟨more, rfl, rfl⟩ | ⟨more, rfl, hmore⟩
    · exact .inl ⟨more, by simp, rfl⟩
    · cases more with
      | nil => exact .inl ⟨[], by simp, hmore.symm⟩
      | cons d more =>
        obtain ⟨rfl, -⟩ := List.cons.inj hmore
        simp at hc
  · cases u with
    | nil =>
      cases name with
      | nil => exact absurd rfl hne
      | cons d name =>
        obtain ⟨rfl, -⟩ := List.cons.inj hu
        simp at hc
    | cons d u =>
      obtain ⟨rfl, rfl⟩ := List.cons.inj hu
      exact .inr ⟨u, rfl, by simp⟩

section Skip

variable {before name after rest : Text} (hne : name ≠ [])
  (hname : ∀ c ∈ name, isNameChar c = true)

include hne hname

/-- Characters that are not of names hold no name. -/
theorem skip_delimiters {delimiters : Text} (hd : delimiters.any isNameChar = false)
    (h : before ++ name ++ after = delimiters ++ rest) :
    ∃ more, before = delimiters ++ more ∧ more ++ name ++ after = rest := by
  induction delimiters generalizing before with
  | nil => exact ⟨before, rfl, h⟩
  | cons c delimiters ih =>
    rw [List.any_cons, Bool.or_eq_false_iff] at hd
    have hc : c ∉ name := fun hmem => by simp [hname c hmem] at hd
    rcases @before_or_after _ _ _ [] _ _ hc hne h with ⟨more, hnil, -⟩ | ⟨more, rfl, hmore⟩
    · simp [hne] at hnil
    · obtain ⟨more', rfl, hrest⟩ := ih hd.2 hmore.symm
      exact ⟨more', rfl, hrest⟩

/-- A word holds a whole name only if it is that name. -/
theorem skip_word {word : Text} {c : Char} (hwhole : IsWhole before after)
    (hword : word.all isNameChar = true) (hc : isNameChar c = false)
    (h : before ++ name ++ after = word ++ c :: rest) :
    (before = [] ∧ name = word) ∨
      ∃ more, before = word ++ c :: more ∧ more ++ name ++ after = rest ∧ IsWhole more after := by
  have hmem : c ∉ name := fun hmem => by simp [hname c hmem] at hc
  have hword := List.all_eq_true.mp hword
  rcases before_or_after hmem hne h with ⟨more, rfl, rfl⟩ | ⟨more, rfl, rfl⟩
  · left
    have hbefore : before = [] := by
      rw [← List.getLast?_eq_none_iff, Option.eq_none_iff_forall_ne_some]
      intro d hd
      have hmem : d ∈ before := List.mem_of_getLast? hd
      simpa [hword d (by simp [hmem])] using hwhole.before d hd
    have hmore : more = [] := by
      cases more with
      | nil => rfl
      | cons d more => simpa [hword d (by simp)] using hwhole.after d rfl
    simp [hbefore, hmore]
  · refine .inr ⟨more, rfl, rfl, ⟨fun d hd => hwhole.before d ?_, hwhole.after⟩⟩
    simp [List.getLast?_append, List.getLast?_cons, hd]

end Skip

/-- A name stands in a piece of code, and not behind a dot. -/
def Mentioned (name code : Text) : Prop :=
  ∃ before after, code = before ++ name ++ after ∧ IsWhole before after ∧
    before.getLast? ≠ some '.'

theorem standsHere_iff {name t : Text} {before : Option Char} :
    standsHere name before t = true ↔
      (∀ c, before = some c → isNameChar c = false ∧ c ≠ '.') ∧
        ∃ after, t = name ++ after ∧ ∀ c, after.head? = some c → isNameChar c = false := by
  simp only [standsHere, Bool.and_eq_true, Bool.not_eq_true', Option.any_eq_true,
    Option.any_eq_false, Text.after?_eq_some, Bool.or_eq_false_iff, beq_eq_false_iff_ne]

theorem mentions_iff {name code : Text} :
    mentions name code = true ↔ name ≠ [] ∧ Mentioned name code := by
  simp only [mentions, Bool.and_eq_true, Text.holdsSomewhere_iff, Option.or_none, standsHere_iff]
  refine and_congr (by simp) ⟨?_, ?_⟩
  · rintro ⟨before, v, rfl, hbefore, after, rfl, hafter⟩
    refine ⟨before, after, by simp, ⟨fun c hc => (hbefore c hc).1, hafter⟩, ?_⟩
    exact fun hdot => (hbefore _ hdot).2 rfl
  · rintro ⟨before, after, rfl, hwhole, hdot⟩
    refine ⟨before, name ++ after, by simp, fun c hc => ⟨hwhole.before c hc, ?_⟩, after, rfl,
      hwhole.after⟩
    rintro rfl
    exact hdot hc

theorem mentionsAny_iff {names : List Text} {code : Text} :
    mentionsAny names code = true ↔ ∃ name ∈ names, name ≠ [] ∧ Mentioned name code := by
  simp only [mentionsAny, List.any_eq_true, mentions_iff]

/-- The braces of an interpolation, read as a group, lie around what is between two texts. -/
def Covered (before name after : Text) : Prop :=
  ∃ outer u v rest, before = outer ++ '$' :: '\x7b' :: u ∧ after = v ++ '\x7d' :: rest ∧
    Group.read? ('\x7b' :: (u ++ name ++ v ++ '\x7d' :: rest)) = some (u ++ name ++ v, rest)

theorem Covered.append_left {before name after : Text} (h : Covered before name after) (t : Text) :
    Covered (t ++ before) name after := by
  obtain ⟨outer, u, v, rest, rfl, rfl, hread⟩ := h
  exact ⟨t ++ outer, u, v, rest, by simp, rfl, hread⟩

theorem interpolation?_eq_some {t inner rest : Text} :
    interpolation? t = some (inner, rest) ↔
      ∃ cs, t = '$' :: '\x7b' :: cs ∧ Group.read? ('\x7b' :: cs) = some (inner, rest) := by
  unfold interpolation?
  split
  case h_1 cs => simp
  case h_2 hne => simpa using fun cs heq _ => hne cs heq

private theorem getLast?_inside (outer u : Text) :
    (outer ++ '$' :: '\x7b' :: u).getLast? = some (u.getLast?.getD '\x7b') := by
  simp [List.getLast?_append, List.getLast?_cons]

/-- The braces of an interpolation are no characters of names, so a name that stands between them
stands as well in the template. -/
theorem isWhole_inside {outer u v rest : Text} :
    (IsWhole (outer ++ '$' :: '\x7b' :: u) (v ++ '\x7d' :: rest) ∧
        (outer ++ '$' :: '\x7b' :: u).getLast? ≠ some '.') ↔
      IsWhole u v ∧ u.getLast? ≠ some '.' := by
  have hlast := getLast?_inside outer u
  have hhead : (v ++ '\x7d' :: rest).head? = some (v.head?.getD '\x7d') := by
    cases v <;> rfl
  constructor
  · rintro ⟨⟨hbefore, hafter⟩, hdot⟩
    refine ⟨⟨fun c hc => hbefore c ?_, fun c hc => hafter c ?_⟩, fun hc => hdot ?_⟩
    · simp [hlast, hc]
    · simp [hhead, hc]
    · simp [hlast, hc]
  · rintro ⟨⟨hbefore, hafter⟩, hdot⟩
    refine ⟨⟨?_, ?_⟩, ?_⟩
    · rw [hlast]
      rintro c ⟨⟩
      cases hu : u.getLast? with
      | none => rfl
      | some d => exact hbefore d hu
    · rw [hhead]
      rintro c ⟨⟩
      cases hv : v.head? with
      | none => rfl
      | some d => exact hafter d hv
    · rw [hlast]
      cases hu : u.getLast? with
      | none => decide
      | some d => simpa [hu] using hdot

/-- The search in a template finds a name exactly if it stands, outside of properties, where the
braces of an interpolation lie around it. -/
theorem interpolatesAny_iff {names : List Text} {template : Text} :
    interpolatesAny names template = true ↔
      ∃ name ∈ names, name ≠ [] ∧ ∃ before after, template = before ++ name ++ after ∧
        IsWhole before after ∧ before.getLast? ≠ some '.' ∧ Covered before name after := by
  simp only [interpolatesAny, Text.holdsSomewhere_iff, Option.any_eq_true, mentionsAny_iff]
  constructor
  · rintro ⟨outer, t, rfl, ⟨inner, rest⟩, hread, name, hname, hne, u, v, hinner, hwhole, hdot⟩
    obtain ⟨cs, rfl, hgroup⟩ := interpolation?_eq_some.mp hread
    obtain rfl : cs = inner ++ '\x7d' :: rest := Group.inside?_eq_some hgroup
    obtain rfl : inner = u ++ name ++ v := hinner
    obtain ⟨hwhole', hdot'⟩ := (@isWhole_inside outer u v rest).mpr ⟨hwhole, hdot⟩
    exact ⟨name, hname, hne, outer ++ '$' :: '\x7b' :: u, v ++ '\x7d' :: rest, by simp, hwhole',
      hdot', outer, u, v, rest, rfl, rfl, hgroup⟩
  · rintro ⟨name, hname, hne, _, _, rfl, hwhole, hdot, outer, u, v, rest, rfl, rfl, hgroup⟩
    obtain ⟨hwhole', hdot'⟩ := isWhole_inside.mp ⟨hwhole, hdot⟩
    exact ⟨outer, '$' :: '\x7b' :: (u ++ name ++ v ++ '\x7d' :: rest), by simp, _,
      interpolation?_eq_some.mpr ⟨_, rfl, hgroup⟩, name, hname, hne, u, v, rfl, hwhole', hdot'⟩

end Reference
end BladeView
