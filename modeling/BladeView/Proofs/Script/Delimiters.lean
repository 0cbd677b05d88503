import BladeView.Proofs.Reference.Mention
import BladeView.Proofs.Script.Interpolation

/-!
# Delimiters and the reader of groups

The reader of groups looks at quotes, braces and backslashes only. So a change to the characters
between them does not change which groups it finds.
-/
namespace BladeView

/-- The characters that the reader of braces looks at. -/
def isDelimiter (c : Char) : Bool := isQuote c || c == '\\' || c == '\x7b' || c == '\x7d'

namespace Group

variable {depth : Nat} {quote : Option Char} {t inner rest : Text}

theorem isQuote_of_next {c : Char} (hquote : ∀ q, quote = some q → isQuote q = true) {q : Char}
    (hq : (next '\x7b' '\x7d' c (depth, quote)).2 = some q) : isQuote q = true := by
  cases quote with
  | some q' =>
    obtain ⟨-, heq⟩ := Option.ite_none_left_eq_some.1 hq
    exact Option.some.inj heq ▸ hquote q' rfl
  | none =>
    rw [next] at hq
    split at hq
    case isTrue hc => exact Option.some.inj hq ▸ hc
    case isFalse =>
      split at hq
      · cases hq
      · split at hq <;> cases hq

/-- The reader of braces copies all other characters. -/
theorem inside?_plain {p : Text} (hquote : ∀ q, quote = some q → isQuote q = true)
    (hp : ∀ c ∈ p, isDelimiter c = false) (t : Text) :
    inside? '\x7b' '\x7d' depth quote (p ++ t) = extend p (inside? '\x7b' '\x7d' depth quote t) := by
  induction p with
  | nil => cases h : inside? '\x7b' '\x7d' depth quote t <;> simp [extend, h]
  | cons c p ih =>
    rw [List.forall_mem_cons] at hp
    simp only [isDelimiter, Bool.or_eq_false_iff, beq_eq_false_iff_ne] at hp
    obtain ⟨⟨⟨⟨hnot, hslash⟩, hopen⟩, hclose⟩, hrest⟩ := hp
    have hnext : next '\x7b' '\x7d' c (depth, quote) = (depth, quote) := by
      cases quote with
      | none => simp [next, hnot, hopen, hclose]
      | some q =>
        have hne : c ≠ q := by
          rintro rfl
          rw [hquote c rfl] at hnot
          cases hnot
        simp [next, hne]
    rw [List.cons_append, inside?_cons hslash fun _ heq => absurd heq hclose, hnext,
      ih (by simpa [isDelimiter, and_assoc] using hrest)]
    cases inside? '\x7b' '\x7d' depth quote t <;> rfl

theorem inside?_slash_nil : inside? '\x7b' '\x7d' depth quote ['\\'] = none := by
  rw [inside?.eq_def]
  simp

theorem inside?_slash (d : Char) (t : Text) : inside? '\x7b' '\x7d' depth quote ('\\' :: d :: t) =
    extend ['\\', d] (inside? '\x7b' '\x7d' depth quote t) := by
  rw [inside?.eq_def]
  simp

/-- A backslash before a plain character hides nothing. -/
theorem inside?_slash_plain (hquote : ∀ q, quote = some q → isQuote q = true) {d : Char}
    (hd : isDelimiter d = false) (t : Text) :
    inside? '\x7b' '\x7d' depth quote ('\\' :: d :: t) =
      extend ['\\'] (inside? '\x7b' '\x7d' depth quote (d :: t)) := by
  have hplain : inside? '\x7b' '\x7d' depth quote ([d] ++ t) =
      extend [d] (inside? '\x7b' '\x7d' depth quote t) :=
    inside?_plain hquote (by simpa using hd) t
  rw [inside?_slash, show d :: t = [d] ++ t from rfl, hplain]
  cases inside? '\x7b' '\x7d' depth quote t <;> rfl

theorem inside?_of_plain (hquote : ∀ q, quote = some q → isQuote q = true)
    (ht : ∀ c ∈ t, isDelimiter c = false) : inside? '\x7b' '\x7d' depth quote t = none := by
  have hplain := @inside?_plain depth quote t hquote ht []
  rw [List.append_nil] at hplain
  rw [hplain]
  rfl

end Group

/-! ## Changes between delimiters -/

/-- A change to the text between delimiters. It does not reach across a delimiter, adds none, and
leaves no text empty. -/
structure KeepsDelimiters (change : Text → Text) : Prop where
  nil : change [] = []
  split : ∀ s c t, isDelimiter c = true → change (s ++ c :: t) = change s ++ c :: change t
  plain : ∀ p, (∀ c ∈ p, isDelimiter c = false) → ∀ c ∈ change p, isDelimiter c = false
  ne_nil : ∀ p, change p = [] → p = []

namespace KeepsDelimiters

variable {change : Text → Text} {depth : Nat} {quote : Option Char}

theorem cons (h : KeepsDelimiters change) {c : Char} (hc : isDelimiter c = true) (t : Text) :
    change (c :: t) = c :: change t := by
  have hsplit := h.split [] c t hc
  rwa [h.nil] at hsplit

/-- A text is plain up to its first delimiter. -/
theorem plain_or_delimiter (t : Text) : (∀ c ∈ t, isDelimiter c = false) ∨
    ∃ p c rest, t = p ++ c :: rest ∧ (∀ c ∈ p, isDelimiter c = false) ∧ isDelimiter c = true := by
  induction t with
  | nil => exact .inl (by simp)
  | cons d t ih =>
    by_cases hd : isDelimiter d = true
    · exact .inr ⟨[], d, t, rfl, by simp, hd⟩
    · rw [Bool.not_eq_true] at hd
      rcases ih with hplain | ⟨p, c, rest, rfl, hp, hc⟩
      · exact .inl (by simpa [hd] using hplain)
      · exact .inr ⟨d :: p, c, rest, rfl, by simpa [hd] using hp, hc⟩

theorem head (h : KeepsDelimiters change) {d : Char} (hd : isDelimiter d = false) (t : Text) :
    ∃ e u, change (d :: t) = e :: u ∧ isDelimiter e = false := by
  have hplain : ∀ p, p ≠ [] → (∀ c ∈ p, isDelimiter c = false) →
      ∃ e u, change p = e :: u ∧ isDelimiter e = false := by
    intro p hne hp
    obtain ⟨e, u, hchange⟩ := List.exists_cons_of_ne_nil fun hnil => hne (h.ne_nil p hnil)
    exact ⟨e, u, hchange, h.plain p hp e (hchange ▸ List.mem_cons_self)⟩
  rcases plain_or_delimiter (d :: t) with hall | ⟨p, c, rest, hsplit, hp, hc⟩
  · exact hplain _ (by simp) hall
  · have hne : p ≠ [] := by
      rintro rfl
      rw [(List.cons.inj hsplit).1, hc] at hd
      cases hd
    obtain ⟨e, u, hchange, he⟩ := hplain p hne hp
    exact ⟨e, u ++ c :: change rest, by rw [hsplit, h.split p c rest hc, hchange]; rfl, he⟩

/-- The changed parts of a group. -/
def mapGroup (change : Text → Text) (found : Text × Text) : Text × Text :=
  (change found.1, change found.2)

theorem append (h : KeepsDelimiters change) {c : Char} {ds : Text} (hc : isDelimiter c = true)
    (hds : ∀ c ∈ ds, isDelimiter c = true) (s t : Text) :
    change (s ++ c :: ds ++ t) = change s ++ c :: ds ++ change t := by
  have hfront : change (ds ++ t) = ds ++ change t := by
    induction ds with
    | nil => rfl
    | cons d ds ih =>
      rw [List.forall_mem_cons] at hds
      rw [List.cons_append, h.cons hds.1, ih hds.2, List.cons_append]
  rw [List.append_assoc, List.cons_append, h.split s c _ hc, hfront, List.append_assoc,
    List.cons_append]

theorem extend_mapGroup (h : KeepsDelimiters change) {c : Char} {ds : Text}
    (hc : isDelimiter c = true) (hds : ∀ c ∈ ds, isDelimiter c = true) (p : Text)
    (read : Option (Text × Text)) :
    Group.extend (change p) (Group.extend (c :: ds) (read.map (mapGroup change))) =
      (Group.extend p (Group.extend (c :: ds) read)).map (mapGroup change) := by
  cases read with
  | none => rfl
  | some found =>
    have happend := h.append hc hds p found.1
    simpa [Group.extend, mapGroup] using happend.symm

/-- The groups of a changed text are the changed groups of the text. -/
theorem inside? (h : KeepsDelimiters change) (hquote : ∀ q, quote = some q → isQuote q = true)
    (t : Text) :
    Group.inside? '\x7b' '\x7d' depth quote (change t) =
      (Group.inside? '\x7b' '\x7d' depth quote t).map (mapGroup change) := by
  induction hlength : t.length using Nat.strongRecOn generalizing depth quote t with
  | _ n ih =>
    subst hlength
    rcases plain_or_delimiter t with hplain | ⟨p, c, rest, rfl, hp, hc⟩
    · rw [Group.inside?_of_plain hquote hplain, Group.inside?_of_plain hquote (h.plain t hplain)]
      rfl
    rw [h.split p c rest hc, Group.inside?_plain hquote hp, Group.inside?_plain hquote (h.plain p hp)]
    by_cases hslash : c = '\\'
    · subst hslash
      match rest with
      | [] => rw [h.nil, Group.inside?_slash_nil]; rfl
      | d :: rest =>
        by_cases hd : isDelimiter d = true
        · rw [h.cons hd, Group.inside?_slash, Group.inside?_slash,
            ih rest.length (by simp; omega) hquote rest rfl,
            h.extend_mapGroup hc (by simpa using hd)]
        · rw [Bool.not_eq_true] at hd
          obtain ⟨e, u, hchange, he⟩ := h.head hd rest
          rw [hchange, Group.inside?_slash_plain hquote he, Group.inside?_slash_plain hquote hd,
            ← hchange, ih (d :: rest).length (by simp; omega) hquote (d :: rest) rfl,
            h.extend_mapGroup hc (by simp)]
    · by_cases hends : quote = none ∧ c = '\x7d' ∧ depth = 0
      · obtain ⟨rfl, rfl, rfl⟩ := hends
        simp [Group.inside?.eq_def, isQuote, Group.extend, mapGroup]
      · have hinside : quote = none → c = '\x7d' → 0 < depth := fun hnone hclose =>
          Nat.pos_of_ne_zero fun hzero => hends ⟨hnone, hclose, hzero⟩
        rw [Group.inside?_cons hslash hinside, Group.inside?_cons hslash hinside,
          ih rest.length (by simp; omega) (fun _ => Group.isQuote_of_next hquote) rest rfl,
          h.extend_mapGroup hc (by simp)]

end KeepsDelimiters
end BladeView
