import Mathlib.Data.List.Infix
import Mathlib.Tactic.MkIffOfInductiveProp
import BladeView.Proofs.Source.Reading
import BladeView.Proofs.Source.Verbatim
import BladeView.Proofs.Text.Trimmed

/-!
# Texts that differ in verbatim regions

Two texts that are equal except for the contents of their verbatim regions have the same
placeholders. Trimming and the removal of comments keep them such a pair, as long as comments do not
reach from outside into a region.
-/
namespace BladeView

open Text (afterWord? first? first?_append pass readAll)
open Prod (fst snd)
open Region (ofContent verbatim?)

/-! ## Readers at a region -/

namespace Text

/-- What holds at every place of a text is decided at one place after the other. -/
instance {P : Text → Prop} [DecidablePred P] (t : Text) : Decidable (∀ s, s <:+ t → P s) :=
  decidable_of_iff (∀ s ∈ t.tails, P s) (by simp only [List.mem_tails])

theorem suffix_append_cases {s a b : Text} (h : s <:+ a ++ b) :
    s <:+ b ∨ ∃ a', a' ≠ [] ∧ a' <:+ a ∧ s = a' ++ b := by
  obtain ⟨front, hfront⟩ := h
  obtain ⟨a', ha, hs⟩ | ⟨b', -, hb⟩ := List.append_eq_append_iff.1 hfront
  · by_cases hne : a' = []
    · left
      rw [hs, hne]
      exact List.suffix_rfl
    · exact .inr ⟨a', hne, ⟨front, ha.symm⟩, hs⟩
  · exact .inl ⟨b', hb.symm⟩

variable {α : Type} {reader : Text → Option (α × Text)}

theorem Silent.append {a b : Text} (hb : Silent reader b)
    (ha : ∀ s, s <:+ a → s ≠ [] → ∀ u, reader (s ++ (b ++ u)) = none) :
    Silent reader (a ++ b) := by
  intro s hs hne u
  obtain hs | ⟨a', ha', hsuffix, rfl⟩ := suffix_append_cases hs
  · exact hb s hs hne u
  · rw [List.append_assoc]
    exact ha a' hsuffix ha' u

/-- A keyword differs from a word at each of its places. -/
def clashesIn (word v : Text) : Bool := v.tails.all fun s => s.isEmpty || clashes word s

theorem LedBy.silent_of_clashesIn {word v : Text} (h : LedBy word reader)
    (hv : clashesIn word v = true) : Silent reader v := by
  refine h.silent fun s hs hne => ?_
  have hplace := List.all_eq_true.1 hv s ((List.mem_tails s v).2 hs)
  rwa [List.isEmpty_eq_false_iff.2 hne, Bool.false_or] at hplace

end Text

namespace Region

/-- A region begins with an at sign. -/
theorem ofContent_cons (c s : Text) :
    ofContent c ++ s = '@' :: ("verbatim" ++ (c ++ ("@endverbatim" ++ s))) := ofContent_append c s

theorem getLast?_ofContent (c : Text) : (ofContent c).getLast? = some 'm' := by
  have hlast : "@endverbatim".toList.getLast? = some 'm' := by decide
  unfold ofContent
  rw [List.getLast?_append, hlast]
  exact Option.some_or

variable {α : Type} {reader : Text → Option (α × Text)}

/-- A reader is silent in a region if it reads neither the words around it nor its content. -/
theorem silent_ofContent {word c : Text} (h : Text.LedBy word reader)
    (hopen : Text.clashesIn word "@verbatim" = true)
    (hclose : Text.clashesIn word "@endverbatim" = true)
    (hc : ∀ s, s <:+ c → s ≠ [] → ∀ u, reader (s ++ '@' :: u) = none) :
    Text.Silent reader (ofContent c) := by
  have hopening := h.silent_of_clashesIn hopen
  have hclosing := h.silent_of_clashesIn hclose
  have hsplit : ofContent c = "@verbatim" ++ (c ++ "@endverbatim") := List.append_assoc _ _ _
  rw [hsplit]
  refine (hclosing.append fun s hs hne u => hc s hs hne _).append fun s hs hne u => ?_
  exact hopening s hs hne _

section Pass

variable {β : Type} {found : α → Nat → List β} {other : Char → List β} {p c : Text}

theorem pass_region (h : Text.Consumes reader) (hp : Text.Settles reader p)
    (hc : Text.Silent reader (ofContent c)) (s : Text) :
    pass reader found other (p ++ (ofContent c ++ s)) =
      pass reader found other p ++
        ((ofContent c).flatMap other ++ pass reader found other s) := by
  rw [← Text.pass_silent hc s]
  rw [ofContent_cons]
  exact Text.pass_append h hp _

theorem first?_region (h : reader [] = none) (hp : Text.Settles reader p)
    (hc : Text.Silent reader (ofContent c)) (s : Text) :
    first? reader (p ++ (ofContent c ++ s)) =
      ((first? reader p).map fun found => (found.1, found.2 ++ (ofContent c ++ s))).or
        (first? reader s) := by
  rw [← Text.first?_silent hc s]
  rw [ofContent_cons]
  exact first?_append h hp _

end Pass

theorem substitute_region {reader : Text → Option (Text × Text)} {p c : Text}
    (h : Text.Consumes reader) (hp : Text.Settles reader p)
    (hc : Text.Silent reader (ofContent c)) (s : Text) :
    Text.substitute (fun _ => reader) (p ++ (ofContent c ++ s)) =
      Text.substitute (fun _ => reader) p ++
        (ofContent c ++ Text.substitute (fun _ => reader) s) := by
  simp only [Text.substitute_eq_pass, pass_region h hp hc, List.flatMap_singleton']

theorem trimStart_region (p c s : Text) :
    Text.trimStart (p ++ (ofContent c ++ s)) = Text.trimStart p ++ (ofContent c ++ s) := by
  rw [ofContent_cons]
  exact Text.trimStart_append_sign p _

theorem trimEnd_region (p c s : Text) :
    Text.trimEnd (p ++ (ofContent c ++ s)) = p ++ (ofContent c ++ Text.trimEnd s) := by
  rw [← List.append_assoc, ← List.append_assoc]
  refine Text.trimEnd_append ?_ s
  rw [List.getLast?_append, getLast?_ofContent]
  rfl

end Region

namespace Text

/-- What comes after the first occurrence of a piece. -/
theorem map_cut? {piece : Text} (hne : piece ≠ []) (t : Text) :
    (cut? piece t).map snd =
      (first? (fun t => (after? piece t).map fun rest => ((), rest)) t).map snd := by
  induction t with
  | nil =>
    obtain ⟨c, piece, rfl⟩ := List.exists_cons_of_ne_nil hne
    rfl
  | cons c t ih =>
    rw [cut?, first?_cons]
    cases after? piece (c :: t) with
    | some rest => rfl
    | none =>
      rw [Option.map_none, Option.none_or, ← ih]
      cases cut? piece t <;> rfl

end Text

namespace Verbatim

/-! ## Equal outside of regions -/

/-- What may stand in a region: it goes on where the opening word ends, and neither closes the
region nor opens a comment. -/
@[mk_iff]
structure IsContent (c : Text) : Prop where
  starts : c.head?.any isWordChar = false
  closes : ¬ "@endverbatim".toList <:+: c
  comment : ¬ "\x7b\x7b--".toList <:+: c

instance (c : Text) : Decidable (IsContent c) :=
  decidable_of_iff _ (isContent_iff c).symm

/-- Two texts that are equal except for the contents of verbatim regions. The pieces before the
regions and the contents have the given properties. -/
inductive Varies (piece content : Text → Prop) : Text → Text → Prop
  | last (p : Text) : Varies piece content p p
  | region {p c d s t : Text} (hp : piece p) (hc : content c) (hd : content d)
      (h : Varies piece content s t) :
      Varies piece content (p ++ (ofContent c ++ s)) (p ++ (ofContent d ++ t))

namespace Varies

variable {piece piece' content content' : Text → Prop} {s t : Text}

theorem mono (hpiece : ∀ p, piece p → piece' p) (hcontent : ∀ c, content c → content' c)
    (h : Varies piece content s t) : Varies piece' content' s t := by
  induction h with
  | last p => exact .last p
  | region hp hc hd _ ih => exact .region (hpiece _ hp) (hcontent _ hc) (hcontent _ hd) ih

section Reader

variable {α : Type} {reader : Text → Option (α × Text)}
  (hpiece : ∀ p, piece p → Text.Settles reader p)
  (hcontent : ∀ c, content c → Text.Silent reader (ofContent c))

include hpiece hcontent

/-- A reader that does not read across the ends of regions reads the same values. -/
theorem readAll_eq (hreader : Text.Consumes reader) (h : Varies piece content s t) :
    readAll (fun _ => reader) s = readAll (fun _ => reader) t := by
  have hregion : ∀ {p c}, piece p → content c → ∀ s,
      readAll (fun _ => reader) (p ++ (ofContent c ++ s)) =
        readAll (fun _ => reader) p ++ readAll (fun _ => reader) s := by
    intro p c hp hc s
    simp only [Text.readAll_eq_pass, Region.pass_region hreader (hpiece p hp) (hcontent c hc)]
    simp
  induction h with
  | last p => rfl
  | region hp hc hd _ ih => rw [hregion hp hc, hregion hp hd, ih]

theorem first?_eq (hreader : reader [] = none) (h : Varies piece content s t) :
    (first? reader s).map fst = (first? reader t).map fst := by
  have hregion : ∀ {p c}, piece p → content c → ∀ s,
      (first? reader (p ++ (ofContent c ++ s))).map fst =
        ((first? reader p).map fst).or ((first? reader s).map fst) := by
    intro p c hp hc s
    rw [Region.first?_region hreader (hpiece p hp) (hcontent c hc)]
    cases first? reader p <;> rfl
  induction h with
  | last p => rfl
  | region hp hc hd _ ih => rw [hregion hp hc, hregion hp hd, ih]

theorem isSome_first?_eq (hreader : reader [] = none) (h : Varies piece content s t) :
    (first? reader s).isSome = (first? reader t).isSome := by
  have hfirst := congrArg Option.isSome (h.first?_eq hpiece hcontent hreader)
  rwa [Option.isSome_map, Option.isSome_map] at hfirst

end Reader

/-- A pass that replaces pieces outside of regions. -/
theorem substitute {reader : Text → Option (Text × Text)} (hreader : Text.Consumes reader)
    (hpiece : ∀ p, piece p → Text.Settles reader p ∧ piece' (Text.substitute (fun _ => reader) p))
    (hcontent : ∀ c, content c → Text.Silent reader (ofContent c))
    (h : Varies piece content s t) :
    Varies piece' content (Text.substitute (fun _ => reader) s)
      (Text.substitute (fun _ => reader) t) := by
  induction h with
  | last p => exact .last _
  | region hp hc hd _ ih =>
    rw [Region.substitute_region hreader (hpiece _ hp).1 (hcontent _ hc),
      Region.substitute_region hreader (hpiece _ hp).1 (hcontent _ hd)]
    exact .region (hpiece _ hp).2 hc hd ih

theorem trimStart (hpiece : ∀ p, piece p → piece (Text.trimStart p))
    (h : Varies piece content s t) :
    Varies piece content (Text.trimStart s) (Text.trimStart t) := by
  cases h with
  | last p => exact .last _
  | region hp hc hd h =>
    rw [Region.trimStart_region, Region.trimStart_region]
    exact .region (hpiece _ hp) hc hd h

theorem trimEnd (h : Varies piece content s t) :
    Varies piece content (Text.trimEnd s) (Text.trimEnd t) := by
  induction h with
  | last p => exact .last _
  | region hp hc hd _ ih =>
    rw [Region.trimEnd_region, Region.trimEnd_region]
    exact .region hp hc hd ih

/-- Blanks at the ends of the texts stand outside of the regions. -/
theorem trim (hpiece : ∀ p, piece p → piece (Text.trimStart p)) (h : Varies piece content s t) :
    Varies piece content (Text.trim s) (Text.trim t) := (h.trimStart hpiece).trimEnd

end Varies

/-! ## Placeholders -/

/-- Reads the word that closes a region. -/
def closing? (t : Text) : Option (Unit × Text) :=
  (Text.after? "@endverbatim" t).map fun rest => ((), rest)

theorem settles_closing? (p : Text) : Text.Settles closing? p := by
  have hends : Text.EndsAtSign (Text.after? "@endverbatim") :=
    Text.endsAtSign_after? '@' (by decide)
  exact hends.settles () p

/-- A region is closed by the word after its content. -/
theorem first?_closing? {c : Text} (hc : IsContent c) (t : Text) :
    first? closing? (ofContent c ++ t) = some ((), t) := by
  have hled : Text.LedBy "@endverbatim" closing? :=
    Text.ledBy_of_after? () (Text.forall_mem_of_all (by decide)) fun _ _ => id
  have hopen : Text.Silent closing? "@verbatim" := hled.silent_of_clashesIn (by decide)
  have hnone : first? closing? c = none := by
    refine Text.first?_eq_none fun s hs => ?_
    rw [closing?, Option.map_eq_none_iff, Text.after?_eq_none_iff]
    exact fun hstands => hc.closes (hstands.isInfix.trans hs.isInfix)
  have hword : "@endverbatim" ++ t = '@' :: ("endverbatim" ++ t) := rfl
  have hread : closing? ('@' :: ("endverbatim" ++ t)) = some ((), t) := by
    rw [closing?, Text.after?_eq_some.2 hword.symm]
    rfl
  rw [Region.ofContent_append, Text.first?_silent hopen, hword,
    first?_append rfl (settles_closing? c), hnone, Text.first?_cons, hread]
  rfl

theorem afterWord?_verbatim_append {s : Text} (hs : s ≠ []) (u : Text) :
    afterWord? "@verbatim" (s ++ '@' :: u) =
      (afterWord? "@verbatim" s).map (· ++ '@' :: u) :=
  (Text.endsAtSign_after? '@' (by decide)).filter_endsWord s hs u

/-- A word that opens a region in a piece before another region: the region ends in the piece, or
with the other one. -/
theorem map_verbatim? {s inside : Text} (hs : s ≠ [])
    (hword : afterWord? "@verbatim" s = some inside) {c : Text} (hc : IsContent c) (t : Text) :
    (verbatim? (s ++ (ofContent c ++ t))).map snd =
      ((first? closing? inside).map fun found => found.2 ++ (ofContent c ++ t)).or
        (some t) := by
  have hsplit : first? closing? (inside ++ (ofContent c ++ t)) =
      ((first? closing? inside).map fun found =>
        (found.1, found.2 ++ (ofContent c ++ t))).or (some ((), t)) := by
    rw [← first?_closing? hc t]
    rw [Region.ofContent_cons]
    exact first?_append rfl (settles_closing? inside) _
  have hopen : afterWord? "@verbatim" (s ++ (ofContent c ++ t)) =
      some (inside ++ (ofContent c ++ t)) := by
    rw [Region.ofContent_cons]
    rw [afterWord?_verbatim_append hs, hword]
    rfl
  rw [verbatim?, hopen]
  refine (Text.map_cut? (by decide) _).trans ?_
  change (first? closing? _).map snd = _
  rw [hsplit]
  cases first? closing? inside <;> rfl

theorem verbatim?_eq_none_of_word {s : Text} (hs : s ≠ [])
    (hword : afterWord? "@verbatim" s = none) (u : Text) :
    verbatim? (s ++ '@' :: u) = none := by
  rw [verbatim?, afterWord?_verbatim_append hs, hword]
  rfl

theorem protectFrom_rest {n : Nat} {t rest : Text}
    (h : (verbatim? t).map snd = some rest) :
    protectFrom n t = placeholder n ++ protectFrom (n + 1) rest := by
  obtain ⟨⟨content, rest'⟩, hread, rfl⟩ := Option.map_eq_some_iff.1 h
  obtain ⟨inside, hinside, hcut⟩ := Option.bind_eq_some_iff.1 hread
  have hword : Text.after? "@verbatim" t = some inside := (Option.filter_eq_some_iff.1 hinside).1
  have hsplit : t = '@' :: (("verbatim" ++ content ++ "@endverbatim") ++ rest') := by
    rw [Text.after?_eq_some.1 hword, Text.cut?_eq_append hcut]
    simp only [List.append_assoc]
    rfl
  rw [hsplit] at hread ⊢
  exact protectFrom_found hread

/-- One region with one content or another. -/
theorem protectFrom_region {c d s t : Text} (hc : IsContent c) (hd : IsContent d)
    (h : ∀ n, protectFrom n s = protectFrom n t) (p : Text) (n : Nat) :
    protectFrom n (p ++ (ofContent c ++ s)) =
      protectFrom n (p ++ (ofContent d ++ t)) := by
  -- A region may be open before this one, so the induction is on the length of the piece.
  induction hlength : p.length using Nat.strongRecOn generalizing p n with
  | _ k ih =>
    subst hlength
    cases p with
    | nil =>
      have hread : ∀ {c}, IsContent c → ∀ t,
          (verbatim? (ofContent c ++ t)).map snd = some t := by
        intro c hc t
        rw [Region.verbatim?_ofContent hc.starts hc.closes]
        rfl
      rw [List.nil_append, List.nil_append, protectFrom_rest (hread hc s),
        protectFrom_rest (hread hd t), h]
    | cons x p =>
      cases hword : afterWord? "@verbatim" (x :: p) with
      | none =>
        have hread : ∀ c t, verbatim? (x :: (p ++ (ofContent c ++ t))) = none := by
          intro c t
          rw [Region.ofContent_cons]
          exact verbatim?_eq_none_of_word (List.cons_ne_nil x p) hword _
        rw [List.cons_append, List.cons_append, protectFrom_other (hread c s),
          protectFrom_other (hread d t), ih p.length (by simp) p n rfl]
      | some inside =>
        have hcrest := map_verbatim? (List.cons_ne_nil x p) hword hc s
        have hdrest := map_verbatim? (List.cons_ne_nil x p) hword hd t
        cases hfirst : first? closing? inside with
        | none =>
          rw [hfirst, Option.map_none, Option.none_or] at hcrest hdrest
          rw [protectFrom_rest hcrest, protectFrom_rest hdrest, h]
        | some found =>
          rw [hfirst, Option.map_some, Option.some_or] at hcrest hdrest
          have hshort : found.2.length < (x :: p).length := by
            have hpos : "@verbatim".toList.length = 9 := by decide
            have hinside : x :: p = "@verbatim" ++ inside :=
              Text.after?_eq_some.1 (Option.filter_eq_some_iff.1 hword).1
            obtain ⟨rest, hafter, rfl⟩ : ∃ rest, rest <:+ inside ∧ found = ((), rest) := by
              obtain ⟨s', hs', hread⟩ := Text.first?_eq_some hfirst
              obtain ⟨rest, hafter, rfl⟩ := Option.map_eq_some_iff.1 hread
              have hsuffix : rest <:+ s' := ⟨_, (Text.after?_eq_some.1 hafter).symm⟩
              exact ⟨rest, hsuffix.trans hs', rfl⟩
            have hle : rest.length ≤ inside.length := hafter.length_le
            rw [hinside, List.length_append]
            change rest.length < _
            omega
          rw [protectFrom_rest hcrest, protectFrom_rest hdrest, ih _ hshort found.2 (n + 1) rfl]

/-- **The text with placeholders does not depend on the contents of regions.** -/
theorem Varies.protectFrom_eq {piece : Text → Prop} {s t : Text} (h : Varies piece IsContent s t)
    (n : Nat) : protectFrom n s = protectFrom n t := by
  induction h generalizing n with
  | last p => rfl
  | region _ hc hd _ ih => exact protectFrom_region hc hd ih _ n

end Verbatim

/-! ## Comments -/

namespace Region

/-- The comments that open in a piece are closed in it. -/
def ClosesComments (p : Text) : Prop :=
  ∀ s, s <:+ p → (Text.after? "\x7b\x7b--" s).isSome → (comment? s).isSome

instance (p : Text) : Decidable (ClosesComments p) :=
  inferInstanceAs (Decidable (∀ s, s <:+ p → _))

theorem ClosesComments.suffix {p q : Text} (h : ClosesComments p) (hq : q <:+ p) :
    ClosesComments q := fun s hs => h s (hs.trans hq)

theorem ClosesComments.settles {p : Text} (h : ClosesComments p) :
    Text.Settles (fun t => (comment? t).map fun rest => (([] : Text), rest)) p := by
  intro s hs hne u
  simp only [comment?_append (h s hs) hne u, Option.map_map]
  rfl

/-- Blanks stay where they are. -/
theorem stripComments_append {blanks : Text} (h : ∀ c ∈ blanks, isBlank c = true) (t : Text) :
    stripComments (blanks ++ t) = blanks ++ stripComments t := by
  have hbrace : '\x7b' ∉ blanks := fun hmem => absurd (h _ hmem) (by decide)
  have hsilent := (ledBy_comment? []).silent_of_notMem (by decide) hbrace
  unfold stripComments
  rw [Text.substitute_eq_pass, Text.substitute_eq_pass, Text.pass_silent hsilent,
    List.flatMap_singleton']

end Region

namespace Verbatim

theorem IsContent.silent_comment? {c : Text} (hc : IsContent c) :
    Text.Silent (fun t => (Region.comment? t).map fun rest => (([] : Text), rest))
      (ofContent c) := by
  refine Region.silent_ofContent (Region.ledBy_comment? []) (by decide) (by decide) ?_
  intro s hs hne u
  have hafter : Text.after? "\x7b\x7b--" (s ++ '@' :: u) =
      (Text.after? "\x7b\x7b--" s).map (· ++ '@' :: u) :=
    Text.endsAtSign_after? _ (by decide) s hne u
  have hnone : Text.after? "\x7b\x7b--" s = none := by
    rw [Text.after?_eq_none_iff]
    exact fun hstands => hc.comment (hstands.isInfix.trans hs.isInfix)
  rw [Region.comment?, hafter, hnone]
  rfl

/-- A source without blanks at its ends and without comments. -/
theorem stripComments_region {p c : Text} (hp : Region.ClosesComments p) (hc : IsContent c)
    (s : Text) :
    Region.stripComments (Text.trim (p ++ (ofContent c ++ s))) =
      Region.stripComments (Text.trimStart p) ++
        (ofContent c ++ Region.stripComments (Text.trimEnd s)) := by
  rw [Text.trim, Region.trimStart_region, Region.trimEnd_region]
  exact Region.substitute_region ((Region.ledBy_comment? []).consumes (by decide))
    (hp.suffix (Text.trimStart_suffix p)).settles hc.silent_comment? _

/-- Comments outside of the regions are removed from both texts. -/
theorem Varies.stripComments {piece piece' content : Text → Prop} {s t : Text}
    (hpiece : ∀ p, piece p → Region.ClosesComments p ∧ piece' (Region.stripComments p))
    (hcontent : ∀ c, content c → IsContent c) (h : Varies piece content s t) :
    Varies piece' content (Region.stripComments s) (Region.stripComments t) :=
  h.substitute ((Region.ledBy_comment? []).consumes (by decide))
    (fun p hp => ⟨(hpiece p hp).1.settles, (hpiece p hp).2⟩)
    fun c hc => (hcontent c hc).silent_comment?

end Verbatim
end BladeView
