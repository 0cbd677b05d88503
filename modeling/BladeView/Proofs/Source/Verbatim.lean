import BladeView.Proofs.Text.Replace
import BladeView.Source.Verbatim

/-!
# Verbatim regions

Outside of verbatim regions nothing is taken out of a template. A region is taken out up to the
nearest word that closes it, and its placeholder is put in its place.
-/
namespace BladeView

variable {p rest t : Text} {c : Char}

namespace Text

/-- A text is cut where a piece stands, if the piece does not stand before and cannot overlap
itself. -/
theorem cut?_append {piece v : Text} (hc : c ∉ piece) (hv : ¬ c :: piece <:+: v) (rest : Text) :
    cut? (c :: piece) (v ++ c :: (piece ++ rest)) = some (v, rest) := by
  induction v with
  | nil => rw [List.nil_append, cut?, ← List.cons_append, after?_eq_some.2 rfl]
  | cons d v ih =>
    have hread : after? (c :: piece) (d :: (v ++ c :: (piece ++ rest))) = none := by
      rw [after?]
      split
      case isTrue hd =>
        have hv' : after? piece v = none := by
          rw [after?_eq_none_iff]
          intro hprefix
          rw [beq_iff_eq] at hd
          exact hv (List.cons_prefix_cons.2 ⟨hd, hprefix⟩).isInfix
        rw [after?_append hc, hv']
        rfl
      case isFalse => rfl
    have hrest := ih fun hstands => hv (hstands.trans (List.suffix_cons d v).isInfix)
    rw [List.cons_append, cut?, hread]
    simp only [hrest, Option.map_some]

section ReadAll

variable {α : Type} {reader : Text → Option (α × Text)}

theorem readAll_found {value : α} (hread : reader (c :: (p ++ rest)) = some (value, rest)) :
    readAll (fun _ => reader) (c :: (p ++ rest)) = value :: readAll (fun _ => reader) rest := by
  rw [readAll_eq_pass, readAll_eq_pass, pass_piece hread, List.singleton_append]

theorem readAll_other (hread : reader (c :: t) = none) :
    readAll (fun _ => reader) (c :: t) = readAll (fun _ => reader) t := by
  rw [readAll_eq_pass, readAll_eq_pass, pass_other hread, List.nil_append]

end ReadAll
end Text

namespace Region

/-- A region opens with an at sign. -/
theorem verbatim?_eq_none (hc : c ≠ '@') (t : Text) : verbatim? (c :: t) = none := by
  have hword : Text.after? "@verbatim" (c :: t) = none := by
    rw [Text.after?_eq_none_iff]
    intro hprefix
    exact hc (List.head_eq_of_cons_eq hprefix.choose_spec).symm
  rw [verbatim?, Text.afterWord?, hword]
  rfl

/-- A verbatim region with the given content. -/
def ofContent (v : Text) : Text := "@verbatim" ++ v ++ "@endverbatim"

theorem ofContent_append (v rest : Text) :
    ofContent v ++ rest = "@verbatim" ++ (v ++ ("@endverbatim" ++ rest)) := by
  unfold ofContent
  rw [List.append_assoc, List.append_assoc]

theorem exists_ofContent (v : Text) : ∃ p, ofContent v = '@' :: p := by
  have hword : "@verbatim".toList = '@' :: "verbatim".toList := by decide
  unfold ofContent
  rw [hword, List.append_assoc]
  exact ⟨_, rfl⟩

theorem verbatim?_ofContent {v : Text} (hstart : v.head?.any isWordChar = false)
    (hend : ¬ "@endverbatim".toList <:+: v) (rest : Text) :
    verbatim? (ofContent v ++ rest) = some (v, rest) := by
  have hwords : Text.endsWord (v ++ ("@endverbatim" ++ rest)) = true := by
    cases v with
    | nil => rfl
    | cons c v => simpa [Text.endsWord] using hstart
  rw [ofContent_append, verbatim?, Text.afterWord?, Text.after?_eq_some.2 rfl, Option.filter_some,
    if_pos hwords]
  exact Text.cut?_append (by decide) hend rest

end Region

namespace Verbatim

/-- The template with placeholders, the first of them of the given number. -/
def protectFrom (n : Nat) (t : Text) : Text :=
  Text.sweep (fun _ => protectStep) none n 0 t

theorem protect_eq (t : Text) : protect t = protectFrom 0 t := rfl

theorem protectFrom_found {n : Nat} {content : Text}
    (hread : Region.verbatim? (c :: (p ++ rest)) = some (content, rest)) :
    protectFrom n (c :: (p ++ rest)) = placeholder n ++ protectFrom (n + 1) rest := by
  have hjump : Text.readBeyond (c :: (p ++ rest)) rest = p.length := Text.readBeyond_append c p rest
  simp only [protectFrom, protectStep, Text.sweep, hread, hjump]
  rw [Text.sweep_skip]

theorem protectFrom_other {n : Nat} (hread : Region.verbatim? (c :: t) = none) :
    protectFrom n (c :: t) = c :: protectFrom n t := by
  simp only [protectFrom, protectStep, Text.sweep, hread, List.take_succ_cons, List.take_zero,
    List.singleton_append]
  rw [Text.sweep_before (some c) none]

/-- Text without at signs has no regions. -/
theorem contents_append {u : Text} (hu : '@' ∉ u) (t : Text) : contents (u ++ t) = contents t := by
  induction u with
  | nil => rfl
  | cons c u ih =>
    rw [List.mem_cons, not_or] at hu
    rw [← ih hu.2, List.cons_append]
    exact Text.readAll_other (Region.verbatim?_eq_none (Ne.symm hu.1) _)

theorem protectFrom_append {u : Text} (hu : '@' ∉ u) (n : Nat) (t : Text) :
    protectFrom n (u ++ t) = u ++ protectFrom n t := by
  induction u with
  | nil => rfl
  | cons c u ih =>
    rw [List.mem_cons, not_or] at hu
    rw [List.cons_append, protectFrom_other (Region.verbatim?_eq_none (Ne.symm hu.1) _), ih hu.2]
    rfl

section OneRegion

variable {u v w : Text} (hu : '@' ∉ u) (hw : '@' ∉ w) (hstart : v.head?.any isWordChar = false)
  (hend : ¬ "@endverbatim".toList <:+: v)

include hu hw hstart hend

/-- The content of a region is taken out. -/
theorem contents_region : contents (u ++ (Region.ofContent v ++ w)) = [v] := by
  have hread := Region.verbatim?_ofContent hstart hend w
  have hrest : contents w = [] := by
    have happend := contents_append hw []
    rw [List.append_nil] at happend
    exact happend
  obtain ⟨p, hp⟩ := Region.exists_ofContent v
  rw [hp] at hread
  rw [contents_append hu, hp, List.cons_append]
  exact (Text.readAll_found hread).trans (congrArg _ hrest)

/-- A placeholder takes its place. -/
theorem protect_region :
    protect (u ++ (Region.ofContent v ++ w)) = u ++ (placeholder 0 ++ w) := by
  have hread := Region.verbatim?_ofContent hstart hend w
  have hrest : protectFrom 1 w = w := by
    have happend := protectFrom_append hw 1 []
    rw [List.append_nil] at happend
    exact happend.trans (List.append_nil w)
  obtain ⟨p, hp⟩ := Region.exists_ofContent v
  rw [hp] at hread
  rw [protect_eq, protectFrom_append hu, hp, List.cons_append, protectFrom_found hread, hrest]

end OneRegion
end Verbatim
end BladeView
