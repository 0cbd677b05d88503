import BladeView.Markup.Basic
import BladeView.Proofs.Text.Basic

/-!
# Text without directives

Every inline directive starts with an at sign, and every echo and every raw variable with a brace.
The passes for them leave a text without these characters alone.
-/
namespace BladeView

/-- A pass over a text without at signs asks about nothing. -/
theorem Occurrence.substitute_eq_self (answer : Occurrence → Option Text) {t : Text}
    (h : '@' ∉ t) : substitute answer t = t := by
  have hread : ∀ before c cs, c :: cs <:+ t → read? before (c :: cs) = none := by
    intro before c cs hsuffix
    have hc : c ≠ '@' := fun heq => h (heq ▸ hsuffix.subset List.mem_cons_self)
    rw [read?.eq_def]
    split
    case h_1 heq => exact absurd (List.cons.inj heq).1 hc
    case h_2 => rfl
  have hsegments : segments answer t = t.map .copied := by
    refine Text.sweep_eq_map (fun before c cs hsuffix => ?_) none
    simp [segmentStep, hread before c cs hsuffix]
  simp [substitute, hsegments, List.flatMap_map, Segment.output]

namespace Echo

theorem after?_eq_none {piece t : Text} {c : Char} (hc : piece.head? = some c) (h : c ∉ t) :
    Text.after? piece t = none := by
  rw [Option.eq_none_iff_forall_ne_some]
  intro rest hrest
  rw [Text.after?_eq_some] at hrest
  cases piece with
  | nil => cases hc
  | cons d piece =>
    cases hc
    exact h (by simp [hrest])

theorem opening?_eq_none {t : Text} (h : '\x7b' ∉ t) : opening? t = none := by
  induction t with
  | nil => rfl
  | cons c t ih =>
    have hraw : Text.after? (marks true).1 (c :: t) = none := after?_eq_none rfl h
    have hescaped : Text.after? (marks false).1 (c :: t) = none := after?_eq_none rfl h
    have hrest := ih fun hmem => h (List.mem_cons_of_mem _ hmem)
    simp [opening?, hraw, hescaped, hrest]

/-- A text without braces has no echoes and no raw variables. -/
theorem substitute_eq_self (bindings : Bindings) {t : Text} (h : '\x7b' ∉ t) :
    substitute bindings t = t := by
  have hfirst : first? t = none := by simp [first?, opening?_eq_none h]
  have hpieces : pieces t = [.text t] := by
    unfold pieces
    cases t.length with
    | zero => rfl
    | succ count => simp [piecesUpTo, hfirst]
  have hvariables : substituteVariables (Expression.toScript bindings) t = t := by
    refine Text.substitute_eq_self fun before c cs hsuffix => ?_
    have hbrace : Text.after? "\x7b" (c :: cs) = none :=
      after?_eq_none rfl fun hmem => h (hsuffix.subset hmem)
    have hbraced : braced? (c :: cs) = none := by
      rw [braced?, hbrace]
      rfl
    simp [hbraced]
  simp [substitute, hpieces, Piece.output, hvariables]

end Echo

end BladeView
