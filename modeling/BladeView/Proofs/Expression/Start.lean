import BladeView.Proofs.Expression.FixedPoint
import BladeView.Proofs.Text.Trimmed

/-!
# The start of a script

The conversion of an expression depends neither on the depth it is allowed to go to, if that is
enough, nor on the blanks around the expression. A script starts with a bracket or a brace exactly if
its expression does: what the pass writes first for a name, a number, a literal or a sign is neither,
and an array is written as an array or as an object.
-/
namespace BladeView

open Text (length_trim_le trim)

variable {t left right cs : Text}

namespace TopLevel

theorem cutWhere?_eq_some {found : Option Char → Text → Bool} {level : Level}
    {before : Option Char} (h : cutWhere? found level before t = some (left, right)) :
    t = left ++ right ∧ ∃ last, found last right = true := by
  fun_induction cutWhere? found level before t generalizing left with
  | case1 => cases h
  | case2 => cases h
  | case4 level before c cs _ hfound =>
    obtain ⟨rfl, rfl⟩ := Prod.mk.inj (Option.some.inj h)
    exact ⟨rfl, before, (Bool.and_eq_true_iff.mp hfound).2⟩
  | _ =>
    rename_i ih
    obtain ⟨more, hmore, rfl⟩ := Group.extend_eq_some.mp h
    obtain ⟨heq, hlast⟩ := ih hmore
    exact ⟨by rw [heq, List.append_assoc]; rfl, hlast⟩

/-- A text that is cut at a piece is what comes before, the piece and what comes after. -/
theorem cut?_eq_some {piece : Text} (h : cut? piece t = some (left, right)) :
    t = left ++ (piece ++ right) := by
  unfold cut? at h
  obtain ⟨-, h⟩ := Option.ite_none_left_eq_some.1 h
  obtain ⟨⟨left', rest⟩, hcut, hpair⟩ := Option.bind_eq_some_iff.mp h
  obtain ⟨rfl, rfl⟩ := Prod.mk.inj (Option.some.inj hpair)
  obtain ⟨rfl, -, hstarts⟩ := cutWhere?_eq_some hcut
  obtain ⟨more, rfl⟩ := List.isPrefixOf_iff_prefix.mp hstarts
  rw [List.drop_left]

end TopLevel

namespace Expression

theorem pair?_eq_some {item : Text} (h : pair? item = some (left, right)) :
    ∃ l r, item = l ++ ("=>" ++ r) ∧ left = trim l ∧ right = trim r := by
  unfold pair? at h
  split at h
  case h_2 => cases h
  case h_1 l r hcut =>
    obtain ⟨-, h⟩ := Option.ite_none_right_eq_some.1 h
    obtain ⟨rfl, rfl⟩ := Prod.mk.inj (Option.some.inj h)
    exact ⟨l, r, TopLevel.cut?_eq_some hcut, rfl, rfl⟩

/-! ## Depth -/

section Depth

variable {b : Bindings} {convert convert' : Text → Text} {n : Nat}

/-- Two conversions that do the same with short texts. -/
def AgreeBelow (convert convert' : Text → Text) (n : Nat) : Prop :=
  ∀ t : Text, t.length < n → convert t = convert' t

theorem AgreeBelow.mono {m : Nat} (h : AgreeBelow convert convert' n) (hm : m ≤ n) :
    AgreeBelow convert convert' m :=
  fun t ht => h t (Nat.lt_of_lt_of_le ht hm)

theorem entries_congr (h : AgreeBelow convert convert' n) {items : List Text}
    (hitems : ∀ item ∈ items, item.length < n) (index : Nat) :
    entries convert index items = entries convert' index items := by
  induction items generalizing index with
  | nil => rfl
  | cons item items ih =>
    obtain ⟨hitem, hrest⟩ := List.forall_mem_cons.mp hitems
    rw [entries, entries]
    cases hpair : pair? item with
    | none => simp only [h item hitem, ih hrest]
    | some found =>
      obtain ⟨left, right⟩ := found
      obtain ⟨l, r, rfl, rfl, rfl⟩ := pair?_eq_some hpair
      rw [List.length_append, List.length_append] at hitem
      have hleft := h (trim l) (by have := length_trim_le l; omega)
      have hright := h (trim r) (by have := length_trim_le r; omega)
      simp only [key, hleft, hright, ih hrest]

theorem array_congr (h : AgreeBelow convert convert' n) {inner : Text} (hinner : inner.length < n) :
    array convert inner = array convert' inner := by
  have hitems : ∀ item ∈ TopLevel.split inner, item.length < n := fun item hitem =>
    Nat.lt_of_le_of_lt (TopLevel.mem_split hitem).2 hinner
  have hmap : (TopLevel.split inner).map convert = (TopLevel.split inner).map convert' :=
    List.map_congr_left fun item hitem => h item (hitems item hitem)
  simp only [array, entries_congr h hitems, hmap]

theorem bracketStep_congr {p : Pass} (h : AgreeBelow convert convert' (cs.length + 1)) :
    bracketStep convert p ('[' :: cs) = bracketStep convert' p ('[' :: cs) := by
  unfold bracketStep
  cases hread : Group.read? ('[' :: cs) with
  | none => rfl
  | some found =>
    obtain ⟨inner, rest⟩ := found
    have hinner : inner.length < cs.length + 1 := by
      have hlength := congrArg List.length (Group.inside?_eq_some hread)
      rw [List.length_append] at hlength
      omega
    simp only [h inner hinner, array_congr h hinner]

theorem step_congr {p : Pass} {c : Char} (h : AgreeBelow convert convert' (cs.length + 1)) :
    step b convert p c cs = step b convert' p c cs := by
  by_cases hc : c = '['
  · subst hc
    exact bracketStep_congr h
  · simp only [step, beq_false_of_ne hc, Bool.false_eq_true, if_false]

theorem run_congr (h : AgreeBelow convert convert' t.length) (p : Pass) (jump : Nat) :
    run b convert p jump t = run b convert' p jump t := by
  induction t generalizing p jump with
  | nil => rfl
  | cons c cs ih =>
    have hcs : AgreeBelow convert convert' cs.length := h.mono (Nat.le_succ _)
    cases jump with
    | succ jump => exact ih hcs _ jump
    | zero =>
      rw [run, run, step_congr h]
      exact ih hcs _ _

/-- The depth that is allowed makes no difference, if it is more than the text is long. -/
theorem toScriptWithin_eq {b : Bindings} {depth depth' : Nat} (h : t.length < depth)
    (h' : t.length < depth') :
    toScriptWithin b depth t = toScriptWithin b depth' t := by
  induction depth generalizing depth' t with
  | zero => omega
  | succ depth ih =>
    cases depth' with
    | zero => omega
    | succ depth' =>
      have htrim := length_trim_le t
      refine run_congr (fun u hu => ih ?_ ?_) _ _ <;> omega

/-- Blanks around an expression are left aside. -/
theorem toScript_trim (b : Bindings) (t : Text) : toScript b (trim t) = toScript b t := by
  have htrim := length_trim_le t
  rw [toScript, toScriptWithin_eq (Nat.lt_succ_self _) (Nat.lt_succ_of_le htrim),
    ← (reproduces b (t.length + 1)).trim (Nat.lt_succ_self _), toScript]

theorem toScript_eq_run (b : Bindings) (t : Text) :
    toScript b t = run b (toScriptWithin b t.length) {} 0 (trim t) := rfl

end Depth

/-! ## The first character -/

/-- Whether a text starts as an array or an object does. -/
def startsLiteral (t : Text) : Bool := Text.startsWith "[" t || Text.startsWith "\x7b" t

theorem startsLiteral_cons (c : Char) (cs : Text) :
    startsLiteral (c :: cs) = (c == '[' || c == '\x7b') := by
  have hstarts (d : Char) : Text.startsWith [d] (c :: cs) = (c == d) :=
    (Bool.and_true _).trans BEq.comm
  exact congrArg₂ _ (hstarts '[') (hstarts '\x7b')

theorem startsLiteral_toScript (b : Bindings) (t : Text) :
    startsLiteral (toScript b t) = startsLiteral (trim t) := by
  rw [toScript_eq_run]
  cases htrim : trim t with
  | nil => rfl
  | cons c cs =>
    have hc : isBlank c = false := by simpa [htrim] using Text.head?_trim t
    obtain ⟨d, rest, hrun, hopens, -⟩ := head_run b (toScriptWithin b t.length) cs hc
    rw [hrun, startsLiteral_cons, startsLiteral_cons]
    exact hopens

end Expression
end BladeView
