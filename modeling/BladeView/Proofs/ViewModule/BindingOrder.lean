import BladeView.Proofs.Declaration.WellFormed
import BladeView.ViewModule.State

/-!
# The order in which declarations are bound

The statements of a view's declarations stand in groups: first the bindings of plain declarations, at
the end the wiring of state. Within each group the declarations keep the order of the document, and
a piece of state is always bound after all that is plain, wherever it was declared. So of two
declarations the earlier one is bound first, unless it is state and the later one is not.

## Main statements

* `Declarations.bindingOrder_iff`: which of two declarations of a template is bound first.
-/
namespace BladeView

open Script
open Prod (fst snd)
open StatePair (wiring)

variable {d : Declaration} {i j : Nat} {stmt : Stmt}

namespace Declaration

/-- Whether a statement binds the names of a declaration: a fixed name without a value has none. -/
def isBound (d : Declaration) : Bool := d.state.isSome || d.kind != .const || d.value.isSome

/-- The statement that binds the names of a declaration; for a piece of state, the one that binds its
key. -/
def bindingStatement? (d : Declaration) : Option Stmt :=
  match d.state with
  | some s => some (.declare s.key (some .null))
  | none => d.binding.head?

/-- The wiring of a piece of state, with `i` at the statement that binds its key. -/
def wiringAt (d : Declaration) (i : Nat) : List (Stmt × Option Nat) :=
  d.state.toList.flatMap fun s => s.wiring.map fun stmt =>
    match stmt with
    | .declare .. => (stmt, some i)
    | _ => (stmt, none)

theorem map_fst_wiringAt (d : Declaration) (i : Nat) :
    (d.wiringAt i).map fst = d.state.toList.flatMap wiring := by
  cases h : d.state <;> simp [wiringAt, h, wiring]

theorem filterMap_snd_wiringAt (d : Declaration) (i : Nat) :
    (d.wiringAt i).filterMap snd = if d.state.isSome then [i] else [] := by
  cases h : d.state <;> simp [wiringAt, h, wiring]

theorem bindingStatement?_of_mem_wiringAt {k : Nat} (h : (stmt, some k) ∈ d.wiringAt i) :
    k = i ∧ d.bindingStatement? = some stmt := by
  cases hstate : d.state with
  | none => simp [wiringAt, hstate] at h
  | some s =>
    simp only [wiringAt, hstate, wiring, Option.toList_some, List.flatMap_cons,
      List.flatMap_nil, List.append_nil, List.map_cons, List.map_nil, List.mem_cons, Prod.mk.injEq,
      Option.some.injEq, reduceCtorEq, and_false, List.not_mem_nil, false_or, or_false] at h
    simp [bindingStatement?, hstate, h]

theorem bindingStatement?_of_mem_binding (h : stmt ∈ d.binding) :
    d.bindingStatement? = some stmt := by
  unfold binding at h
  unfold bindingStatement? binding
  cases hstate : d.state with
  | some s => simp [hstate] at h
  | none =>
    cases hkind : d.kind with
    | vars => simp_all
    | «let» => simp_all
    | const => cases hvalue : d.value <;> simp_all
    | useState => simp_all

/-- A plain declaration becomes one statement, or none. -/
theorem map_binding (d : Declaration) (i : Nat) :
    d.binding.map (fun _ => i) = if d.binding.isEmpty then [] else [i] := by
  unfold binding
  split
  · rfl
  · cases d.kind with
    | vars => rfl
    | «let» => rfl
    | const => cases d.value <;> rfl
    | useState => rfl

theorem isEmpty_binding_of_isSome (h : d.state.isSome = true) : d.binding.isEmpty = true := by
  simp [binding, h]

/-- A plain declaration of a template has a statement just if it is bound. -/
theorem isEmpty_binding_eq (hplain : d.state.isSome = false) (hkind : d.kind ≠ .useState) :
    d.binding.isEmpty = !d.isBound := by
  unfold binding isBound
  rw [hplain]
  cases h : d.kind with
  | vars => rfl
  | «let» => rfl
  | const => cases d.value <;> rfl
  | useState => exact absurd h hkind

end Declaration

namespace Declarations

/-! ## Emissions -/

/-- The statements of the declarations, each with the place of the declaration whose names it
binds. -/
def emissions (ds : Declarations) : List (Stmt × Option Nat) :=
  let names := ds.flatMap Declaration.updatable
  (.const "__UPDATE_DATA_TRAIT__" (.raw "\x7b\x7d"), none)
      :: ds.zipIdx.flatMap (fun (d, i) => d.binding.map fun stmt => (stmt, some i))
    ++ names.map (fun name => (updateTrait name, none))
    ++ [(.const "__VARIABLE_LIST__" (Expr.strings names), none)]
    ++ ds.zipIdx.flatMap (fun (d, i) => d.wiringAt i)

/-- The declarations by their places, in the order in which they are bound. -/
def bindingOrder (ds : Declarations) : List Nat := ds.emissions.filterMap Prod.snd

theorem flatMap_zipIdx_fst {β : Type} (f : Declaration → List β) (ds : Declarations) (n : Nat) :
    (ds.zipIdx n).flatMap (fun e => f e.1) = ds.flatMap f := by
  induction ds generalizing n with
  | nil => rfl
  | cons d ds ih => simp [List.zipIdx_cons, ih]

theorem flatMap_wiring_states (ds : Declarations) :
    ds.flatMap (fun d => d.state.toList.flatMap wiring) =
      ds.states.flatMap wiring := by
  unfold states
  induction ds with
  | nil => rfl
  | cons d ds ih => cases h : d.state <;> simp [h, ih]

/-- The emissions are the statements, in their order. -/
theorem map_fst_emissions (ds : Declarations) : ds.emissions.map fst = ds.statements := by
  have hbinding := flatMap_zipIdx_fst Declaration.binding ds 0
  have hwiring := flatMap_zipIdx_fst (fun d => d.state.toList.flatMap wiring) ds 0
  simp [emissions, statements, List.map_flatMap, Declaration.map_fst_wiringAt, Function.comp_def,
    hbinding, hwiring, flatMap_wiring_states]

/-- A statement is marked with the declaration whose names it binds. -/
theorem bindingStatement?_of_mem_emissions {ds : Declarations} (h : (stmt, some i) ∈ ds.emissions) :
    ∃ d, ds[i]? = some d ∧ d.bindingStatement? = some stmt := by
  simp only [emissions, List.cons_append, List.mem_cons, List.mem_append, List.mem_flatMap,
    List.mem_map, Prod.mk.injEq, reduceCtorEq, and_false, exists_const, false_or, or_false,
    List.not_mem_nil, Option.some.injEq, Prod.exists] at h
  rcases h with ⟨d, k, hd, stmt', hstmt, rfl, rfl⟩ | ⟨d, k, hd, hstmt⟩
  · exact ⟨d, List.mk_mem_zipIdx_iff_getElem?.1 hd,
      Declaration.bindingStatement?_of_mem_binding hstmt⟩
  · obtain ⟨rfl, hbinds⟩ := Declaration.bindingStatement?_of_mem_wiringAt hstmt
    exact ⟨d, List.mk_mem_zipIdx_iff_getElem?.1 hd, hbinds⟩

/-- The places of the declarations that satisfy `p`, in document order. -/
def placesWhere (p : Declaration → Bool) (ds : Declarations) : List Nat :=
  (ds.zipIdx.filter fun e => p e.1).map Prod.snd

theorem placesWhere_eq_flatMap (p : Declaration → Bool) (ds : Declarations) :
    ds.placesWhere p = ds.zipIdx.flatMap fun e => if p e.1 then [e.2] else [] := by
  unfold placesWhere
  induction ds.zipIdx with
  | nil => rfl
  | cons e entries ih => cases h : p e.1 <;> simp [h, ih]

/-- Plain declarations are bound in document order, and after them state in document order. -/
theorem bindingOrder_eq (ds : Declarations) :
    ds.bindingOrder =
      ds.placesWhere (fun d => !d.binding.isEmpty) ++ ds.placesWhere (·.state.isSome) := by
  have hplain : (ds.zipIdx.flatMap fun e => e.1.binding.map fun stmt => (stmt, some e.2)).filterMap
      snd = ds.placesWhere fun d => !d.binding.isEmpty := by
    rw [List.filterMap_flatMap, placesWhere_eq_flatMap]
    congr 1
    funext e
    have hplace : (e.1.binding.map fun stmt => (stmt, some e.2)).filterMap snd =
        e.1.binding.map fun _ => e.2 := by
      rw [List.filterMap_map]
      exact congrFun List.filterMap_eq_map _
    rw [hplace, Declaration.map_binding]
    cases e.1.binding.isEmpty <;> rfl
  have htraits : ∀ names : List Text,
      (names.map fun name => (updateTrait name, (none : Option Nat))).filterMap snd = [] := by
    intro names
    rw [List.filterMap_map, List.filterMap_eq_nil_iff]
    exact fun _ _ => rfl
  have hstate : (ds.zipIdx.flatMap fun e => e.1.wiringAt e.2).filterMap snd =
      ds.placesWhere (·.state.isSome) := by
    rw [List.filterMap_flatMap, placesWhere_eq_flatMap]
    congr 1
    funext e
    exact Declaration.filterMap_snd_wiringAt e.1 e.2
  rw [bindingOrder, emissions, List.filterMap_append, List.filterMap_append, List.filterMap_append,
    List.filterMap_cons_none rfl, hplain, htraits, hstate, List.filterMap_cons_none rfl,
    List.filterMap_nil, List.append_nil, List.append_nil]

theorem mem_placesWhere {p : Declaration → Bool} {ds : Declarations} (h : ds[i]? = some d) :
    i ∈ ds.placesWhere p ↔ p d = true := by
  have hmem : ∀ e : Declaration, (e, i) ∈ ds.zipIdx ↔ e = d := by
    intro e
    rw [List.mk_mem_zipIdx_iff_getElem?, h]
    exact ⟨fun h => (Option.some.inj h).symm, fun h => h ▸ rfl⟩
  simp [placesWhere, hmem]

theorem pairwise_placesWhere (p : Declaration → Bool) (ds : Declarations) :
    (ds.placesWhere p).Pairwise (· < ·) := by
  have hsub : (ds.placesWhere p).Sublist (ds.zipIdx.map snd) := List.filter_sublist.map _
  rw [List.zipIdx_map_snd] at hsub
  exact List.Pairwise.sublist hsub (List.pairwise_lt_range')

/-! ## Two declarations -/

/-- In an increasing list the smaller of two members comes first. -/
theorem pair_sublist_iff {places : List Nat} (h : places.Pairwise (· < ·)) (i j : Nat) :
    [i, j].Sublist places ↔ i < j ∧ i ∈ places ∧ j ∈ places := by
  induction places with
  | nil => simp
  | cons k places ih =>
    have hfirst := (List.pairwise_cons.1 h).1
    rw [List.sublist_cons_iff, ih (List.pairwise_cons.1 h).2]
    constructor
    · rintro (⟨hij, hi, hj⟩ | ⟨rest, heq, hrest⟩)
      · exact ⟨hij, .tail _ hi, .tail _ hj⟩
      · obtain ⟨rfl, rfl⟩ := List.cons.inj heq
        have hj : j ∈ places := List.singleton_sublist.1 hrest
        exact ⟨hfirst j hj, .head _, .tail _ hj⟩
    · rintro ⟨hij, hi, hj⟩
      rcases List.mem_cons.1 hi with rfl | hi
      · have hj : j ∈ places := (List.mem_cons.1 hj).resolve_left (by omega)
        exact .inr ⟨[j], rfl, List.singleton_sublist.2 hj⟩
      · have hlt := hfirst i hi
        have hj : j ∈ places := (List.mem_cons.1 hj).resolve_left (by omega)
        exact .inl ⟨hij, hi, hj⟩

theorem pair_sublist_append {front back : List Nat} :
    [i, j].Sublist (front ++ back) ↔
      [i, j].Sublist front ∨ (i ∈ front ∧ j ∈ back) ∨ [i, j].Sublist back := by
  rw [List.sublist_append_iff]
  constructor
  · rintro ⟨l, r, heq, hl, hr⟩
    rcases l with _ | ⟨a, _ | ⟨b, l⟩⟩
    · exact .inr (.inr (heq ▸ hr))
    · obtain ⟨rfl, rfl⟩ := List.cons.inj heq
      exact .inr (.inl ⟨List.singleton_sublist.1 hl, List.singleton_sublist.1 hr⟩)
    · simp only [List.cons_append, List.cons.injEq] at heq
      obtain ⟨rfl, rfl, hnil⟩ := heq
      rw [(List.append_eq_nil_iff.1 hnil.symm).1] at hl
      exact .inl hl
  · rintro (h | ⟨hi, hj⟩ | h)
    · exact ⟨[i, j], [], rfl, h, List.nil_sublist _⟩
    · exact ⟨[i], [j], rfl, List.singleton_sublist.2 hi, List.singleton_sublist.2 hj⟩
    · exact ⟨[], [i, j], rfl, List.nil_sublist _, h⟩

/-- One declaration is bound before another if it comes first among those of its group, or if it is
plain and the other is state. -/
theorem pair_sublist_bindingOrder (ds : Declarations) {e : Declaration} (hd : ds[i]? = some d)
    (he : ds[j]? = some e) :
    [i, j].Sublist ds.bindingOrder ↔
      (i < j ∧ d.binding.isEmpty = false ∧ e.binding.isEmpty = false) ∨
      (d.binding.isEmpty = false ∧ e.state.isSome = true) ∨
      (i < j ∧ d.state.isSome = true ∧ e.state.isSome = true) := by
  rw [bindingOrder_eq, pair_sublist_append, pair_sublist_iff (pairwise_placesWhere _ ds),
    pair_sublist_iff (pairwise_placesWhere _ ds)]
  simp only [mem_placesWhere hd, mem_placesWhere he, Bool.not_eq_true']

/-- **Which of two declarations is bound first.** Every statement is marked with the declaration whose
names it binds. Of two declarations of a template that have such statements, the earlier one is
bound first, unless it is state and the later one is not: then it is bound last. -/
theorem bindingOrder_iff (t : Text) {i j : Nat} {d e : Declaration} (hij : i < j)
    (hd : (read t)[i]? = some d) (he : (read t)[j]? = some e) :
    (read t).emissions.map Prod.fst = (read t).statements ∧
    (∀ stmt k, (stmt, some k) ∈ (read t).emissions →
      ∃ f, (read t)[k]? = some f ∧ f.bindingStatement? = some stmt) ∧
    ([i, j].Sublist (read t).bindingOrder ↔
      d.isBound = true ∧ e.isBound = true ∧ (d.state.isSome = true → e.state.isSome = true)) ∧
    ([j, i].Sublist (read t).bindingOrder ↔
      d.isBound = true ∧ e.isBound = true ∧ d.state.isSome = true ∧ e.state.isSome = false) := by
  refine ⟨map_fst_emissions _, fun _ _ => bindingStatement?_of_mem_emissions, ?_⟩
  have hgroup : ∀ f ∈ read t, f.binding.isEmpty = !(f.isBound && !f.state.isSome) := by
    intro f hf
    cases hstate : f.state.isSome with
    | true => simp [Declaration.isEmpty_binding_of_isSome hstate]
    | false =>
      have hkind : f.kind ≠ .useState := by
        intro hkind
        rw [(wellFormed_of_mem_read hf).isSome_of_useState hkind] at hstate
        cases hstate
      simp [Declaration.isEmpty_binding_eq hstate hkind]
  have hbound : ∀ f : Declaration, f.state.isSome = true → f.isBound = true := by
    intro f hf
    simp [Declaration.isBound, hf]
  rw [pair_sublist_bindingOrder _ hd he, pair_sublist_bindingOrder _ he hd,
    hgroup d (List.mem_of_getElem? hd), hgroup e (List.mem_of_getElem? he)]
  have hd' := hbound d
  have he' := hbound e
  revert hd' he'
  have hji : ¬ j < i := by omega
  cases d.isBound <;> cases e.isBound <;> cases d.state.isSome <;> cases e.state.isSome <;>
    simp [hij, hji]

/-- A template with a piece of state and a name whose value refers to it. -/
def stateFirst : Text := "@useState(1, 'n', 'setN')\n@let($b = $n)"

/-- The state of the template. -/
def counter : Declaration where
  kind := .useState
  isDestructuring := false
  names := ["n", "setN"]
  defaults := [none, none]
  target := "[n, setN]"
  value := some "1"
  hasDefault := true
  isStateful := true
  state := some (.make "n" "setN" "1")

/-- The name that refers to the state. -/
def copy : Declaration where
  kind := .let
  isDestructuring := false
  names := ["b"]
  defaults := [none]
  target := "b"
  value := some "n"
  hasDefault := true
  isStateful := false
  state := none

/-- The name is bound to the value of the state before the state itself is bound. -/
theorem bindingOrder_iff_state_first :
    (read stateFirst)[0]? = some counter ∧ (read stateFirst)[1]? = some copy ∧
      ¬ [0, 1].Sublist (read stateFirst).bindingOrder ∧
      [1, 0].Sublist (read stateFirst).bindingOrder := by
  have hcounter : (read stateFirst)[0]? = some counter := by decide +kernel
  have hcopy : (read stateFirst)[1]? = some copy := by decide +kernel
  obtain ⟨-, -, hfirst, hlast⟩ := bindingOrder_iff stateFirst Nat.zero_lt_one hcounter hcopy
  refine ⟨hcounter, hcopy, ?_, hlast.2 (by decide)⟩
  intro h
  exact absurd ((hfirst.1 h).2.2 rfl) (by decide)

end Declarations
end BladeView
