import Mathlib.Data.List.Nodup
import BladeView.Declaration.Reader

/-!
# What every declaration satisfies

Declarations come from five forms of argument lists: injected names, a local name, a local pattern,
and state by a pattern or by parts. Each form picks its names in a way of its own and drops what it
cannot use, from whatever the author wrote. All of them end in one shape, which those who index into
the names, the defaults and the state rely on.

## Main statements

* `Declaration.wellFormed_of_mem_ofArgs`: whatever an argument list declares has this shape.
* `Declarations.read_wellFormed`: so have all declarations of a template, and what is computed from
  them agrees with their names.
-/
namespace BladeView

variable {args t : Text} {d : Declaration} {ds : Declarations}

namespace Declaration

/-- The names, the defaults and the state of a declaration fit together. -/
structure WellFormed (d : Declaration) : Prop where
  names_ne_nil : d.names ≠ []
  isIdentifier_of_mem : ∀ name ∈ d.names, Name.isIdentifier name = true
  length_defaults : d.defaults.length = d.names.length
  isStateful_iff : d.isStateful = true ↔ ∃ s, d.state = some s
  names_of_state : ∀ s, d.state = some s →
    d.names = [s.key, s.setter] ∧ s.registrySetter = "set$" ++ s.key
  isStateful_of_useState : d.kind = .useState → d.isStateful = true
  plain_of_vars : d.kind = .vars → d.value = none ∧ d.state = none

/-- A declaration of state holds a pair. -/
theorem WellFormed.isSome_of_useState (h : d.WellFormed) (hkind : d.kind = .useState) :
    d.state.isSome = true :=
  Option.isSome_iff_exists.mpr (h.isStateful_iff.mp (h.isStateful_of_useState hkind))

/-! ## Injected names -/

theorem wellFormed_of_ofVars? (h : ofVars? args = some d) : d.WellFormed := by
  simp only [ofVars?] at h
  obtain ⟨hparts, h⟩ := Option.ite_none_left_eq_some.1 h
  cases h
  refine ⟨?_, ?_, ?_, by simp, ?_, ?_, ?_⟩
  · simpa [List.isEmpty_iff] using hparts
  · intro name hname
    obtain ⟨part, hpart, rfl⟩ := List.mem_map.mp hname
    exact (List.mem_filter.mp hpart).2
  · simp
  · intro s hs
    cases hs
  · intro hkind
    cases hkind
  · intro _
    exact ⟨rfl, rfl⟩

/-! ## Local names -/

/-- The names on the left of a binding are proper names, and there is at least one. -/
theorem boundNames?_spec {left : Text} {names : List Text} (h : boundNames? left = some names) :
    names ≠ [] ∧ ∀ name ∈ names, Name.isIdentifier name = true := by
  obtain ⟨-, hnames⟩ := Option.filter_eq_some_iff.mp h
  rw [Bool.and_eq_true, List.all_eq_true] at hnames
  exact ⟨by simpa using hnames.1, hnames.2⟩

theorem wellFormed_of_ofBinding? {kind : DeclarationKind} {part : Text}
    (h : ofBinding? kind part = some d) (hvars : kind ≠ .vars)
    (hstate : kind = .useState → d.state.isSome = true) : d.WellFormed := by
  obtain ⟨names, hnames, hd⟩ := Option.bind_eq_some_iff.mp h
  obtain ⟨hne, hidentifier⟩ := boundNames?_spec hnames
  cases hd
  refine ⟨hne, hidentifier, by simp, Option.isSome_iff_exists, ?_, hstate, ?_⟩
  · -- Only a pattern of two names can hold state, and these are its key and its setter.
    intro s hs
    dsimp only at hs
    split at hs
    case h_1 =>
      obtain ⟨initial, -, rfl⟩ := Option.map_eq_some_iff.mp hs
      exact ⟨rfl, rfl⟩
    case h_2 => cases hs
  · intro hkind
    exact absurd hkind hvars

/-! ## State -/

theorem wellFormed_of_ofStateParts? {parts : List Text} (h : ofStateParts? parts = some d) :
    d.WellFormed := by
  unfold ofStateParts? at h
  split at h
  case h_1 value keyPart rest =>
    simp only [Option.ite_none_right_eq_some, Bool.and_eq_true] at h
    obtain ⟨⟨hkey, hsetter⟩, heq⟩ := h
    cases heq
    refine ⟨List.cons_ne_nil _ _, ?_, rfl, by simp, ?_, fun _ => rfl, ?_⟩
    · intro name hname
      rcases List.mem_pair.mp hname with rfl | rfl
      · exact hkey
      · exact hsetter
    · intro s hs
      cases hs
      exact ⟨rfl, rfl⟩
    · intro hkind
      cases hkind
  case h_2 => cases h

theorem wellFormed_of_ofUseState? (h : ofUseState? args = some d) : d.WellFormed := by
  simp only [ofUseState?] at h
  split at h
  case isTrue =>
    obtain ⟨pattern, hpattern, rfl⟩ := Option.map_eq_some_iff.mp h
    obtain ⟨hbinding, hstate⟩ := Option.filter_eq_some_iff.mp hpattern
    -- The flag is set once more; a pattern with a pair has it already.
    exact { wellFormed_of_ofBinding? hbinding (by decide) fun _ => hstate with
      isStateful_iff := iff_of_true rfl (Option.isSome_iff_exists.mp hstate)
      isStateful_of_useState := fun _ => rfl }
  case isFalse => exact wellFormed_of_ofStateParts? h

/-- **Whatever an argument list declares is well formed.** -/
theorem wellFormed_of_mem_ofArgs {kind : DeclarationKind} (h : d ∈ ofArgs kind args) :
    d.WellFormed := by
  cases kind with
  | vars => exact wellFormed_of_ofVars? (Option.mem_toList.mp h)
  | useState => exact wellFormed_of_ofUseState? (Option.mem_toList.mp h)
  | «let» | const =>
    obtain ⟨part, -, hd⟩ := List.mem_filterMap.mp h
    exact wellFormed_of_ofBinding? hd (by decide) nofun

end Declaration

/-! ## Tables of names -/

namespace Bindings

theorem has_add {b : Bindings} (h : b.frozen = false) (name other : Text) :
    (b.add name).has other = true ↔ b.has other = true ∨ other = name := by
  unfold add
  rw [h, Bool.false_or]
  split
  case isTrue hname =>
    constructor
    · exact .inl
    · rintro (hother | rfl)
      · exact hother
      · exact hname
  case isFalse => simp [has]

@[simp] theorem frozen_add (b : Bindings) (name : Text) : (b.add name).frozen = b.frozen := by
  unfold add
  split <;> rfl

/-- A table of names has just those names. -/
theorem has_ofNames (names : List Text) (name : Text) :
    (ofNames names).has name = true ↔ name ∈ names := by
  have hfold : ∀ b : Bindings, b.frozen = false →
      ((names.foldl add b).has name = true ↔ b.has name = true ∨ name ∈ names) := by
    induction names with
    | nil => simp
    | cons first names ih =>
      intro b hb
      rw [List.foldl_cons, ih (b.add first) (by rw [frozen_add, hb]), has_add hb, List.mem_cons,
        or_assoc]
  exact (hfold empty rfl).trans (by simp [has, empty])

end Bindings

namespace Declarations

theorem mem_distinct {n : Text} {names : List Text} :
    n ∈ distinct names ↔ n ∈ names := by
  have hfold (seen : List Text) : n ∈ names.foldl
      (fun seen name => if seen.contains name then seen else seen ++ [name]) seen ↔
        n ∈ seen ∨ n ∈ names := by
    induction names generalizing seen with
    | nil => simp
    | cons name names ih =>
      rw [List.foldl_cons, ih]
      split
      case isTrue hseen =>
        have hmem : name ∈ seen := by simpa using hseen
        grind
      case isFalse => grind
  exact (hfold []).trans (or_iff_right List.not_mem_nil)

theorem nodup_distinct (names : List Text) : (distinct names).Nodup := by
  have hfold : ∀ seen : List Text, seen.Nodup → (names.foldl
      (fun seen name => if seen.contains name then seen else seen ++ [name]) seen).Nodup := by
    induction names with
    | nil => simp
    | cons name names ih =>
      intro seen hseen
      rw [List.foldl_cons]
      apply ih
      split
      case isTrue => exact hseen
      case isFalse hnew =>
        rw [← List.concat_eq_append]
        exact hseen.concat (by simpa using hnew)
  exact hfold [] List.nodup_nil

theorem mem_injectedNames {name : Text} :
    name ∈ ds.injectedNames ↔ ∃ d ∈ ds, d.kind = .vars ∧ name ∈ d.names := by
  simp [injectedNames, mem_distinct, and_assoc]

theorem hasInjected_iff : ds.hasInjected = true ↔ ds.injectedNames ≠ [] := by
  simp only [hasInjected, List.any_eq_true, Bool.and_eq_true, beq_iff_eq, Bool.not_eq_true',
    List.isEmpty_eq_false_iff]
  constructor
  · rintro ⟨d, hd, hkind, hnames⟩
    obtain ⟨name, hname⟩ := List.exists_mem_of_ne_nil d.names hnames
    exact List.ne_nil_of_mem (mem_injectedNames.mpr ⟨d, hd, hkind, hname⟩)
  · intro hne
    obtain ⟨name, hname⟩ := List.exists_mem_of_ne_nil _ hne
    obtain ⟨d, hd, hkind, hmem⟩ := mem_injectedNames.mp hname
    exact ⟨d, hd, hkind, List.ne_nil_of_mem hmem⟩

/-- The keys and the setters of state are among the names of well-formed declarations. -/
theorem has_bindings (h : ∀ d ∈ ds, d.WellFormed) (name : Text) :
    ds.bindings.has name = true ↔ ∃ d ∈ ds, name ∈ d.names := by
  rw [bindings, Bindings.has_ofNames, List.mem_flatMap]
  refine exists_congr fun d => and_congr_right fun hd => ?_
  cases hstate : d.state with
  | none => simp
  | some s =>
    rw [((h d hd).names_of_state s hstate).1, Option.map_some, Option.getD_some, List.mem_append,
      or_self]

theorem mem_readFrom {before : Option Char} {jump : Nat} {isOpaque : List Bool}
    (h : d ∈ readFrom before jump isOpaque t) :
    ∃ kind args, d ∈ Declaration.ofArgs kind args := by
  induction t generalizing before jump isOpaque with
  | nil => simp [readFrom] at h
  | cons c cs ih =>
    cases jump with
    | succ jump => exact ih h
    | zero =>
      simp only [readFrom] at h
      split at h
      · rename_i kind args _ _
        rcases List.mem_append.1 h with h | h
        · exact ⟨kind, args, h⟩
        · exact ih h
      · exact ih h

theorem wellFormed_of_mem_read (h : d ∈ read t) : d.WellFormed := by
  obtain ⟨kind, args, hd⟩ := mem_readFrom h
  exact Declaration.wellFormed_of_mem_ofArgs hd

/-- **Every declaration of a template is well formed.** So there is injected data just if there are
injected names, which are those of the injecting declarations without repetition, and the frozen
table of bindings has just the names of all declarations. -/
theorem read_wellFormed (t : Text) :
    (∀ d ∈ read t, d.WellFormed) ∧
    ((read t).hasInjected = true ↔ (read t).injectedNames ≠ []) ∧
    ((read t).injectedNames.Nodup ∧
      ∀ name, name ∈ (read t).injectedNames ↔ ∃ d ∈ read t, d.kind = .vars ∧ name ∈ d.names) ∧
    (read t).bindings.frozen = true ∧
    ∀ name, (read t).bindings.has name = true ↔ ∃ d ∈ read t, name ∈ d.names :=
  ⟨fun _ => wellFormed_of_mem_read, hasInjected_iff, ⟨nodup_distinct _, fun _ => mem_injectedNames⟩,
    rfl, has_bindings fun _ => wellFormed_of_mem_read⟩

/-- An injected name with a default, and a pattern that is bound to a call of the state function. -/
def nameAndPattern : Text := "@vars($a = 1, 2) @let([$n, $setN] = useState($a))"

/-- The number among the injected names is dropped, and the pattern holds state. -/
theorem read_wellFormed_nameAndPattern :
    (∃ d ∈ read nameAndPattern, d.isStateful = true ∧ d.names = ["n", "setN"] ∧ d.WellFormed) ∧
      (read nameAndPattern).injectedNames = ["a"] ∧
      (read nameAndPattern).bindings.has "setN" = true := by
  obtain ⟨hwellFormed, -, -, -, hbound⟩ := read_wellFormed nameAndPattern
  have hread : ∃ d ∈ read nameAndPattern, d.isStateful = true ∧ d.names = ["n", "setN"] := by
    decide +kernel
  obtain ⟨d, hd, hstateful, hnames⟩ := hread
  refine ⟨⟨d, hd, hstateful, hnames, hwellFormed d hd⟩, by decide +kernel, ?_⟩
  exact (hbound "setN").mpr ⟨d, hd, by simp [hnames]⟩

end Declarations
end BladeView
