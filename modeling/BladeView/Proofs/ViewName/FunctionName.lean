import Mathlib.Logic.Relation
import BladeView.Build.Output
import BladeView.Compile
import BladeView.Proofs.Text.Basic
import BladeView.Proofs.Text.Capital
import BladeView.Proofs.Source.Verbatim

/-!
# Which views share a function

The name of a view's function keeps the letters of the view's name and forgets its dividers. Two
names that are respellings of one another, with dividers dropped before capitals and first letters
put in capitals, have one function name, and no others have. The index module imports each of its
names once if and only if no view's name is a respelling of another's.

## Main statements

* `Output.index_imports_nodup_iff`: when the index imports no name twice.
-/
namespace BladeView.ViewName

variable {v w view : Text} {c d : Char}

/-- The letters of a view's name as its function has them; `isStart` tells that a part starts
here. -/
def letters (isStart : Bool) : Text → Text
  | [] => []
  | c :: cs =>
    if isDivider c then letters true cs
    else (if isStart then upperChar c else [c]) ++ letters false cs

/-- Whether a part starts after a text. -/
def startsAfter (isStart : Bool) : Text → Bool
  | [] => isStart
  | c :: cs => startsAfter (isDivider c) cs

@[simp] theorem letters_nil (isStart : Bool) : letters isStart [] = [] := rfl

theorem letters_divider (hc : isDivider c) (isStart : Bool) (cs : Text) :
    letters isStart (c :: cs) = letters true cs := by
  simp [letters, hc]

theorem letters_start (hc : isDivider c = false) (cs : Text) :
    letters true (c :: cs) = upperChar c ++ letters false cs := by
  simp [letters, hc]

theorem letters_inside (hc : isDivider c = false) (cs : Text) :
    letters false (c :: cs) = c :: letters false cs := by
  simp [letters, hc]

theorem letters_append (isStart : Bool) (a b : Text) :
    letters isStart (a ++ b) = letters isStart a ++ letters (startsAfter isStart a) b := by
  induction a generalizing isStart with
  | nil => rfl
  | cons c cs ih =>
    by_cases hc : isDivider c = true
    · rw [List.cons_append, letters_divider hc, letters_divider hc, ih, startsAfter, hc]
    · rw [Bool.not_eq_true] at hc
      simp [letters, startsAfter, hc, ih]

theorem startsAfter_append (isStart : Bool) (a b : Text) :
    startsAfter isStart (a ++ b) = startsAfter (startsAfter isStart a) b := by
  induction a generalizing isStart with
  | nil => rfl
  | cons c cs ih => exact ih _

/-- A text without dividers inside a part stays as it is. -/
theorem letters_false_append {a : Text} (ha : ∀ c ∈ a, isDivider c = false) (b : Text) :
    letters false (a ++ b) = a ++ letters false b := by
  induction a with
  | nil => rfl
  | cons c cs ih =>
    have hcs : ∀ d ∈ cs, isDivider d = false := fun d hd => ha d (List.mem_cons_of_mem c hd)
    rw [List.cons_append, letters_inside (ha c List.mem_cons_self), ih hcs, List.cons_append]

theorem flatten_nameParts (view : Text) :
    ((nameParts view).map Text.capitalize).flatten = letters true view ∧
      ∃ part parts, nameParts view = part :: parts ∧
        part ++ (parts.map Text.capitalize).flatten = letters false view := by
  induction view with
  | nil => exact ⟨rfl, [], [], rfl, rfl⟩
  | cons c cs ih =>
    obtain ⟨htrue, part, parts, hparts, hfalse⟩ := ih
    by_cases hc : isDivider c = true
    · rw [letters_divider hc, letters_divider hc, nameParts, if_pos hc]
      exact ⟨htrue, [], nameParts cs, rfl, htrue⟩
    · rw [Bool.not_eq_true] at hc
      rw [letters_start hc, letters_inside hc, nameParts, hparts, ← hfalse]
      refine ⟨by simp [hc, Text.consFirst, Text.capitalize], c :: part, parts, ?_, rfl⟩
      simp [hc, Text.consFirst]

/-- A function name, given its letters. -/
def named : Text → Text
  | [] => "View"
  | c :: cs => if c.isDigit then "View" ++ c :: cs else c :: cs

theorem functionName_eq (view : Text) : functionName view = named (letters true view) := by
  rw [functionName, (flatten_nameParts view).1]
  cases letters true view <;> rfl

/-! ### Respellings -/

/-- One name is another's, spelled otherwise: the first letter of a part in capitals, a divider
dropped that has no small letter after it, or the word in front of a name that would be empty or
start with a digit. -/
inductive Respelled : Text → Text → Prop
  | capital (before : Text) (c : Char) (after : Text) (hstart : startsAfter true before)
      (hc : isDivider c = false) :
        Respelled (before ++ c :: after) (before ++ (upperChar c ++ after))
  | dropped (before : Text) (d : Char) (after : Text) (hd : isDivider d)
      (hafter : ∀ c ∈ after.head?, upperChar c = [c]) :
        Respelled (before ++ d :: after) (before ++ after)
  | worded (name : Text) (hname : ∀ c ∈ name.head?, c.isDigit) : Respelled name ("View" ++ name)

/-- Two names are respellings of one name. -/
def SameLetters : Text → Text → Prop := Relation.EqvGen Respelled

/-- A character is no divider if it has something that the dividers do not have. -/
theorem isDivider_eq_false {P : Char → Prop} (h : P c)
    (hP : ¬ P '.' ∧ ¬ P '-' ∧ ¬ P '_' ∧ ¬ P '/') : isDivider c = false := by
  by_contra hc
  simp only [Bool.not_eq_false, isDivider, Bool.or_eq_true, beq_iff_eq] at hc
  rcases hc with ((rfl | rfl) | rfl) | rfl <;> simp [hP] at h

theorem isDivider_of_isCapitalCode (h : isCapitalCode c.toNat) : isDivider c = false :=
  isDivider_eq_false (P := fun c => isCapitalCode c.toNat) h (by decide)

theorem isDivider_of_mem_upperChar (hc : isDivider c = false) (hd : d ∈ upperChar c) :
    isDivider d = false := by
  obtain ⟨-, -, -, -, hself | hcapital⟩ := exists_upperChar_eq c
  · rw [hself, List.mem_singleton] at hd
    exact hd ▸ hc
  · exact isDivider_of_isCapitalCode (hcapital d hd)

/-- The capital form of a letter stands for the letter at the start of a part. -/
theorem letters_upperChar (hc : isDivider c = false) (cs : Text) :
    letters true (upperChar c ++ cs) = letters true (c :: cs) := by
  obtain ⟨h, more, heq, hh, -⟩ := exists_upperChar_eq c
  have hnone : ∀ d ∈ h :: more, isDivider d = false :=
    fun d hd => isDivider_of_mem_upperChar hc (heq ▸ hd)
  have hmore : ∀ d ∈ more, isDivider d = false := fun d hd => hnone d (List.mem_cons_of_mem h hd)
  rw [letters_start hc, heq, List.cons_append, letters_start (hnone h List.mem_cons_self), hh,
    letters_false_append hmore]
  rfl

/-- Before a text that starts with no small letter a divider makes no difference. -/
theorem letters_eq_of_head {cs : Text} (h : ∀ c ∈ cs.head?, upperChar c = [c]) (isStart : Bool) :
    letters isStart cs = letters true cs := by
  cases cs with
  | nil => rfl
  | cons c cs =>
    have hc : upperChar c = [c] := h c rfl
    cases isStart <;> simp [letters, hc]

theorem isDivider_of_isDigit (h : c.isDigit) : isDivider c = false :=
  isDivider_eq_false (P := fun c => c.isDigit) h (by decide)

theorem upperChar_of_isDigit (h : c.isDigit) : upperChar c = [c] := by
  have hlt : c.toNat < 0x80 := Nat.lt_of_le_of_lt (isDigit_iff.1 h).2 (by decide)
  refine forall_ascii (P := fun c => c.isDigit → upperChar c = [c]) ?_ hlt h
  decide +kernel

theorem letters_view (name : Text) :
    letters true ("View" ++ name) = "View" ++ letters false name := by
  have hfirst : letters true ("View" ++ name) = upperChar 'V' ++ letters false ("iew" ++ name) :=
    letters_start (by decide) _
  have hcapital : upperChar 'V' = ['V'] := by decide
  rw [hfirst, hcapital, letters_false_append (Text.forall_mem_of_all (by decide))]
  rfl

theorem functionName_eq_of_respelled (h : Respelled v w) : functionName v = functionName w := by
  rw [functionName_eq, functionName_eq]
  cases h with
  | capital before c after hstart hc =>
    rw [letters_append, letters_append, hstart, letters_upperChar hc]
  | dropped before d after hd hafter =>
    rw [letters_append, letters_append, letters_divider hd,
      letters_eq_of_head hafter (startsAfter true before)]
  | worded _ hname =>
    rw [letters_view]
    cases v with
    | nil => rfl
    | cons c cs =>
      have hdigit : c.isDigit := hname c rfl
      have hc := isDivider_of_isDigit hdigit
      have hview : named ("View" ++ c :: letters false cs) = "View" ++ c :: letters false cs := rfl
      rw [letters_start hc, letters_inside hc, upperChar_of_isDigit hdigit, hview]
      simp [named, hdigit]

/-- The letters of a name start with a capital, or with a character that has none. -/
theorem upperChar_head?_letters (view : Text) :
    ∀ c ∈ (letters true view).head?, upperChar c = [c] := by
  induction view with
  | nil => simp
  | cons c cs ih =>
    by_cases hc : isDivider c = true
    · rwa [letters_divider hc]
    · rw [Bool.not_eq_true] at hc
      obtain ⟨h, more, heq, hh, -⟩ := exists_upperChar_eq c
      rw [letters_start hc, heq]
      simpa using hh

theorem isDivider_of_mem_letters {isStart : Bool} (h : d ∈ letters isStart view) :
    isDivider d = false := by
  induction view generalizing isStart with
  | nil => cases h
  | cons c cs ih =>
    by_cases hc : isDivider c = true
    · rw [letters_divider hc] at h
      exact ih h
    · rw [Bool.not_eq_true] at hc
      simp only [letters, hc, Bool.false_eq_true, if_false, List.mem_append] at h
      rcases h with h | h
      · cases isStart with
        | true => exact isDivider_of_mem_upperChar hc h
        | false => exact List.mem_singleton.1 h ▸ hc
      · exact ih h

theorem isDivider_of_mem_functionName (h : d ∈ functionName view) : isDivider d = false := by
  have hword : ∀ c ∈ ("View" : Text), isDivider c = false :=
    Text.forall_mem_of_all (by decide)
  rw [functionName_eq] at h
  cases hname : letters true view with
  | nil =>
    rw [hname] at h
    exact hword d h
  | cons c cs =>
    have hletters : d ∈ c :: cs → isDivider d = false := fun hd =>
      isDivider_of_mem_letters (hname ▸ hd)
    rw [hname, named] at h
    split at h
    · exact (List.mem_append.1 h).elim (hword d) hletters
    · exact hletters h

/-- A name can be respelled, part by part, until only its letters are left. A divider goes after
the letter that it makes a capital. -/
theorem sameLetters_letters (view : Text) :
    (∀ before, startsAfter true before →
        SameLetters (before ++ view) (before ++ letters true view)) ∧
      ∀ before, SameLetters (before ++ view) (before ++ letters false view) := by
  induction view with
  | nil => exact ⟨fun _ _ => .refl _, fun _ => .refl _⟩
  | cons c cs ih =>
    obtain ⟨hstart, hinside⟩ := ih
    by_cases hc : isDivider c = true
    · have hdrop : ∀ before, SameLetters (before ++ c :: cs) (before ++ letters true cs) := by
        intro before
        have hafter : startsAfter true (before ++ [c]) := by
          rw [startsAfter_append]
          exact hc
        have hrest := hstart (before ++ [c]) hafter
        rw [List.append_assoc, List.append_assoc] at hrest
        exact hrest.trans _ _ _ (.rel _ _ (.dropped before c _ hc (upperChar_head?_letters cs)))
      rw [letters_divider hc, letters_divider hc]
      exact ⟨fun before _ => hdrop before, hdrop⟩
    · rw [Bool.not_eq_true] at hc
      rw [letters_start hc, letters_inside hc]
      refine ⟨fun before hbefore => ?_, fun before => ?_⟩
      · have hrest := hinside (before ++ upperChar c)
        rw [List.append_assoc, List.append_assoc] at hrest
        exact .trans _ _ _ (.rel _ _ (.capital before c cs hbefore hc)) hrest
      · have hrest := hinside (before ++ [c])
        rwa [List.append_assoc, List.append_assoc] at hrest

theorem sameLetters_functionName (view : Text) : SameLetters view (functionName view) := by
  have hletters : SameLetters view (letters true view) := (sameLetters_letters view).1 [] rfl
  have hword : (∀ c ∈ (letters true view).head?, c.isDigit) →
      SameLetters view ("View" ++ letters true view) :=
    fun h => .trans _ _ _ hletters (.rel _ _ (.worded _ h))
  rw [functionName_eq]
  cases hname : letters true view with
  | nil =>
    rw [hname, List.append_nil] at hword
    exact hword (by simp)
  | cons c cs =>
    by_cases hc : c.isDigit
    · rw [named, if_pos hc]
      exact hname ▸ hword (by simpa [hname] using hc)
    · rw [named, if_neg hc]
      exact hname ▸ hletters

/-- Two views share a function if and only if their names are respellings of one another. -/
theorem functionName_eq_iff (v w : Text) : functionName v = functionName w ↔ SameLetters v w := by
  constructor
  · intro h
    have hw := (sameLetters_functionName w).symm
    exact .trans _ _ _ (sameLetters_functionName v) (h ▸ hw)
  · intro h
    induction h with
    | rel a b hstep => exact functionName_eq_of_respelled hstep
    | refl a => rfl
    | symm a b _ ih => exact ih.symm
    | trans a b c _ _ ihab ihbc => exact ihab.trans ihbc

/-! ### Names in small letters -/

/-- A part that starts with a small letter and holds no capitals. -/
def IsSmallPart : Text → Prop
  | [] => False
  | c :: cs => c.isLower ∧ ∀ d ∈ cs, d.isUpper = false

instance : DecidablePred IsSmallPart
  | [] => inferInstanceAs (Decidable False)
  | _ :: cs => @instDecidableAnd _ _ inferInstance (List.decidableBAll _ cs)

theorem upperChar_of_isLower (h : c.isLower) :
    upperChar c = [c.toUpper] ∧ c.toUpper.isUpper ∧ c.toUpper.isDigit = false ∧
      c.toUpper.toLower = c := by
  have hlt : c.toNat < 0x80 := by
    have hbounds := Bool.and_eq_true_iff.mp h
    simp only [decide_eq_true_eq, ge_iff_le, UInt32.le_iff_toNat_le] at hbounds
    exact Nat.lt_of_le_of_lt hbounds.2 (by decide)
  refine forall_ascii (P := fun c => c.isLower → upperChar c = [c.toUpper] ∧ c.toUpper.isUpper ∧
    c.toUpper.isDigit = false ∧ c.toUpper.toLower = c) ?_ hlt h
  decide +kernel

theorem takeWhile_flatten {parts : List Text} (h : ∀ part ∈ parts, IsSmallPart part) :
    (parts.map Text.capitalize).flatten.takeWhile (!·.isUpper) = [] := by
  cases parts with
  | nil => rfl
  | cons part parts =>
    have hpart := h part List.mem_cons_self
    cases part with
    | nil => exact hpart.elim
    | cons c cs =>
      obtain ⟨hcapital, hupper, -, -⟩ := upperChar_of_isLower hpart.1
      simp [Text.capitalize, hcapital, hupper]

/-- Parts in small letters can be told apart by their capitals. -/
theorem parts_eq_of_flatten_eq {ps qs : List Text} (hps : ∀ p ∈ ps, IsSmallPart p)
    (hqs : ∀ q ∈ qs, IsSmallPart q)
    (h : (ps.map Text.capitalize).flatten = (qs.map Text.capitalize).flatten) : ps = qs := by
  induction ps generalizing qs with
  | nil =>
    cases qs with
    | nil => rfl
    | cons q qs =>
      have hq := hqs q List.mem_cons_self
      cases q with
      | nil => exact hq.elim
      | cons e es => simp [Text.capitalize, (upperChar_of_isLower hq.1).1] at h
  | cons p ps ih =>
    have hp := hps p List.mem_cons_self
    have hrest : ∀ q ∈ ps, IsSmallPart q := fun q hq => hps q (List.mem_cons_of_mem p hq)
    cases p with
    | nil => exact hp.elim
    | cons c cs =>
      obtain ⟨hc, -, -, hlower⟩ := upperChar_of_isLower hp.1
      cases qs with
      | nil => simp [Text.capitalize, hc] at h
      | cons q qs =>
        have hq := hqs q List.mem_cons_self
        have hrest' : ∀ r ∈ qs, IsSmallPart r := fun r hr => hqs r (List.mem_cons_of_mem q hr)
        cases q with
        | nil => exact hq.elim
        | cons e es =>
          obtain ⟨he, -, -, hlower'⟩ := upperChar_of_isLower hq.1
          simp only [List.map_cons, List.flatten_cons, Text.capitalize, hc, he, List.cons_append,
            List.nil_append, List.cons.injEq] at h
          obtain ⟨hfirst, htail⟩ := h
          have hsame : c = e := by rw [← hlower, hfirst, hlower']
          -- the letters up to the next capital are the rest of the part
          have hcut := congrArg (List.takeWhile (!·.isUpper)) htail
          rw [List.takeWhile_append_of_pos (by simpa using hp.2), takeWhile_flatten hrest,
            List.takeWhile_append_of_pos (by simpa using hq.2), takeWhile_flatten hrest',
            List.append_nil, List.append_nil] at hcut
          subst hcut hsame
          rw [ih hrest hrest' (List.append_cancel_left htail)]

theorem functionName_of_small (h : ∀ part ∈ nameParts view, IsSmallPart part) :
    functionName view = ((nameParts view).map Text.capitalize).flatten := by
  obtain ⟨-, part, parts, hparts, -⟩ := flatten_nameParts view
  rw [functionName, hparts]
  have hpart : IsSmallPart part := h part (hparts ▸ List.mem_cons_self)
  cases part with
  | nil => exact hpart.elim
  | cons c cs =>
    obtain ⟨hcapital, -, hdigit, -⟩ := upperChar_of_isLower hpart.1
    simp [Text.capitalize, hcapital, hdigit]

/-- Two views with names in small letters share a function if and only if their names have the same
parts, and so differ in their dividers alone. -/
theorem functionName_eq_iff_of_small (hv : ∀ part ∈ nameParts v, IsSmallPart part)
    (hw : ∀ part ∈ nameParts w, IsSmallPart part) :
    functionName v = functionName w ↔ nameParts v = nameParts w := by
  rw [functionName_of_small hv, functionName_of_small hw]
  exact ⟨parts_eq_of_flatten_eq hv hw, fun h => by rw [h]⟩

theorem nodup_functionName_iff (views : List Text) :
    (views.map functionName).Nodup ↔ views.Pairwise fun v w => ¬ SameLetters v w := by
  rw [List.Nodup, List.pairwise_map]
  simp only [ne_eq, functionName_eq_iff]

theorem nodup_functionName_iff_of_small {views : List Text}
    (h : ∀ view ∈ views, ∀ part ∈ nameParts view, IsSmallPart part) :
    (views.map functionName).Nodup ↔ (views.map nameParts).Nodup := by
  rw [List.Nodup, List.Nodup, List.pairwise_map, List.pairwise_map]
  refine List.Pairwise.iff_of_mem fun {v w} hv hw => ?_
  rw [ne_eq, ne_eq, functionName_eq_iff_of_small (h v hv) (h w hw)]

end BladeView.ViewName

namespace BladeView.Output

open ViewName (functionName nameParts SameLetters IsSmallPart)

/-- The name that an import statement brings in. -/
def importedName? (line : Text) : Option Text := do
  let rest ← Text.after? "import \x7b " line
  let cut ← Text.cut? "\x7d from './" rest
  return cut.1.dropLast

/-- The names that the statements at the top of the index bring in. -/
def imported (modules : List ViewModule) : List Text :=
  (modules.map importLine).filterMap importedName?

/-- The name of a view's function can be read from the import statement. It holds no dots, and so
does not hold the text that ends it. -/
theorem importedName?_importLine {m : ViewModule} {view : Text}
    (h : m.functionName = functionName view) :
    importedName? (importLine m) = some m.functionName := by
  have hdot : '.' ∉ m.functionName ++ " " := by
    simp only [List.mem_append, not_or]
    refine ⟨fun hmem => ?_, by decide⟩
    exact absurd (ViewName.isDivider_of_mem_functionName (h ▸ hmem)) (by decide)
  have hclose : ¬ ("\x7d from './" : Text) <:+: m.functionName ++ " " :=
    fun hstands => hdot (hstands.subset (by decide))
  have hsplit (path : Text) :
      (" \x7d from './" : Text) ++ path = " " ++ '\x7d' :: (" from './" ++ path) := rfl
  obtain ⟨path, hline⟩ : ∃ path, importLine m =
      "import \x7b " ++ (m.functionName ++ (" \x7d from './" ++ path)) := by
    have hleft : ∃ path, importLine m =
        "import \x7b " ++ m.functionName ++ " \x7d from './" ++ path ++ "';" := ⟨_, rfl⟩
    obtain ⟨path, hleft⟩ := hleft
    exact ⟨path ++ "';", by simp only [hleft, List.append_assoc]⟩
  have hcut := Text.cut?_append (by decide : '\x7d' ∉ (" from './" : Text)) hclose path
  have hafter : Text.after? "import \x7b " (importLine m) =
      some (m.functionName ++ " " ++ '\x7d' :: (" from './" ++ path)) := by
    refine Text.after?_eq_some.2 (hline.trans ?_)
    rw [List.append_assoc]
    exact congrArg (fun t => "import \x7b ".toList ++ (m.functionName ++ t)) (hsplit path)
  calc importedName? (importLine m) = some (m.functionName ++ " ").dropLast := by
        rw [importedName?, hafter]
        exact congrArg (·.bind fun cut => some cut.1.dropLast) hcut
    _ = some m.functionName := by simp

theorem isInfix_index {modules : List ViewModule} {m : ViewModule} (h : m ∈ modules) :
    importLine m <:+: index modules ∧ indexEntry m <:+: index modules := by
  have himport : importLine m <:+: Text.join "\n" (modules.map importLine) :=
    Text.isInfix_join _ (List.mem_map_of_mem h)
  have hentry : indexEntry m <:+: Text.join ",\n" (modules.map indexEntry) :=
    Text.isInfix_join _ (List.mem_map_of_mem h)
  rw [index, List.append_assoc, List.append_assoc]
  refine ⟨himport.trans (List.infix_append' [] _ _), hentry.trans ?_⟩
  exact ⟨Text.join "\n" (modules.map importLine) ++ "\n\nexport const views = \x7b\n",
    "\n\x7d;\n", by simp⟩

theorem imported_compile (shared : SharedCode) (inputs : List (Text × Text)) :
    imported (inputs.map fun input => compile shared input.1 input.2) =
      (inputs.map (·.2)).map functionName := by
  induction inputs with
  | nil => rfl
  | cons input inputs ih =>
    have hname : importedName? (importLine (compile shared input.1 input.2)) =
        some (functionName input.2) := importedName?_importLine rfl
    simp only [imported, List.map_cons, List.filterMap_cons, hname] at ih ⊢
    rw [ih]

/-- For the modules of any views, each with a statement and an entry of its own in the index: no
name is imported twice, and so the table of views maps every view to its own function, if and only
if no view's name is a respelling of another's. Among names in small letters these are the names
with the same parts between other dividers. -/
theorem index_imports_nodup_iff (shared : SharedCode) (inputs : List (Text × Text)) :
    let modules := inputs.map fun input => compile shared input.1 input.2
    let views := inputs.map (·.2)
    imported modules = views.map functionName ∧
      (∀ m ∈ modules, importLine m <:+: index modules ∧ indexEntry m <:+: index modules) ∧
      ((imported modules).Nodup ↔ views.Pairwise fun v w => ¬ SameLetters v w) ∧
      ((∀ view ∈ views, ∀ part ∈ nameParts view, IsSmallPart part) →
        ((imported modules).Nodup ↔ (views.map nameParts).Nodup)) := by
  intro modules views
  have himported : imported modules = views.map functionName := imported_compile shared inputs
  refine ⟨himported, fun m hm => isInfix_index hm, ?_, ?_⟩
  · rw [himported, ViewName.nodup_functionName_iff]
  · intro hsmall
    rw [himported, ViewName.nodup_functionName_iff_of_small hsmall]

/-- A view in a directory and one with a hyphen in its name get one function between them. -/
theorem index_imports_nodup_iff_hyphen :
    let inputs : List (Text × Text) := [("<p>", "a.b"), ("<i>", "a-b")]
    (∀ view ∈ inputs.map (·.2), ∀ part ∈ nameParts view, IsSmallPart part) ∧
      ¬ (imported (inputs.map fun input => compile {} input.1 input.2)).Nodup := by
  intro inputs
  have hsmall : ∀ view ∈ inputs.map (·.2), ∀ part ∈ nameParts view, IsSmallPart part := by decide
  have hparts : ¬ ((inputs.map (·.2)).map nameParts).Nodup := by decide
  refine ⟨hsmall, fun hnodup => hparts ?_⟩
  exact ((index_imports_nodup_iff {} inputs).2.2.2 hsmall).1 hnodup

end BladeView.Output
