import BladeView.Files.Tree
import BladeView.Proofs.Text.Basic

/-!
# Where paths lead

The tree decides whether a path can be followed, but not where it leads: that is in the path
alone. So two operations on a tree touch the same node exactly if their paths lead to the same
place, whatever happened to the tree between them.
-/
namespace BladeView

variable {name : Text}

/-! ## Places -/

namespace Place

/-- The place that a step leads to. -/
def go (place : Place) : Path.Component → Place
  | .root => { base := .root }
  | .here => place
  | .up => place.up
  | .name n => place.child n

@[simp] theorem go_name (place : Place) (n : Text) : place.go (.name n) = place.child n := rfl

@[simp] theorem names_child (place : Place) (n : Text) :
    (place.child n).names = place.names ++ [n] := rfl

theorem child_injective (place : Place) : Function.Injective place.child := by
  intro m n h
  simpa [child] using h

end Place

/-- The place that a path leads to, if it can be followed. -/
def Path.place (p : Path) : Place := p.steps.foldl Place.go {}

namespace FileTree

/-! ## Nodes -/

variable {t t' : FileTree} {place other : Place} {p : Path} {bytes : List UInt8}

theorem find?_overwrite (node : FileNode) (entries : List (Place × FileNode)) :
    (entries.map fun entry => if entry.1 == place then (place, node) else entry).find?
        (fun entry => entry.1 == other) =
      if other = place then
        if entries.any fun entry => entry.1 == place then some (place, node) else none
      else entries.find? fun entry => entry.1 == other := by
  induction entries with
  | nil => simp
  | cons entry entries ih =>
    rw [List.map_cons, List.find?_cons, ih]
    by_cases heq : entry.1 = place <;> by_cases hother : other = place
    · simp [heq, hother]
    · have hne : (place == other) = false := beq_eq_false_iff_ne.mpr fun h => hother h.symm
      simp [heq, hother, hne]
    · have hne : (entry.1 == place) = false := beq_eq_false_iff_ne.mpr heq
      simp only [List.any_cons, hother, hne, Bool.false_or, Bool.false_eq_true, if_true, if_false]
    · simp [heq, hother, List.find?_cons]

theorem node?_put (node : FileNode) (h : place.names ≠ []) :
    (t.put place node).node? other = if other = place then some node else t.node? other := by
  by_cases hany : t.nodes.any (fun entry => entry.1 == place) = true
  · simp only [node?, put, if_pos hany, find?_overwrite]
    by_cases hother : other = place <;> simp [hother, h]
  · have hnone : (t.nodes.find? fun entry => entry.1 == place) = none := by
      rw [List.find?_eq_none]
      intro entry hentry heq
      exact hany (List.any_eq_true.mpr ⟨entry, hentry, heq⟩)
    simp only [node?, put, if_neg hany, List.find?_append]
    by_cases hother : other = place
    · simp [hother, h, hnone]
    · have hne : place ≠ other := fun h => hother h.symm
      simp [hother, hne]

/-! ## Following paths -/

theorem directory_eq_ok (h : t.directory place = .ok other) :
    other = place ∧ t.node? place = some .directory := by
  unfold directory at h
  split at h <;> simp_all

theorem enter_eq_ok (h : enter place name = .ok other) : other = place.child name := by
  unfold enter at h
  split at h <;> simp_all

/-- Whether a step can be taken at a directory: a name must not be too long. -/
def CanTake : Path.Component → Prop
  | .name n => (Text.toBytes n).length ≤ maxName
  | _ => True

/-- A step is taken at a directory, and the others after it. -/
theorem follow_cons_eq_ok_iff {step : Path.Component} {steps : List Path.Component} :
    t.follow place (step :: steps) = .ok other ↔
      t.node? place = some .directory ∧ CanTake step ∧
        t.follow (place.go step) steps = .ok other := by
  by_cases hnode : t.node? place = some .directory
  · have hdirectory : t.directory place = .ok place := by simp [directory, hnode]
    rw [follow, hdirectory]
    cases step with
    | name n =>
      by_cases hshort : (Text.toBytes n).length ≤ maxName
      · have henter : enter place n = .ok (place.child n) := if_neg (Nat.not_lt.mpr hshort)
        simp [hnode, CanTake, hshort, henter, bind, Except.bind]
      · have henter : enter place n = .error .nameTooLong := if_pos (Nat.not_le.mp hshort)
        simp [CanTake, hshort, henter, bind, Except.bind]
    | _ => simp [hnode, CanTake, Place.go, bind, Except.bind]
  · have hdirectory : ∃ e, t.directory place = .error e := by
      rw [directory]
      split
      · exact absurd ‹_› hnode
      · exact ⟨_, rfl⟩
      · exact ⟨_, rfl⟩
    obtain ⟨e, hdirectory⟩ := hdirectory
    simp [follow, hdirectory, hnode, bind, Except.bind]

theorem follow_eq_ok {steps : List Path.Component} (h : t.follow place steps = .ok other) :
    other = steps.foldl Place.go place := by
  induction steps generalizing place with
  | nil => simpa [follow, eq_comm] using h
  | cons step steps ih =>
    obtain ⟨-, -, hrest⟩ := follow_cons_eq_ok_iff.mp h
    exact ih hrest

theorem stepsOf_eq_ok {steps : List Path.Component} (h : stepsOf p = .ok steps) :
    steps = p.steps := by
  unfold stepsOf at h
  split at h
  · simp at h
  split at h
  · simp at h
  split at h
  · simp at h
  · simpa [eq_comm] using h

theorem follow_name {steps : List Path.Component} (hdirectory : t.node? place = some .directory)
    (hshort : (Text.toBytes name).length ≤ maxName) :
    t.follow place (.name name :: steps) = t.follow (place.child name) steps := by
  have henter : enter place name = .ok (place.child name) := if_neg (Nat.not_lt.mpr hshort)
  simp [follow, directory, hdirectory, henter, bind, Except.bind]

/-- What it takes to find the place of a path. -/
theorem find_eq_ok_iff :
    t.find p = .ok place ↔ ∃ steps, stepsOf p = .ok steps ∧ t.follow {} steps = .ok place ∧
      (Text.endsWith "/" p → t.node? place = some .directory) := by
  cases hsteps : stepsOf p with
  | error e => simp [find, hsteps, bind, Except.bind]
  | ok steps =>
    cases hfollow : t.follow {} steps with
    | error e => simp [find, hsteps, hfollow, bind, Except.bind]
    | ok found =>
      simp only [find, hsteps, hfollow, bind, Except.bind, Except.ok.injEq, exists_eq_left']
      cases Text.endsWith "/" p with
      | false => simp
      | true =>
        rw [if_pos rfl]
        constructor
        · intro h
          obtain ⟨rfl, hnode⟩ := directory_eq_ok h
          exact ⟨rfl, fun _ => hnode⟩
        · rintro ⟨rfl, hnode⟩
          simp [directory, hnode rfl]

theorem find_eq_ok (h : t.find p = .ok place) : place = p.place := by
  obtain ⟨steps, hsteps, hfollow, -⟩ := find_eq_ok_iff.mp h
  rw [follow_eq_ok hfollow, stepsOf_eq_ok hsteps, Path.place]

theorem exists_of_findLast_eq_ok {last : Path.Component} (h : t.findLast p = .ok (place, last)) :
    ∃ front, stepsOf p = .ok (front ++ [last]) ∧ t.follow {} front = .ok place ∧
      t.node? place = some .directory := by
  rw [findLast] at h
  cases hsteps : stepsOf p with
  | error e => simp [hsteps, bind, Except.bind] at h
  | ok steps =>
    cases hlast : steps.getLast? with
    | none => simp [hsteps, hlast, bind, Except.bind] at h
    | some step =>
      obtain ⟨front, rfl⟩ := List.getLast?_eq_some_iff.mp hlast
      cases hfollow : t.follow {} front with
      | error e => simp [hsteps, hfollow, bind, Except.bind] at h
      | ok found =>
        cases hdirectory : t.directory found with
        | error e => simp [hsteps, hfollow, hdirectory, bind, Except.bind] at h
        | ok here =>
          simp only [hsteps, hlast, List.dropLast_concat, hfollow, hdirectory, bind, Except.bind,
            pure, Except.pure, Except.ok.injEq, Prod.mk.injEq] at h
          obtain ⟨rfl, rfl⟩ := h
          obtain ⟨rfl, hnode⟩ := directory_eq_ok hdirectory
          exact ⟨front, rfl, hfollow, hnode⟩

theorem findLast_eq_ok {last : Path.Component} (h : t.findLast p = .ok (place, last)) :
    p.place = place.go last := by
  obtain ⟨front, hsteps, hfollow, -⟩ := exists_of_findLast_eq_ok h
  rw [Path.place, ← stepsOf_eq_ok hsteps, List.foldl_append, ← follow_eq_ok hfollow]
  rfl

/-! ## Operations -/

theorem read_eq_ok {text : Text} (h : t.read p = .ok text) :
    ∃ bytes, t.node? p.place = some (.file bytes) ∧ Utf8.decode? bytes = some text := by
  unfold read readBytes at h
  cases hfind : t.find p with
  | error e => simp [hfind, bind, Except.bind] at h
  | ok place =>
    rw [← find_eq_ok hfind]
    simp only [hfind, bind, Except.bind] at h
    cases hnode : t.node? place with
    | none => simp [hnode] at h
    | some node =>
      cases node with
      | directory => simp [hnode] at h
      | file bytes =>
        refine ⟨bytes, rfl, ?_⟩
        cases hdecode : Utf8.decode? bytes with
        | none => simp [hnode, hdecode] at h
        | some text' => simpa [hnode, hdecode] using h

/-- A file is read if its path can be followed and it holds a text. -/
theorem read_of_follow {steps : List Path.Component} {text : Text}
    (hsteps : stepsOf p = .ok steps) (hfollow : t.follow {} steps = .ok place)
    (hend : Text.endsWith "/" p = false) (hnode : t.node? place = some (.file bytes))
    (hdecode : Utf8.decode? bytes = some text) : t.read p = .ok text := by
  have hfind : t.find p = .ok place := by
    simp only [find, hsteps, hfollow, hend, bind, Except.bind]
    rfl
  simp only [read, readBytes, hfind, hnode, hdecode, bind, Except.bind]

/-- A file is written if its directory can be found and no directory is in its place. -/
theorem write_of_follow {steps : List Path.Component}
    (hsteps : stepsOf p = .ok (steps ++ [.name name])) (hfollow : t.follow {} steps = .ok place)
    (hdirectory : t.node? place = some .directory) (hend : Text.endsWith "/" p = false)
    (hshort : (Text.toBytes name).length ≤ maxName)
    (hnode : t.node? (place.child name) ≠ some .directory) :
    t.write p bytes = .ok (t.put (place.child name) (.file bytes)) := by
  have henter : enter place name = .ok (place.child name) := if_neg (Nat.not_lt.mpr hshort)
  have hlast : t.findLast p = .ok (place, .name name) := by
    simp [findLast, hsteps, hfollow, directory, hdirectory, bind, Except.bind, pure, Except.pure]
  simp only [write, hlast, hend, henter, bind, Except.bind]
  rw [if_neg (by simp), if_neg (by simpa using hnode)]

theorem write_eq_ok (h : t.write p bytes = .ok t') :
    t' = t.put p.place (.file bytes) ∧ p.place.names ≠ [] := by
  unfold write at h
  cases hlast : t.findLast p with
  | error e => simp [hlast, bind, Except.bind] at h
  | ok found =>
    obtain ⟨place, step⟩ := found
    have hplace := findLast_eq_ok hlast
    cases step with
    | name n =>
      cases henter : enter place n with
      | error e =>
        simp only [hlast, henter, bind, Except.bind] at h
        split at h <;> simp at h
      | ok target =>
        obtain rfl := enter_eq_ok henter
        rw [hplace]
        simp only [hlast, henter, bind, Except.bind] at h
        split at h
        · simp at h
        split at h
        · simp at h
        · exact ⟨by simpa [eq_comm] using h, by simp⟩
    | _ => simp [hlast, bind, Except.bind] at h

end FileTree

/-! ## Names in a directory -/

namespace Path

theorem not_isAbsolute (hslash : '/' ∉ name) : isAbsolute name = false := by
  cases name with
  | nil => rfl
  | cons c rest =>
    rw [List.mem_cons, not_or] at hslash
    simp [isAbsolute, Text.startsWith, List.isPrefixOf, hslash.1]

theorem isAbsolute_append (front name : Text) :
    isAbsolute (front ++ '/' :: name) = isAbsolute (front ++ ['/']) := by
  cases front <;> simp [isAbsolute, Text.startsWith, List.isPrefixOf]

theorem splitOn_name (front : Path) (hslash : '/' ∉ name) :
    Text.splitOn '/' (front ++ '/' :: name) = Text.splitOn '/' front ++ [name] := by
  rw [Text.splitOn_append, Text.splitOn_of_notMem hslash]

/-- Whatever is read of a path, a name in a directory comes last if it does so after a slash and a
slash at the end of the directory makes no difference. -/
theorem read_join {α : Type} {read : Path → List α} {last : α} (dir : Path) (hslash : '/' ∉ name)
    (hname : read name = read [] ++ [last])
    (hend : ∀ dir, dir ≠ [] → read (dir ++ ['/']) = read dir)
    (happend : ∀ front, read (front ++ '/' :: name) = read (front ++ ['/']) ++ [last]) :
    read (dir.join name) = read dir ++ [last] := by
  rw [join, not_isAbsolute hslash, if_neg (by simp)]
  by_cases hempty : dir = []
  · subst hempty
    exact hname
  by_cases hslash : Text.endsWith "/" dir = true
  · obtain ⟨front, rfl⟩ := List.isSuffixOf_iff_suffix.mp hslash
    rw [hslash, Bool.or_true, if_pos rfl, List.append_assoc]
    exact happend front
  · rw [Bool.not_eq_true] at hslash
    rw [hslash, Bool.or_false, if_neg (by simpa using hempty), List.append_assoc]
    exact (happend dir).trans (by rw [hend dir hempty])

theorem steps_join (dir : Path) (hslash : '/' ∉ name) (hne : name ≠ []) :
    steps (dir.join name) = steps dir ++ [step name] := by
  have hnil : '/' ∉ ([] : Text) := List.not_mem_nil
  refine read_join dir hslash ?_ (fun dir hdir => ?_) fun front => ?_
  · simp [steps, not_isAbsolute hslash, not_isAbsolute hnil, Text.splitOn_of_notMem hslash, hne,
      Text.splitOn]
  · obtain ⟨c, rest, rfl⟩ := List.exists_cons_of_ne_nil hdir
    simp only [steps, splitOn_name _ hnil, List.filter_append, List.map_append]
    simp [isAbsolute, Text.startsWith, List.isPrefixOf]
  · simp [steps, splitOn_name front hslash, splitOn_name front hnil, isAbsolute_append front name,
      hne]

/-- A name leads to its place in the directory that it is joined to. -/
theorem place_join (dir : Path) (hslash : '/' ∉ name) (hne : name ≠ [])
    (hstep : step name = .name name) : (dir.join name).place = dir.place.child name := by
  have hsteps : steps (dir.join name) = steps dir ++ [.name name] := by
    rw [steps_join dir hslash hne, hstep]
  rw [place, hsteps, List.foldl_append]
  rfl

end Path
end BladeView
