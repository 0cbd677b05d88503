import BladeView.Proofs.Files.Tree
import BladeView.Proofs.Text.Utf8

/-!
# What files hold after some writes

A tree to which files are written one after the other, with directories made between them. A path
that was written once can be read from then on, and holds the text that was written last at its
place.
-/
namespace BladeView.FileTree

variable {t t' t₁ t₂ : FileTree} {place other : Place} {p : Path} {bytes : List UInt8}

/-! ## What stays in a tree -/

/-- Everything in a tree is still there, as it was. -/
def Keeps (t t' : FileTree) : Prop :=
  ∀ place node, t.node? place = some node → t'.node? place = some node

/-- The directories of a tree are still there. -/
def KeepsDirectories (t t' : FileTree) : Prop :=
  ∀ place, t.node? place = some .directory → t'.node? place = some .directory

theorem Keeps.refl (t : FileTree) : t.Keeps t := fun _ _ h => h

theorem Keeps.trans (h : t.Keeps t₁) (h' : t₁.Keeps t₂) : t.Keeps t₂ :=
  fun place node hnode => h' place node (h place node hnode)

theorem Keeps.directories (h : t.Keeps t') : t.KeepsDirectories t' :=
  fun place => h place .directory

theorem KeepsDirectories.trans (h : t.KeepsDirectories t₁) (h' : t₁.KeepsDirectories t₂) :
    t.KeepsDirectories t₂ :=
  fun place hnode => h' place (h place hnode)

/-- A path that can be followed can be followed as long as the directories are there. -/
theorem KeepsDirectories.follow_eq (h : t.KeepsDirectories t') {steps : List Path.Component}
    (hfollow : t.follow place steps = .ok other) : t'.follow place steps = .ok other := by
  induction steps generalizing place with
  | nil => exact hfollow
  | cons step steps ih =>
    obtain ⟨hnode, htake, hrest⟩ := follow_cons_eq_ok_iff.mp hfollow
    exact follow_cons_eq_ok_iff.mpr ⟨h place hnode, htake, ih hrest⟩

theorem follow_append_eq_ok {front steps : List Path.Component} {middle : Place}
    (h : t.follow place front = .ok middle) (h' : t.follow middle steps = .ok other) :
    t.follow place (front ++ steps) = .ok other := by
  induction front generalizing place with
  | nil =>
    obtain rfl : place = middle := by simpa [follow] using h
    exact h'
  | cons step front ih =>
    obtain ⟨hnode, htake, hrest⟩ := follow_cons_eq_ok_iff.mp h
    exact follow_cons_eq_ok_iff.mpr ⟨hnode, htake, ih hrest⟩

theorem KeepsDirectories.find_eq (h : t.KeepsDirectories t') (hfind : t.find p = .ok place) :
    t'.find p = .ok place := by
  obtain ⟨steps, hsteps, hfollow, hslash⟩ := find_eq_ok_iff.mp hfind
  exact find_eq_ok_iff.mpr ⟨steps, hsteps, h.follow_eq hfollow, fun hend => h _ (hslash hend)⟩

/-- A path to which a file can be written can be found, and leads to no directory. -/
theorem find_of_write_eq_ok (h : t.write p bytes = .ok t') :
    t.find p = .ok p.place ∧ t.node? p.place ≠ some .directory := by
  rw [write] at h
  cases hlast : t.findLast p with
  | error e => simp [hlast, bind, Except.bind] at h
  | ok found =>
    obtain ⟨here, step⟩ := found
    obtain ⟨front, hsteps, hfollow, hnode⟩ := exists_of_findLast_eq_ok hlast
    have hplace := findLast_eq_ok hlast
    cases step with
    | name n =>
      simp only [hlast, bind, Except.bind] at h
      split at h
      · cases h
      case isFalse hslash =>
        cases henter : enter here n with
        | error e => simp [henter] at h
        | ok target =>
          have hplace' : p.place = target := hplace.trans (enter_eq_ok henter).symm
          have hfollow' : t.follow here [.name n] = .ok target := by
            simp [follow, directory, hnode, henter, bind, Except.bind]
          simp only [henter] at h
          refine ⟨find_eq_ok_iff.mpr ⟨_, hsteps, ?_, fun hend => absurd hend hslash⟩, ?_⟩
          · rw [hplace']
            exact follow_append_eq_ok hfollow hfollow'
          · intro hdirectory
            rw [← hplace', hdirectory] at h
            simp at h
    | _ => simp [hlast, bind, Except.bind] at h

/-- Writing a file keeps what is elsewhere, and all directories. -/
theorem keepsDirectories_of_write_eq_ok (h : t.write p bytes = .ok t') : t.KeepsDirectories t' := by
  obtain ⟨rfl, hne⟩ := write_eq_ok h
  intro place hnode
  have hother : place ≠ p.place := fun heq => (find_of_write_eq_ok h).2 (heq ▸ hnode)
  rw [node?_put _ hne, if_neg hother, hnode]

theorem keeps_of_makeDir_eq_ok (h : t.makeDir p = .ok t') : t.Keeps t' := by
  rw [makeDir] at h
  cases hlast : t.findLast p with
  | error e => simp [hlast, bind, Except.bind] at h
  | ok found =>
    obtain ⟨here, step⟩ := found
    cases step with
    | name n =>
      cases henter : enter here n with
      | error e => simp [hlast, henter, bind, Except.bind] at h
      | ok target =>
        obtain rfl := enter_eq_ok henter
        cases hnode : t.node? (here.child n) with
        | some node => simp [hlast, henter, hnode, bind, Except.bind] at h
        | none =>
          simp only [hlast, henter, hnode, bind, Except.bind, Option.isSome_none,
            Bool.false_eq_true, if_false, Except.ok.injEq] at h
          subst h
          intro place node hplace
          have hother : place ≠ here.child n := by
            rintro rfl
            simp [hnode] at hplace
          rw [node?_put _ (by simp), if_neg hother, hplace]
    | _ => simp [hlast, bind, Except.bind] at h

/-! ## Writing one file after the other -/

/-- Files were written one after the other. Before each of them, and at the end, things that were
not there may have been added. -/
inductive Writes : FileTree → List (Path × Text) → FileTree → Prop
  | done {t t' : FileTree} (hkeeps : t.Keeps t') : Writes t [] t'
  | write {t t₁ t₂ t' : FileTree} {p : Path} {text : Text} {rest : List (Path × Text)}
      (hkeeps : t.Keeps t₁) (hwrite : t₁.write p (Text.toBytes text) = .ok t₂)
      (hrest : Writes t₂ rest t') : Writes t ((p, text) :: rest) t'

/-- The text that was written last at a place. -/
def lastAt (place : Place) : List (Path × Text) → Option Text
  | [] => none
  | (p, text) :: rest => (lastAt place rest).or (if p.place = place then some text else none)

theorem mem_of_lastAt_eq_some {writes : List (Path × Text)} {text : Text}
    (h : lastAt place writes = some text) : ∃ p, (p, text) ∈ writes ∧ p.place = place := by
  induction writes with
  | nil => cases h
  | cons first rest ih =>
    obtain ⟨p, first⟩ := first
    rw [lastAt, Option.or_eq_some_iff] at h
    rcases h with h | ⟨-, h⟩
    · obtain ⟨q, hq, hplace⟩ := ih h
      exact ⟨q, List.mem_cons_of_mem _ hq, hplace⟩
    · simp only [Option.ite_none_right_eq_some, Option.some.injEq] at h
      obtain ⟨hplace, rfl⟩ := h
      exact ⟨p, List.mem_cons_self, hplace⟩

theorem exists_lastAt_eq_some {writes : List (Path × Text)} {w : Path × Text} (h : w ∈ writes) :
    ∃ text, lastAt w.1.place writes = some text := by
  induction writes with
  | nil => cases h
  | cons first rest ih =>
    obtain ⟨p, first⟩ := first
    rcases List.mem_cons.mp h with rfl | h
    · cases hrest : lastAt p.place rest with
      | none => exact ⟨first, by simp [lastAt, hrest]⟩
      | some text => exact ⟨text, by simp [lastAt, hrest]⟩
    · obtain ⟨text, htext⟩ := ih h
      exact ⟨text, by simp [lastAt, htext]⟩

namespace Writes

variable {writes : List (Path × Text)} {w : Path × Text}

theorem keepsDirectories (h : Writes t writes t') : t.KeepsDirectories t' := by
  induction h with
  | done hkeeps => exact hkeeps.directories
  | write hkeeps hwrite _ ih =>
    exact (hkeeps.directories.trans (keepsDirectories_of_write_eq_ok hwrite)).trans ih

/-- What is at a place after the writes: the text that was written last there, or what was there
before. -/
theorem node?_eq (h : Writes t writes t') (place : Place) :
    (∀ text, lastAt place writes = some text →
        t'.node? place = some (.file (Text.toBytes text))) ∧
      (lastAt place writes = none → ∀ node, t.node? place = some node →
        t'.node? place = some node) := by
  induction h with
  | done hkeeps => exact ⟨by simp [lastAt], fun _ => hkeeps place⟩
  | @write t t₁ t₂ t' p first rest hkeeps hwrite _ ih =>
    obtain ⟨hlast, hfirst⟩ := ih
    obtain ⟨rfl, hne⟩ := write_eq_ok hwrite
    cases hrest : lastAt place rest with
    | some text =>
      simp only [lastAt, hrest, Option.some_or, Option.some.injEq, reduceCtorEq, false_implies,
        and_true]
      rintro _ rfl
      exact hlast text hrest
    | none =>
      have hstays := hfirst hrest
      by_cases hplace : p.place = place
      · simp only [lastAt, hrest, hplace, Option.none_or, if_true, Option.some.injEq,
          reduceCtorEq, false_implies, and_true]
        rintro _ rfl
        exact hstays _ (by rw [node?_put _ hne, if_pos hplace.symm])
      · simp only [lastAt, hrest, hplace, Option.none_or, if_false, reduceCtorEq, false_implies,
          implies_true, true_and, true_implies]
        intro node hnode
        refine hstays node ?_
        rw [node?_put _ hne, if_neg fun heq => hplace heq.symm]
        exact hkeeps place node hnode

theorem find_eq (h : Writes t writes t') (hw : w ∈ writes) : t'.find w.1 = .ok w.1.place := by
  induction h with
  | done => cases hw
  | write _ hwrite hrest ih =>
    rcases List.mem_cons.mp hw with rfl | hw
    · have hkeeps := (keepsDirectories_of_write_eq_ok hwrite).trans hrest.keepsDirectories
      exact hkeeps.find_eq (find_of_write_eq_ok hwrite).1
    · exact ih hw

/-- A path that was written can be read, and holds the text that was written last at its place. -/
theorem read_eq (h : Writes t writes t') (hw : w ∈ writes) :
    ∃ text, lastAt w.1.place writes = some text ∧ t'.read w.1 = .ok text := by
  obtain ⟨text, htext⟩ := exists_lastAt_eq_some hw
  have hnode := (h.node?_eq w.1.place).1 text htext
  refine ⟨text, htext, ?_⟩
  simp [read, readBytes, h.find_eq hw, hnode, Utf8.decode?_toBytes, bind, Except.bind]

/-- Every path still holds the text that was written there, if and only if the texts that are
written at one place are equal. -/
theorem read_eq_iff (h : Writes t writes t') :
    (∀ w ∈ writes, t'.read w.1 = .ok w.2) ↔
      ∀ a ∈ writes, ∀ b ∈ writes, a.1.place = b.1.place → a.2 = b.2 := by
  constructor
  · intro hread a ha b hb hplace
    obtain ⟨text, hlast, htext⟩ := h.read_eq ha
    obtain ⟨text', hlast', htext'⟩ := h.read_eq hb
    rw [hread a ha, Except.ok.injEq] at htext
    rw [hread b hb, Except.ok.injEq] at htext'
    rw [hplace, hlast', Option.some.injEq] at hlast
    rw [htext, htext', hlast]
  · intro hsame w hw
    obtain ⟨text, hlast, htext⟩ := h.read_eq hw
    obtain ⟨p, hp, hplace⟩ := mem_of_lastAt_eq_some hlast
    rw [htext, hsame w hw (p, text) hp hplace.symm]

theorem append {more : List (Path × Text)} (h : Writes t writes t₁) (h' : Writes t₁ more t') :
    Writes t (writes ++ more) t' := by
  induction h with
  | done hkeeps =>
    cases h' with
    | done hkeeps' => exact .done (hkeeps.trans hkeeps')
    | write hkeeps' hwrite hrest => exact .write (hkeeps.trans hkeeps') hwrite hrest
  | write hkeeps hwrite _ ih => exact .write hkeeps hwrite (ih h')

end Writes

end BladeView.FileTree
