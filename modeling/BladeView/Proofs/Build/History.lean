import BladeView.Build.Batch
import BladeView.Proofs.Build.Entry
import BladeView.Proofs.Files.Tree

/-!
# What the cache gives back

An entry is found by the name of its file, in which the names of several views may become one. It
is checked against the source and the shared code, but not against the view's name. So a module
from the cache is always one of the current source and shared code, but it is the module of the
view that was stored last in that file.

A history of a cache is any sequence of stored modules, from any view and any shared code, with
any changes to other files between them. That covers batches one after the other, and every order
in which the files of a batch may be compiled.

## Main statements

* `Cache.compileAll_outcome_iff`: what a batch gives for a file, and when that is the file's own
  module.
-/
namespace BladeView.Cache

open FileTree (follow_name maxName maxPath node? read_of_follow stepsOf system update)

/-! ## Files of entries -/

/-- The name of the file of a view's entry. -/
def fileName (view : Text) : Text :=
  view.map (fun c => if c == '/' || c == '\\' || c == ':' then '_' else c) ++ ".json"

theorem slash_notMem_fileName (view : Text) : '/' ∉ fileName view := by
  simp only [fileName, List.mem_append, List.mem_map, not_or, not_exists, not_and]
  refine ⟨?_, by decide⟩
  intro c _ h
  split at h <;> simp_all

theorem place_entryPath (dir : Path) (view : Text) :
    (entryPath dir view).place = dir.place.child (fileName view) := by
  have hlast : (fileName view).getLast? = some 'n' := by simp [fileName]
  have hdot : (fileName view == ".".toList) = false :=
    beq_eq_false_iff_ne.mpr fun h => by simp [h] at hlast
  have hdots : (fileName view == "..".toList) = false :=
    beq_eq_false_iff_ne.mpr fun h => by simp [h] at hlast
  have hstep : Path.step (fileName view) = .name (fileName view) := by
    rw [Path.step, hdot, hdots]
    rfl
  have hne : fileName view ≠ [] := by simp [fileName]
  exact Path.place_join dir (slash_notMem_fileName view) hne hstep

/-! ## Histories -/

/-- A module that was stored: the name of its view, and what it was compiled from. -/
structure Stored where
  view : Text
  shared : SharedCode
  source : Text
  deriving DecidableEq

namespace Stored

/-- The entry that is written for a stored module. -/
def entry (s : Stored) : CacheEntry := ⟨key s.shared s.source, compile s.shared s.source s.view⟩

/-- The texts of a key are of a length that its bytes can tell. -/
def Fits (s : Stored) : Prop := ∀ t ∈ [s.shared.function, s.shared.config, s.source], Cache.Fits t

end Stored

/-- What was stored last in the file of a view's entry. The latest module comes first. -/
def latest (log : List Stored) (view : Text) : Option Stored :=
  log.find? fun s => fileName s.view == fileName view

/-- How a tree with a cache in a directory can come about, and the modules that were stored on the
way, the latest first. -/
inductive History (dir : Path) : List Stored → FileTree → Prop
  /-- At first there are no files in the directory. -/
  | fresh {t : FileTree}
      (hnone : ∀ name bytes, t.node? (dir.place.child name) ≠ some (.file bytes)) : History dir [] t
  /-- The tree may change in any way that brings no new files into the directory. -/
  | change {log : List Stored} {t t' : FileTree} (history : History dir log t)
      (hkept : ∀ name bytes, t'.node? (dir.place.child name) = some (.file bytes) →
        t.node? (dir.place.child name) = some (.file bytes)) : History dir log t'
  /-- A module is stored. -/
  | store {log : List Stored} {t t' : FileTree} (history : History dir log t) (s : Stored)
      (hwrite : t.write (entryPath dir s.view) (Text.toBytes s.entry.print) = .ok t') :
      History dir (s :: log) t'

namespace History

variable {dir : Path} {log : List Stored} {t : FileTree}

/-- A file of the cache holds what was stored there last. -/
theorem file_eq (history : History dir log t) {name : Text} {bytes : List UInt8}
    (hfile : t.node? (dir.place.child name) = some (.file bytes)) :
    ∃ s, log.find? (fun s => fileName s.view == name) = some s ∧
      bytes = Text.toBytes s.entry.print := by
  induction history generalizing bytes with
  | fresh hnone => exact absurd hfile (hnone name bytes)
  | change _ hkept ih => exact ih (hkept name bytes hfile)
  | store _ s hwrite ih =>
    obtain ⟨rfl, hne⟩ := FileTree.write_eq_ok hwrite
    rw [FileTree.node?_put _ hne, place_entryPath] at hfile
    by_cases hname : fileName s.view = name
    · refine ⟨s, by simp [hname], ?_⟩
      simpa [hname, eq_comm] using hfile
    · have hplace : dir.place.child name ≠ dir.place.child (fileName s.view) := fun h =>
        hname (Place.child_injective _ h).symm
      rw [if_neg hplace] at hfile
      simpa [hname] using ih hfile

theorem read_entryPath (history : History dir log t) {view text : Text}
    (hread : t.read (entryPath dir view) = .ok text) :
    ∃ s, latest log view = some s ∧ CacheEntry.read? text = some s.entry := by
  obtain ⟨bytes, hnode, hdecode⟩ := FileTree.read_eq_ok hread
  rw [place_entryPath] at hnode
  obtain ⟨s, hlatest, rfl⟩ := history.file_eq hnode
  rw [Utf8.decode?_toBytes, Option.some.injEq] at hdecode
  exact ⟨s, hlatest, by rw [← hdecode, CacheEntry.read?_print]⟩

end History

/-! ## Operations on a cache with a history -/

private theorem run_bind {σ α β : Type} {x : StateM σ α} {f : α → StateM σ β} {s s' : σ} {a : α}
    (h : x.run s = (a, s')) : (x >>= f).run s = (f a).run s' := by
  rw [StateT.run_bind, h]
  rfl

section

variable {dir root path : Path} {log : List Stored} {t : FileTree} {shared : SharedCode}
  {view source : Text}

/-- The module of the entry that was stored last, if the entry can be read and its key agrees. -/
def lookup (dir : Path) (log : List Stored) (t : FileTree) (shared : SharedCode)
    (view source : Text) : Option Stored :=
  match t.read (entryPath dir view) with
  | .error _ => none
  | .ok _ => (latest log view).filter fun s => key s.shared s.source == key shared source

/-- Looking for a module changes nothing. -/
theorem get_run (history : History dir log t) :
    (get system dir shared view source).run t =
      ((lookup dir log t shared view source).map fun s => s.entry.module, t) := by
  cases hread : t.read (entryPath dir view) with
  | error e =>
    simp [get, system, lookup, hread]
    rfl
  | ok text =>
    obtain ⟨s, hlatest, hentry⟩ := history.read_entryPath hread
    by_cases hkey : key s.shared s.source = key shared source
    · simp [get, system, lookup, hread, hlatest, hentry, Stored.entry, hkey, Option.filter]
      rfl
    · simp [get, system, lookup, hread, hlatest, hentry, Stored.entry, hkey, Option.filter]
      rfl

/-- Storing a module writes its entry, or changes nothing. -/
theorem set_run (module : ViewModule) :
    ((set system dir shared view source module).run t).2 =
      (t.write (entryPath dir view)
        (Text.toBytes (CacheEntry.print ⟨key shared source, module⟩))).toOption.getD t := by
  cases hwrite : t.write (entryPath dir view)
    (Text.toBytes (CacheEntry.print ⟨key shared source, module⟩)) with
  | ok t' =>
    simp [set, system, update, hwrite]
    rfl
  | error e =>
    simp [set, system, update, hwrite]
    rfl

/-- The name of the view in a file; a file outside of the root is named by its path. -/
def viewName (root path : Path) : Text := (ViewName.ofPath? root path).getD path

theorem compileFile_run_error {cache : Option Path} {e : FileError} (hread : t.read path = .error e) :
    (compileFile system shared cache root path).run t =
      (⟨path, viewName root path, false, .error (.io path e)⟩, t) := by
  simp [compileFile, system, hread]
  rfl

theorem compileFile_run (history : History dir log t) (hread : t.read path = .ok source) :
    (compileFile system shared (some dir) root path).run t =
      match lookup dir log t shared (viewName root path) source with
      | some s => (⟨path, viewName root path, true, .ok s.entry.module⟩, t)
      | none => (⟨path, viewName root path, false, .ok (compile shared source (viewName root path))⟩,
          (t.write (entryPath dir (viewName root path)) (Text.toBytes
            (Stored.entry ⟨viewName root path, shared, source⟩).print)).toOption.getD t) := by
  have hfile : (system.read path).run t = (.ok source, t) := by
    rw [← hread]
    rfl
  rw [compileFile, run_bind hfile]
  unfold viewName
  generalize (ViewName.ofPath? root path).getD path = view
  dsimp only
  rw [run_bind (get_run history)]
  cases lookup dir log t shared view source with
  | some s => rfl
  | none => exact congrArg (Prod.mk _) (set_run (compile shared source view))

/-! ## What a batch stores -/

/-- The modules that are stored when a file is compiled: its own, if the cache has none for it and
the entry can be written. -/
def storedBy (dir root : Path) (shared : SharedCode) (path : Path) (t : FileTree) : List Stored :=
  match t.read path with
  | .error _ => []
  | .ok source =>
    let s : Stored := ⟨viewName root path, shared, source⟩
    if ((compileFile system shared (some dir) root path).run t).1.isCached then []
    else
      match t.write (entryPath dir s.view) (Text.toBytes s.entry.print) with
      | .error _ => []
      | .ok _ => [s]

/-- The modules that are stored when files are compiled one after the other, the latest first. -/
def storedByAll (dir root : Path) (shared : SharedCode) : List Path → FileTree → List Stored
  | [], _ => []
  | path :: paths, t =>
    storedByAll dir root shared paths ((compileFile system shared (some dir) root path).run t).2
      ++ storedBy dir root shared path t

theorem History.compileFile (history : History dir log t) (root path : Path)
    (shared : SharedCode) :
    History dir (storedBy dir root shared path t ++ log)
      ((BladeView.compileFile system shared (some dir) root path).run t).2 := by
  cases hread : t.read path with
  | error e =>
    rw [compileFile_run_error hread]
    simpa [storedBy, hread] using history
  | ok source =>
    have hrun := @compileFile_run dir root path log t shared source history hread
    cases hlookup : lookup dir log t shared (viewName root path) source with
    | some s =>
      rw [hlookup] at hrun
      simpa [storedBy, hread, hrun] using history
    | none =>
      rw [hlookup] at hrun
      cases hwrite : t.write (entryPath dir (viewName root path))
        (Text.toBytes (Stored.entry ⟨viewName root path, shared, source⟩).print) with
      | error e =>
        have hnone : storedBy dir root shared path t = [] := by
          simp [storedBy, hread, hrun, hwrite]
        rw [hnone, hrun, hwrite]
        exact history
      | ok t' =>
        have hone : storedBy dir root shared path t = [⟨viewName root path, shared, source⟩] := by
          simp [storedBy, hread, hrun, hwrite]
        rw [hone, hrun, hwrite]
        exact history.store ⟨viewName root path, shared, source⟩ hwrite

theorem compileAll_cons (path : Path) (paths : List Path) :
    (compileAll system shared (some dir) root (path :: paths)).run t =
      let first := (compileFile system shared (some dir) root path).run t
      let others := (compileAll system shared (some dir) root paths).run first.2
      (first.1 :: others.1, others.2) := by
  rw [compileAll, List.mapM_cons]
  rfl

theorem History.compileAll (history : History dir log t) (root : Path) (shared : SharedCode)
    (paths : List Path) :
    History dir (storedByAll dir root shared paths t ++ log)
      ((BladeView.compileAll system shared (some dir) root paths).run t).2 := by
  induction paths generalizing log t with
  | nil => exact history
  | cons path paths ih =>
    rw [compileAll_cons, storedByAll, List.append_assoc]
    exact ih (history.compileFile root path shared)

/-- A file's turn in a batch comes after the files before it. -/
theorem compileAll_append (before after : List Path) (path : Path) :
    ((compileAll system shared (some dir) root (before ++ path :: after)).run t).1[before.length]? =
      some ((compileFile system shared (some dir) root path).run
        ((compileAll system shared (some dir) root before).run t).2).1 := by
  induction before generalizing t with
  | nil =>
    rw [List.nil_append, compileAll_cons]
    rfl
  | cons first before ih =>
    rw [List.cons_append, compileAll_cons, compileAll_cons]
    exact ih

@[simp] theorem viewName_compile (shared : SharedCode) (source view : Text) :
    (compile shared source view).viewName = view := rfl

/-- Whether the digest tells two inputs apart. -/
def NoCollision (s : Stored) (shared : SharedCode) (source : Text) : Prop :=
  Digest.hex (keyBytes s.shared s.source) = Digest.hex (keyBytes shared source) →
    keyBytes s.shared s.source = keyBytes shared source

/-- A stored module is found if its entry can be read and it was compiled from the same. -/
theorem lookup_eq_some_iff {s : Stored} (hfits : ∀ s ∈ ⟨view, shared, source⟩ :: log, s.Fits)
    (hdigest : ∀ s ∈ log, NoCollision s shared source) :
    lookup dir log t shared view source = some s ↔
      (∃ text, t.read (entryPath dir view) = .ok text) ∧ latest log view = some s ∧
        s = ⟨s.view, shared, source⟩ := by
  have hkey : ∀ s ∈ log, key s.shared s.source = key shared source →
      s.shared = shared ∧ s.source = source := fun s hs h =>
    keyBytes_inj (hfits s (List.mem_cons_of_mem _ hs)) (hfits _ List.mem_cons_self) (hdigest s hs h)
  cases hread : t.read (entryPath dir view) with
  | error e => simp [lookup, hread]
  | ok text =>
    simp only [lookup, hread, Option.filter_eq_some_iff, beq_iff_eq, Except.ok.injEq,
      exists_eq', true_and]
    constructor
    · intro ⟨hlatest, h⟩
      obtain ⟨hshared, hsource⟩ := hkey s (List.mem_of_find?_eq_some hlatest) h
      exact ⟨hlatest, by rw [← hshared, ← hsource]⟩
    · intro ⟨hlatest, hs⟩
      exact ⟨hlatest, by rw [hs]⟩

theorem compileFile_path (history : History dir log t) :
    ((compileFile system shared (some dir) root path).run t).1.path = path ∧
      ((compileFile system shared (some dir) root path).run t).1.viewName = viewName root path := by
  cases hread : t.read path with
  | error e => simp [compileFile_run_error hread]
  | ok source =>
    rw [compileFile_run history hread]
    cases lookup dir log t shared (viewName root path) source <;> exact ⟨rfl, rfl⟩

/-- The names of files agree for the view that is looked up and the one whose module is found. -/
theorem fileName_of_latest {s : Stored} (h : latest log view = some s) :
    fileName s.view = fileName view := by
  simpa using List.find?_some h

theorem compileFile_result (history : History dir log t) (hread : t.read path = .ok source)
    (hfits : ∀ s ∈ ⟨viewName root path, shared, source⟩ :: log, s.Fits)
    (hdigest : ∀ s ∈ log, NoCollision s shared source) :
    (∃ name, ((compileFile system shared (some dir) root path).run t).1.result =
        .ok (compile shared source name) ∧ fileName name = fileName (viewName root path) ∧
        (name = viewName root path ∨
          latest log (viewName root path) = some ⟨name, shared, source⟩)) ∧
      (((compileFile system shared (some dir) root path).run t).1.result =
          .ok (compile shared source (viewName root path)) ↔
        ∀ text name, t.read (entryPath dir (viewName root path)) = .ok text →
          latest log (viewName root path) = some ⟨name, shared, source⟩ →
            name = viewName root path) := by
  rw [compileFile_run history hread]
  cases hlookup : lookup dir log t shared (viewName root path) source with
  | some s =>
    obtain ⟨⟨text, htext⟩, hlatest, hs⟩ := (lookup_eq_some_iff hfits hdigest).mp hlookup
    have hmodule : s.entry.module = compile shared source s.view := by
      rw [hs]
      rfl
    have hsame : latest log (viewName root path) = some ⟨s.view, shared, source⟩ := by
      rw [hlatest, ← hs]
    refine ⟨⟨s.view, congrArg Except.ok hmodule, fileName_of_latest hlatest, .inr hsame⟩, ?_⟩
    dsimp only
    rw [hmodule]
    constructor
    · intro hresult _ name _ hname
      rw [hsame, Option.some.injEq, Stored.mk.injEq] at hname
      rw [← hname.1]
      exact congrArg ViewModule.viewName (Except.ok.inj hresult)
    · intro hview
      rw [hview text s.view htext hsame]
  | none =>
    refine ⟨⟨viewName root path, rfl, rfl, .inl rfl⟩, ?_, fun _ => rfl⟩
    intro _ text name htext hlatest
    have hsome := (lookup_eq_some_iff hfits hdigest).mpr ⟨⟨text, htext⟩, hlatest, rfl⟩
    rw [hlookup] at hsome
    exact absurd hsome (by simp)

end

/-- What a batch gives for a file. The module is one of the source and shared code that the file
has when its turn comes, for its own view or for the view that was stored last in the same file of
the cache. It is that of its own view exactly if no other view was stored there last, with the same
source and shared code, and can be read. -/
theorem compileAll_outcome_iff {dir root : Path} {log : List Stored} {t : FileTree}
    (history : History dir log t) (shared : SharedCode) (before after : List Path) (path : Path) :
    let view := viewName root path
    let now := ((compileAll system shared (some dir) root before).run t).2
    let stored := storedByAll dir root shared before t ++ log
    (∀ source, now.read path = .ok source →
      (∀ s ∈ ⟨view, shared, source⟩ :: stored, s.Fits) ∧
        ∀ s ∈ stored, NoCollision s shared source) →
    ∃ outcome,
      ((compileAll system shared (some dir) root (before ++ path :: after)).run t).1[before.length]?
        = some outcome ∧
      outcome.path = path ∧ outcome.viewName = view ∧
      (∀ e, now.read path = .error e → outcome.result = .error (.io path e)) ∧
      ∀ source, now.read path = .ok source →
        (∃ name, outcome.result = .ok (compile shared source name) ∧
          fileName name = fileName view ∧
          (name = view ∨ latest stored view = some ⟨name, shared, source⟩)) ∧
        (outcome.result = .ok (compile shared source view) ↔
          ∀ text name, now.read (entryPath dir view) = .ok text →
            latest stored view = some ⟨name, shared, source⟩ → name = view) := by
  intro view now stored hassume
  have hnow : History dir stored now := history.compileAll root shared before
  obtain ⟨hpath, hview⟩ := @compileFile_path dir root path stored now shared hnow
  refine ⟨_, compileAll_append before after path, hpath, hview, ?_, ?_⟩
  · intro e hread
    exact congrArg (fun run => run.1.result) (compileFile_run_error hread)
  · intro source hread
    obtain ⟨hfits, hdigest⟩ := hassume source hread
    exact compileFile_result hnow hread hfits hdigest

/-- A template beside the directory of a cache. -/
def template : FileTree :=
  ⟨[({ names := ["c"] }, .directory), ({ names := ["a_b"] }, .file (Text.toBytes "<p>"))]⟩

/-- A module of the same template, for another view. -/
def twin : Stored := ⟨"a:b", {}, "<p>"⟩

/-- The template after that module was stored. -/
def templateAfter : FileTree :=
  template.put { names := ["c", "a_b.json"] } (.file (Text.toBytes twin.entry.print))

theorem stepsOf_entryPath_twin :
    stepsOf (entryPath "c" "a_b") = .ok [.name "c", .name "a_b.json"] := by
  have hpath : entryPath "c" "a_b" = "c/a_b.json".toList := by decide
  have hsteps : Path.steps "c/a_b.json" = [.name "c", .name "a_b.json"] := by decide
  rw [hpath, ← hsteps]
  simp [stepsOf, maxPath, Char.utf8Size]

theorem history_templateAfter : History "c" [twin] templateAfter := by
  have hfresh : History "c" [] template := by
    refine .fresh fun name bytes => ?_
    have hplace : Path.place "c" = { names := ["c"] } := by decide
    rw [hplace]
    simp [node?, template, Place.child]
  have hpath : entryPath "c" twin.view = entryPath "c" "a_b" := by decide
  have hfollow : template.follow {} [.name "c"] = .ok { names := ["c"] } :=
    follow_name rfl (by simp [maxName, Char.utf8Size])
  refine hfresh.store twin ?_
  rw [hpath]
  refine FileTree.write_of_follow stepsOf_entryPath_twin hfollow rfl (by decide) ?_ (by decide)
  simp [maxName, Char.utf8Size]

theorem read_templateAfter : templateAfter.read "a_b" = .ok "<p>" := by
  have hsteps : Path.steps "a_b" = [.name "a_b"] := by decide
  have hstepsOf : stepsOf "a_b" = .ok [.name "a_b"] := by
    rw [← hsteps]
    simp [stepsOf, maxPath, Char.utf8Size]
  refine read_of_follow hstepsOf (follow_name rfl ?_) (by decide) rfl
    (Utf8.decode?_toBytes _)
  simp [maxName, Char.utf8Size]

theorem read_entry_templateAfter :
    templateAfter.read (entryPath "c" "a_b") = .ok twin.entry.print := by
  refine read_of_follow stepsOf_entryPath_twin
    ((follow_name rfl ?_).trans (follow_name rfl ?_)) (by decide) rfl
    (Utf8.decode?_toBytes _)
  · simp [maxName, Char.utf8Size]
  · simp [maxName, Char.utf8Size]

/-- A view gets the module of another view that was stored in the same file. -/
theorem compileAll_outcome_iff_twin :
    ∃ outcome, ((compileAll system {} (some "c") [] ["a_b"]).run templateAfter).1[0]? =
        some outcome ∧
      outcome.viewName = "a_b".toList ∧ (∃ module, outcome.result = .ok module) ∧
      outcome.result ≠ .ok (compile {} "<p>" "a_b") := by
  have hfits : Stored.Fits ⟨"a_b", {}, "<p>"⟩ ∧ twin.Fits := by
    simp [Stored.Fits, Fits, twin, Char.utf8Size]
  have hassume : ∀ source, templateAfter.read "a_b" = .ok source →
      (∀ s ∈ [⟨"a_b", {}, source⟩, twin], s.Fits) ∧ ∀ s ∈ [twin], NoCollision s {} source := by
    intro source hread
    rw [read_templateAfter, Except.ok.injEq] at hread
    subst hread
    refine ⟨by simpa using hfits, ?_⟩
    simp [NoCollision, twin]
  obtain ⟨outcome, hat, -, hname, -, hresult⟩ :=
    @compileAll_outcome_iff "c" [] [twin] templateAfter history_templateAfter {} [] [] "a_b" hassume
  obtain ⟨⟨name, hmodule, -⟩, hiff⟩ := hresult "<p>" read_templateAfter
  refine ⟨outcome, hat, hname, ⟨_, hmodule⟩, ?_⟩
  intro hown
  have hsame := hiff.mp hown twin.entry.print "a:b" read_entry_templateAfter (by decide)
  exact absurd hsame (by decide)

end BladeView.Cache
