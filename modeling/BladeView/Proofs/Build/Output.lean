import BladeView.Proofs.Build.History
import BladeView.Proofs.Files.Path
import BladeView.Proofs.Files.Write

/-!
# Which modules are overwritten

The modules of a build are written one after the other, and the index last. A file holds what was
written last at its place, so a module is lost if a later module or the index is written at the
same place. For views that are found below a directory the place is given by words: the parts
between the dots of the directories' names, and the file's name up to its first dot.

## Main statements

* `Output.modules_kept_iff`: when every file of a build still holds its own text.
-/
namespace BladeView.Output

open ViewName (modulePath words)
open Text (endsWith toBytes)
open Cache (viewName)
open FileTree (filesBelow find_eq_ok_iff follow_name get? Keeps maxName maxPath node?_put stepsOf
  system update Writes)

variable {paths : List Path} {path root : Path} {shared : SharedCode} {α β : Type} {m : ViewModule}

variable {t t' : FileTree} {out : Path} {modules : List ViewModule} {createsDirs : Bool}

/-! ## Runs -/

/-- An action after which everything that was in the tree is still there. -/
def KeepsAll {α : Type} (x : StateM FileTree α) : Prop :=
  ∀ t : FileTree, t.Keeps (x.run t).2

theorem KeepsAll.pure (a : α) : KeepsAll (pure a : StateM FileTree α) := fun t => .refl t

theorem KeepsAll.bind {x : StateM FileTree α} {f : α → StateM FileTree β} (hx : KeepsAll x)
    (hf : ∀ a, KeepsAll (f a)) : KeepsAll (x >>= f) := by
  intro t
  rw [StateT.run_bind]
  exact (hx t).trans (hf _ _)

theorem run_update (change : FileTree → Except FileError FileTree) (t : FileTree) :
    (update change).run t =
      match change t with
      | .ok t' => (.ok (), t')
      | .error e => (.error e, t) := by
  cases hchange : change t with
  | ok t' =>
    simp [update, hchange]
    rfl
  | error e =>
    simp [update, hchange]
    rfl

theorem keepsAll_makeDir (p : Path) : KeepsAll (system.makeDir p) := by
  intro t
  have hrun : (system.makeDir p).run t = _ := run_update (·.makeDir p) t
  rw [hrun]
  cases hmake : t.makeDir p with
  | ok t' => exact FileTree.keeps_of_makeDir_eq_ok hmake
  | error e => exact .refl t

theorem keepsAll_acceptPresent (p : Path) (result : Except FileError Unit) :
    KeepsAll (system.acceptPresent p result) := by
  rw [FileSystem.acceptPresent.eq_def]
  split
  · exact .bind (fun t => .refl t) fun _ => .pure _
  · exact .pure _

/-- Making directories keeps everything that is there. -/
theorem keepsAll_makeChain (paths : List Path) : KeepsAll (system.makeChain paths) := by
  induction paths with
  | nil => exact .pure _
  | cons p above ih =>
    rw [FileSystem.makeChain]
    split
    · exact .pure _
    · refine .bind (keepsAll_makeDir p) fun made => ?_
      split
      · refine .bind ih fun result => ?_
        split
        · exact .bind (keepsAll_makeDir p) (keepsAll_acceptPresent p)
        · exact .pure _
      · exact keepsAll_acceptPresent p _

theorem keepsAll_createDirs (isWanted : Bool) (p : Path) :
    KeepsAll (createDirs system isWanted p) := by
  rw [createDirs]
  split
  · exact .bind (keepsAll_makeChain _) fun _ => .pure _
  · exact .pure _

/-- What is written for some modules: the text of each, and the index. -/
def writes (out : Path) (modules : List ViewModule) : List (Path × Text) :=
  modules.map (fun m => (out.join (modulePath m.viewName), m.source))
    ++ [(out.join indexFile, index modules)]

theorem write_of_run_eq_ok {p : Path} {text : Text} {u : Unit}
    (h : (system.write p text).run t = (.ok u, t')) : t.write p (toBytes text) = .ok t' := by
  have hrun : (system.write p text).run t = _ := run_update (·.write p (toBytes text)) t
  rw [hrun] at h
  cases hwrite : t.write p (toBytes text) with
  | ok t₁ =>
    rw [hwrite] at h
    rw [(Prod.mk.inj h).2]
  | error e =>
    rw [hwrite] at h
    cases (Prod.mk.inj h).1

theorem run_pure_eq {a b : α} (h : (pure a : StateM FileTree α).run t = (b, t')) : a = b ∧ t = t' :=
  Prod.mk.inj h

/-- The result of a step and the tree after it go to the next. -/
theorem run_bind_eq {x : StateM FileTree α} {f : α → StateM FileTree β} {b : β}
    (h : (x >>= f).run t = (b, t')) : ∃ a t₁, x.run t = (a, t₁) ∧ (f a).run t₁ = (b, t') :=
  ⟨_, _, rfl, h⟩

theorem run_bind_of_run_eq {x : StateM FileTree α} {f : α → StateM FileTree β} {a : α}
    (h : x.run t = (a, t')) : (x >>= f).run t = (f a).run t' := by
  rw [StateT.run_bind, h]
  rfl

theorem KeepsAll.run_eq {x : StateM FileTree α} {a : α} (hx : KeepsAll x) (h : x.run t = (a, t')) :
    t.Keeps t' := by
  have hkeeps := hx t
  rwa [h] at hkeeps

/-- A module that was written: its directory may have been made before. -/
theorem run_writeModule_ok (h : (writeModule system out createsDirs m).run t = (.ok path, t')) :
    path = out.join (modulePath m.viewName) ∧
      ∃ t₁, t.Keeps t₁ ∧ t₁.write path (toBytes m.source) = .ok t' := by
  rw [writeModule] at h
  generalize out.join (modulePath m.viewName) = target at h ⊢
  obtain ⟨t₁, hkeeps, h⟩ : ∃ t₁, t.Keeps t₁ ∧ (do
      let result ← system.write target m.source
      return (BuildError.ofFile target result).map fun _ => target).run t₁ = (.ok path, t') := by
    cases hparent : Path.parent? target with
    | none =>
      rw [hparent] at h
      exact ⟨t, .refl t, h⟩
    | some parent =>
      rw [hparent] at h
      obtain ⟨made, t₁, hmade, h⟩ := run_bind_eq h
      cases made with
      | error e => cases (run_pure_eq h).1
      | ok u => exact ⟨t₁, (keepsAll_createDirs _ _).run_eq hmade, h⟩
  obtain ⟨result, t₂, hwrite, h⟩ := run_bind_eq h
  obtain ⟨hpath, rfl⟩ := run_pure_eq h
  cases result with
  | error e => cases hpath
  | ok u =>
    obtain rfl := Except.ok.inj hpath
    exact ⟨rfl, t₁, hkeeps, write_of_run_eq_ok hwrite⟩

/-- The modules that were written, one after the other. -/
theorem run_writeModules_ok
    (h : (writeModules system out createsDirs modules).run t = (.ok paths, t')) :
    paths = modules.map (fun m => out.join (modulePath m.viewName)) ∧
      Writes t (modules.map fun m => (out.join (modulePath m.viewName), m.source)) t' := by
  induction modules generalizing t paths with
  | nil =>
    obtain ⟨hpaths, rfl⟩ := run_pure_eq h
    exact ⟨(Except.ok.inj hpaths).symm, .done (.refl t)⟩
  | cons m modules ih =>
    rw [writeModules] at h
    obtain ⟨first, t₁, hfirst, h⟩ := run_bind_eq h
    cases first with
    | error e => cases (run_pure_eq h).1
    | ok path =>
      obtain ⟨others, t₂, hothers, h⟩ := run_bind_eq h
      obtain ⟨hpaths, rfl⟩ := run_pure_eq h
      cases others with
      | error e => cases hpaths
      | ok others =>
        obtain rfl := Except.ok.inj hpaths
        obtain ⟨hpath, t₃, hkeeps, hwrite⟩ := run_writeModule_ok hfirst
        obtain ⟨hothers, hwrites⟩ := ih hothers
        rw [hpath] at hwrite ⊢
        rw [hothers]
        exact ⟨rfl, .write hkeeps hwrite hwrites⟩

/-- A build that succeeds has written all modules and then the index. -/
theorem run_write_ok {written : List Path}
    (h : (write system out createsDirs modules).run t = (.ok written, t')) :
    written = (writes out modules).map (·.1) ∧ Writes t (writes out modules) t' := by
  rw [write] at h
  obtain ⟨made, t₁, hmade, h⟩ := run_bind_eq h
  have hkeeps := (keepsAll_createDirs createsDirs out).run_eq hmade
  cases made with
  | error e => cases (run_pure_eq h).1
  | ok u =>
    obtain ⟨result, t₂, hmodules, h⟩ := run_bind_eq h
    cases result with
    | error e => cases (run_pure_eq h).1
    | ok paths =>
      obtain ⟨last, t₃, hlast, h⟩ := run_bind_eq h
      obtain ⟨hwritten, rfl⟩ := run_pure_eq h
      cases last with
      | error e => cases hwritten
      | ok u =>
        obtain rfl := Except.ok.inj hwritten
        obtain ⟨rfl, hwrites⟩ := run_writeModules_ok hmodules
        have hindex : Writes t₂ [(out.join indexFile, index modules)] t₃ :=
          .write (.refl t₂) (write_of_run_eq_ok hlast) (.done (.refl t₃))
        exact ⟨by simp [writes], (Writes.append (.done hkeeps) hwrites).append hindex⟩

theorem run_discover (root : Path) (pattern : Text) (t : FileTree) :
    (discover system root pattern).run t =
      if (t.get? root).isSome then
        (.ok (((t.filesBelow root).filter fun path =>
          (Path.fileName? path).any (endsWith pattern)).mergeSort Path.le), t)
      else (.error (.io root .notFound), t) := by
  cases hthere : (t.get? root).isSome with
  | true =>
    simp [discover, system, hthere]
    rfl
  | false =>
    simp [discover, system, hthere]
    rfl

/-- The paths that are found lead from the directory to files below it. -/
theorem run_discover_ok {pattern : Text}
    (h : (discover system root pattern).run t = (.ok paths, t')) :
    t = t' ∧ ∀ path ∈ paths, ∃ names bytes,
      (names, bytes) ∈ t.filesAt root.place ∧ path = names.foldl Path.join root := by
  rw [run_discover] at h
  split at h
  · obtain ⟨hpaths, rfl⟩ := Prod.mk.inj h
    obtain rfl := Except.ok.inj hpaths
    refine ⟨rfl, fun path hpath => ?_⟩
    have hbelow : path ∈ t.filesBelow root :=
      (List.mem_filter.mp ((List.mergeSort_perm _ _).mem_iff.mp hpath)).1
    rw [filesBelow] at hbelow
    cases hfind : t.find root with
    | error e => simp [hfind] at hbelow
    | ok place =>
      rw [hfind, FileTree.find_eq_ok hfind] at hbelow
      obtain ⟨⟨names, bytes⟩, hfile, rfl⟩ := List.mem_map.mp hbelow
      exact ⟨names, bytes, hfile, rfl⟩
  · cases (Prod.mk.inj h).1

/-- Without a cache a file that can be read is compiled. -/
theorem run_compileFile_none {source : Text} (hread : t.read path = .ok source) :
    (compileFile system shared none root path).run t =
      (⟨path, viewName root path, false,
        .ok (compile shared source (viewName root path))⟩, t) := by
  simp [compileFile, system, hread]
  rfl

theorem viewName_of_compileFile {outcome : Outcome}
    (h : (compileFile system shared none root path).run t = (outcome, t'))
    (hok : outcome.result = .ok m) : m.viewName = viewName root path := by
  cases hread : t.read path with
  | error e =>
    rw [Cache.compileFile_run_error hread] at h
    obtain ⟨rfl, -⟩ := Prod.mk.inj h
    cases hok
  | ok source =>
    rw [run_compileFile_none hread] at h
    obtain ⟨rfl, -⟩ := Prod.mk.inj h
    rw [← Except.ok.inj hok, Cache.viewName_compile]

/-- If all files can be compiled there is a module for each, and without a cache it has the name of
the file's view. -/
theorem run_compileAll_ok {cache : Option Path} {outcomes : List Outcome}
    (h : (compileAll system shared cache root paths).run t = (outcomes, t'))
    (hok : ∀ outcome ∈ outcomes, ∃ m, outcome.result = .ok m) :
    (Outcome.modules outcomes).length = paths.length ∧
      (cache = none →
        (Outcome.modules outcomes).map (·.viewName) = paths.map (viewName root)) := by
  induction paths generalizing t outcomes with
  | nil =>
    obtain ⟨rfl, -⟩ := run_pure_eq h
    exact ⟨rfl, fun _ => rfl⟩
  | cons path paths ih =>
    rw [compileAll, List.mapM_cons] at h
    obtain ⟨first, t₁, hfirst, h⟩ := run_bind_eq h
    obtain ⟨others, t₂, hothers, h⟩ := run_bind_eq h
    obtain ⟨rfl, rfl⟩ := run_pure_eq h
    obtain ⟨m, hm⟩ := hok first List.mem_cons_self
    obtain ⟨hlength, hnames⟩ := ih hothers fun o ho => hok o (List.mem_cons_of_mem _ ho)
    have hmodules : Outcome.modules (first :: others) = m :: Outcome.modules others := by
      simp [Outcome.modules, hm, Except.toOption]
    rw [hmodules]
    refine ⟨by simp [hlength], fun hnone => ?_⟩
    subst hnone
    rw [List.map_cons, List.map_cons, hnames rfl, viewName_of_compileFile hfirst hm]

/-! ## Places of modules -/

/-- The names of the directories that lead to a file, and its own. -/
structure IsViewFile (file : List Text × Text) : Prop where
  names : ∀ name ∈ file.1 ++ [file.2], Path.IsName name
  stem : file.2.takeWhile (· != '.') ≠ []

/-- The words of a file below the directory of the views: those between the dots of the
directories' names, and the file's own name up to its first dot. -/
def fileWords (file : List Text × Text) : List Text :=
  file.1.flatMap words ++ [file.2.takeWhile (· != '.')]

theorem viewName_of_isViewFile (root : Path) {file : List Text × Text} (h : IsViewFile file) :
    '/' ∉ viewName root ((file.1 ++ [file.2]).foldl Path.join root) ∧
      words (viewName root ((file.1 ++ [file.2]).foldl Path.join root)) =
        fileWords file := by
  obtain ⟨dirs, name⟩ := file
  have hdots : '.' ∉ name.takeWhile (· != '.') := fun hmem => by
    simpa using List.mem_takeWhile_imp hmem
  have hslash : ∀ piece ∈ dirs ++ [name.takeWhile (· != '.')], '/' ∉ piece := by
    intro piece hpiece
    rcases List.mem_append.mp hpiece with hpiece | hpiece
    · exact (h.names piece (List.mem_append_left _ hpiece)).no_slash
    · rw [List.mem_singleton.mp hpiece]
      exact fun hmem => (h.names name (by simp)).no_slash ((List.takeWhile_prefix _).subset hmem)
  rw [viewName, ViewName.ofPath?_foldl_join root h.names h.stem, Option.getD_some]
  refine ⟨?_, ViewName.words_join h.stem hdots⟩
  exact Text.join_induction (P := ('/' ∉ ·)) (by simp) (by simp_all) (by decide) hslash

/-- The views whose modules' files are written. The index is written where the module of a view of
that name would be. -/
def writtenViews (modules : List ViewModule) : List Text :=
  modules.map (·.viewName) ++ ["index".toList]

theorem map_fst_writes (out : Path) (modules : List ViewModule) :
    (writes out modules).map (·.1) =
      (writtenViews modules).map fun view => out.join (modulePath view) := by
  have hindex : modulePath "index" = indexFile := by decide
  simp only [writes, writtenViews, List.map_append, List.map_map, List.map_singleton, hindex]
  rfl

/-- A file cannot be written at a directory's own path. -/
theorem ne_join_nil {writes : List (Path × Text)} {w : Path × Text} (h : Writes t writes t')
    (hw : w ∈ writes) (out : Path) : w.1 ≠ out.join [] := by
  intro heq
  obtain ⟨text, hlast, -⟩ := h.read_eq hw
  have hnode := (h.node?_eq w.1.place).1 text hlast
  obtain ⟨steps, hsteps, -, hdirectory⟩ := find_eq_ok_iff.mp (h.find_eq hw)
  have hopen : ¬ endsWith "/" w.1 = true := fun hend => by
    rw [hdirectory hend] at hnode
    cases hnode
  have hsome : w.1 ≠ [] := fun hempty => by
    rw [hempty] at hsteps
    cases hsteps
  rw [heq, Path.join, Path.not_isAbsolute List.not_mem_nil, if_neg (by simp)] at hopen hsome
  split at hopen
  case isTrue hend =>
    rw [if_pos hend, List.append_nil] at hsome
    rw [List.append_nil] at hopen
    simp_all
  case isFalse => exact hopen (by rw [List.append_nil]; exact Path.endsWith_slash out)

/-- The files of views without slashes in their names: two paths are equal, and lead to the same
place, iff the views have the same words. -/
theorem join_modulePath_inj (out : Path) {v w : Text} (hv : '/' ∉ v) (hw : '/' ∉ w)
    (hvne : words v ≠ []) (hwne : words w ≠ []) :
    (out.join (modulePath v) = out.join (modulePath w) ↔
        words v = words w) ∧
      ((out.join (modulePath v)).place = (out.join (modulePath w)).place →
        words v = words w) := by
  have hplace (h : (out.join (modulePath v)).place =
      (out.join (modulePath w)).place) : words v = words w := by
    rw [ViewName.place_modulePath out hv hvne, ViewName.place_modulePath out hw hwne] at h
    exact ViewName.outputNames_injective (List.append_cancel_left (congrArg Place.names h))
  refine ⟨⟨fun h => hplace (congrArg Path.place h), fun h => ?_⟩, hplace⟩
  rw [ViewName.modulePath_eq hv, ViewName.modulePath_eq hw, h]

/-- The words of what is written: those of the modules' views, and that of the index. -/
def outputWords (modules : List ViewModule) : List (List Text) :=
  (writtenViews modules).map words

theorem words_ne_nil (h : Writes t (writes out modules) t') {view : Text}
    (hview : view ∈ writtenViews modules) (hslash : '/' ∉ view) : words view ≠ [] := by
  intro hnone
  have hpath : out.join (modulePath view) ∈ (writes out modules).map (·.1) := by
    rw [map_fst_writes]
    exact List.mem_map_of_mem hview
  obtain ⟨w, hw, heq⟩ := List.mem_map.mp hpath
  refine ne_join_nil h hw out (heq.trans ?_)
  rw [ViewName.modulePath_eq hslash, hnone]
  rfl

/-- The paths that are written are pairwise distinct iff the words are, and then nothing is
overwritten. -/
theorem nodup_paths_iff (h : Writes t (writes out modules) t')
    (hslash : ∀ m ∈ modules, '/' ∉ m.viewName) :
    (((writes out modules).map (·.1)).Nodup ↔ (outputWords modules).Nodup) ∧
      (((writes out modules).map (·.1)).Nodup →
        ∀ w ∈ writes out modules, t'.read w.1 = .ok w.2) := by
  have hviews : ∀ view ∈ writtenViews modules, '/' ∉ view := by
    intro view hview
    rcases List.mem_append.mp hview with hview | hview
    · obtain ⟨m, hm, rfl⟩ := List.mem_map.mp hview
      exact hslash m hm
    · rw [List.mem_singleton.mp hview]
      decide
  have hwords : ((writes out modules).map (·.1)).Nodup ↔ (outputWords modules).Nodup := by
    rw [map_fst_writes, outputWords, List.Nodup, List.Nodup, List.pairwise_map, List.pairwise_map]
    refine List.Pairwise.iff_of_mem fun {v w} hv hw => not_congr ?_
    exact (join_modulePath_inj out (hviews v hv) (hviews w hw) (words_ne_nil h hv (hviews v hv))
      (words_ne_nil h hw (hviews w hw))).1
  refine ⟨hwords, fun hnodup => h.read_eq_iff.mpr fun a ha b hb hplace => ?_⟩
  have hpath (w : Path × Text) (hw : w ∈ writes out modules) :
      ∃ view ∈ writtenViews modules, w.1 = out.join (modulePath view) := by
    have hmem := List.mem_map_of_mem (f := (·.1)) hw
    rw [map_fst_writes] at hmem
    obtain ⟨view, hview, heq⟩ := List.mem_map.mp hmem
    exact ⟨view, hview, heq.symm⟩
  obtain ⟨v, hv, hav⟩ := hpath a ha
  obtain ⟨w, hw, hbw⟩ := hpath b hb
  have hsame := join_modulePath_inj out (hviews v hv) (hviews w hw)
    (words_ne_nil h hv (hviews v hv)) (words_ne_nil h hw (hviews w hw))
  have heq : a.1 = b.1 := by
    rw [hav, hbw] at hplace ⊢
    exact hsame.1.mpr (hsame.2 hplace)
  rw [List.inj_on_of_nodup_map hnodup ha hb heq]

/-- When the files of a build still hold their own texts. Everything that is found below the
directory of the views, under any pattern, is compiled and written. There is one path for each
module, in order, and one for the index. Each holds the text that was written last at its place, so
nothing is lost if and only if no two different texts are written at one place. Views without
slashes in their names are written to distinct paths if and only if their words are pairwise
distinct and none is the word of the index; nothing is lost then. For files with names of their own
and without a cache, these are the words of the files. -/
theorem modules_kept_iff {t t₁ t₂ t₃ : FileTree} {root out : Path} {pattern : Text}
    {paths written : List Path} {shared : SharedCode} {cache : Option Path} {createsDirs : Bool}
    {outcomes : List Outcome}
    (hdiscover : (discover system root pattern).run t = (.ok paths, t₁))
    (hcompile : (compileAll system shared cache root paths).run t₁ = (outcomes, t₂))
    (hok : ∀ outcome ∈ outcomes, ∃ m, outcome.result = .ok m)
    (hwrite : (write system out createsDirs (Outcome.modules outcomes)).run t₂ =
      (.ok written, t₃)) :
    let modules := Outcome.modules outcomes
    let writes := writes out modules
    (∀ path ∈ paths, ∃ names bytes,
        (names, bytes) ∈ t.filesAt root.place ∧ path = names.foldl Path.join root) ∧
      modules.length = paths.length ∧ written = writes.map (·.1) ∧
      (∀ w ∈ writes, ∃ text, FileTree.lastAt w.1.place writes = some text ∧
        t₃.read w.1 = .ok text) ∧
      ((∀ w ∈ writes, t₃.read w.1 = .ok w.2) ↔
        ∀ a ∈ writes, ∀ b ∈ writes, a.1.place = b.1.place → a.2 = b.2) ∧
      ((∀ m ∈ modules, '/' ∉ m.viewName) →
        (written.Nodup ↔ (outputWords modules).Nodup) ∧
          (written.Nodup → ∀ w ∈ writes, t₃.read w.1 = .ok w.2)) ∧
      ∀ files : List (List Text × Text), cache = none → (∀ file ∈ files, IsViewFile file) →
        paths = files.map (fun file => (file.1 ++ [file.2]).foldl Path.join root) →
        (written.Nodup ↔ (files.map fileWords ++ [["index".toList]]).Nodup) ∧
          (written.Nodup → ∀ w ∈ writes, t₃.read w.1 = .ok w.2) := by
  intro modules writes
  obtain ⟨rfl, hfound⟩ := run_discover_ok hdiscover
  obtain ⟨hlength, hnames⟩ := run_compileAll_ok hcompile hok
  obtain ⟨rfl, hwrites⟩ := run_write_ok hwrite
  refine ⟨hfound, hlength, rfl, fun w hw => hwrites.read_eq hw, hwrites.read_eq_iff,
    nodup_paths_iff hwrites, ?_⟩
  intro files hnone hfiles hpaths
  have hviews : modules.map (·.viewName) =
      files.map fun file => Cache.viewName root ((file.1 ++ [file.2]).foldl Path.join root) := by
    rw [hnames hnone, hpaths, List.map_map]
    rfl
  have hslash : ∀ m ∈ modules, '/' ∉ m.viewName := by
    intro m hm
    have hmem : m.viewName ∈ modules.map (·.viewName) := List.mem_map_of_mem hm
    rw [hviews] at hmem
    obtain ⟨file, hfile, heq⟩ := List.mem_map.mp hmem
    exact heq ▸ (viewName_of_isViewFile root (hfiles file hfile)).1
  have hwords : outputWords modules = files.map fileWords ++ [["index".toList]] := by
    rw [outputWords, writtenViews, List.map_append, hviews, List.map_map]
    congr 1
    exact List.map_congr_left fun file hfile => (viewName_of_isViewFile root (hfiles file hfile)).2
  rw [← hwords]
  exact nodup_paths_iff hwrites hslash

/-- A view with the name of the index, in a directory beside that of the modules. -/
def indexView : FileTree :=
  ⟨[({ names := ["v"] }, .directory), ({ names := ["o"] }, .directory),
    ({ names := ["v", "index.blade.php"] }, .file [])]⟩

theorem find_indexView : indexView.find "v" = .ok { names := ["v"] } := by
  have hsteps : stepsOf "v" = .ok [.name "v"] := by
    have hpath : Path.steps "v" = [.name "v"] := by decide
    rw [← hpath]
    simp [stepsOf, maxPath, Char.utf8Size]
  have htake : FileTree.CanTake (.name "v") := by
    simp [FileTree.CanTake, maxName, Char.utf8Size]
  exact find_eq_ok_iff.mpr
    ⟨_, hsteps, FileTree.follow_cons_eq_ok_iff.mpr ⟨rfl, htake, rfl⟩, by decide⟩

theorem run_discover_indexView :
    (discover system "v" ".blade.php").run indexView =
      (.ok ["v/index.blade.php".toList], indexView) := by
  have hthere : (indexView.get? "v").isSome = true := by
    rw [get?, find_indexView]
    decide
  have hbelow : indexView.filesBelow "v" = ["v/index.blade.php".toList] := by
    rw [filesBelow, find_indexView]
    decide
  have hmatch : ["v/index.blade.php".toList].filter (fun path =>
      (Path.fileName? path).any (endsWith ".blade.php")) = ["v/index.blade.php".toList] := by
    decide
  rw [run_discover, if_pos hthere, hbelow, hmatch, List.mergeSort_singleton]

theorem run_compileAll_indexView :
    (compileAll system {} none "v" ["v/index.blade.php"]).run indexView =
      ([⟨"v/index.blade.php", "index", false, .ok (compile {} [] "index")⟩], indexView) := by
  have hsteps : stepsOf "v/index.blade.php" =
      .ok [.name "v", .name "index.blade.php"] := by
    have hpath : Path.steps "v/index.blade.php" = [.name "v", .name "index.blade.php"] := by decide
    rw [← hpath]
    simp [stepsOf, maxPath, Char.utf8Size]
  have hread : indexView.read "v/index.blade.php" = .ok [] := by
    refine FileTree.read_of_follow hsteps ((follow_name rfl ?_).trans
      (follow_name rfl ?_)) (by decide) rfl rfl
    · simp [maxName, Char.utf8Size]
    · simp [maxName, Char.utf8Size]
  have hname : viewName "v" "v/index.blade.php" = "index".toList := by decide
  have hfile := @run_compileFile_none _ "v" {} indexView _ hread
  rw [hname] at hfile
  rw [compileAll, List.mapM_cons, run_bind_of_run_eq hfile]
  rfl

theorem write_indexView {t : FileTree} (bytes : List UInt8)
    (hdirectory : t.node? { names := ["o"] } = some .directory)
    (hfree : t.node? { names := ["o", "index.js"] } ≠ some .directory) :
    t.write "o/index.js" bytes = .ok (t.put { names := ["o", "index.js"] } (.file bytes)) := by
  have hsteps : stepsOf "o/index.js" = .ok ([.name "o"] ++ [.name "index.js"]) := by
    have hpath : Path.steps "o/index.js" = [.name "o", .name "index.js"] := by decide
    rw [List.singleton_append, ← hpath]
    simp [stepsOf, maxPath, Char.utf8Size]
  have hfollow : t.follow {} [.name "o"] = .ok { names := ["o"] } :=
    follow_name rfl (by simp [maxName, Char.utf8Size])
  refine FileTree.write_of_follow hsteps hfollow hdirectory (by decide) ?_ hfree
  simp [maxName, Char.utf8Size]

/-- The module of that view and the index are written to one file. -/
theorem run_write_indexView (hm : m.viewName = "index".toList) :
    ∃ t', (write system "o" false [m]).run indexView =
      (.ok ["o/index.js".toList, Path.join "o" indexFile], t') := by
  have hpath : Path.join "o" (modulePath "index") = "o/index.js".toList := by decide
  have hindex : Path.join "o" indexFile = "o/index.js".toList := by decide
  have hparent : Path.parent? "o/index.js" = some "o".toList := by decide
  have hdirs (t : FileTree) (p : Path) : (createDirs system false p).run t = (.ok (), t) := rfl
  have hrun (t : FileTree) (text : Text) (h : t.node? { names := ["o"] } = some .directory)
      (hfree : t.node? { names := ["o", "index.js"] } ≠ some .directory) :
      (system.write "o/index.js" text).run t =
        (.ok (), t.put { names := ["o", "index.js"] } (.file (toBytes text))) := by
    refine (run_update (·.write "o/index.js" (toBytes text)) t).trans ?_
    rw [write_indexView (toBytes text) h hfree]
  have hmodule : (writeModule system "o" false m).run indexView = (.ok "o/index.js".toList,
      indexView.put { names := ["o", "index.js"] } (.file (toBytes m.source))) := by
    rw [writeModule, hm, hpath, hparent]
    exact (run_bind_of_run_eq (hdirs _ _)).trans
      (run_bind_of_run_eq (hrun _ _ (by decide) (by decide)))
  have hmodules : (writeModules system "o" false [m]).run indexView = (.ok ["o/index.js".toList],
      indexView.put { names := ["o", "index.js"] } (.file (toBytes m.source))) := by
    rw [writeModules, run_bind_of_run_eq hmodule]
    rfl
  have hlast := hrun (indexView.put { names := ["o", "index.js"] } (.file (toBytes m.source)))
    (index [m]) (by rw [node?_put _ (by simp), if_neg (by decide)]; decide)
    (by rw [node?_put _ (by simp), if_pos rfl]; simp)
  rw [← hindex] at hlast
  have hwrite : (write system "o" false [m]).run indexView = _ :=
    (run_bind_of_run_eq (hdirs _ _)).trans (run_bind_of_run_eq hmodules)
  exact ⟨_, hwrite.trans (run_bind_of_run_eq hlast)⟩

/-- A view with the name of the index is overwritten: two of the paths are the same. -/
theorem modules_kept_iff_indexView :
    ∃ paths outcomes written t,
      (discover system "v" ".blade.php").run indexView = (.ok paths, indexView) ∧
      (compileAll system {} none "v" paths).run indexView = (outcomes, indexView) ∧
      (∀ outcome ∈ outcomes, ∃ m, outcome.result = .ok m) ∧
      (write system "o" false (Outcome.modules outcomes)).run indexView = (.ok written, t) ∧
      ¬ written.Nodup := by
  obtain ⟨t, hwrite⟩ := @run_write_indexView (compile {} [] "index") rfl
  have hok : ∀ outcome ∈ ((compileAll system {} none "v" ["v/index.blade.php"]).run indexView).1,
      ∃ m, outcome.result = .ok m := by
    intro outcome h
    rw [run_compileAll_indexView] at h
    rw [List.mem_singleton.mp h]
    exact ⟨_, rfl⟩
  rw [run_compileAll_indexView] at hok
  refine ⟨_, _, _, t, run_discover_indexView, run_compileAll_indexView, hok, hwrite, ?_⟩
  have hfile : IsViewFile ([], "index.blade.php") := by
    refine ⟨fun name hname => ?_, by decide⟩
    rw [List.mem_singleton.mp hname]
    exact ⟨by decide, by decide, by decide, by decide⟩
  obtain ⟨-, -, -, -, -, -, hfiles⟩ :=
    modules_kept_iff run_discover_indexView run_compileAll_indexView hok hwrite
  rw [(hfiles [([], "index.blade.php")] rfl (by simpa using hfile) (by decide)).1]
  decide

end BladeView.Output
