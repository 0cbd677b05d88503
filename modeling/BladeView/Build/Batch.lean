import BladeView.Build.Cache
import BladeView.Compile
import BladeView.Files.Path

/-!
# Compiling many views

The views of a project are the files below a directory whose names end in a pattern. A file that
cannot be read is reported and does not stop the others.
-/
namespace BladeView

/-- The name of the view in a file: the directories that lead to it and the file name up to its
first dot, with dots between them. -/
def ViewName.ofPath? (root path : Path) : Option Text := do
  let steps ← Path.relative? root path
  let stem := (← steps.getLast?.bind Path.Component.name?).takeWhile (· != '.')
  if stem.isEmpty then none
  else some (Text.join "." (steps.dropLast.map Path.Component.text ++ [stem]))

/-- What became of a file. -/
structure Outcome where
  path : Path
  viewName : Text
  /-- The module was taken from the cache. -/
  isCached : Bool
  result : Except BuildError ViewModule

/-- The modules of the files that could be compiled. -/
def Outcome.modules (outcomes : List Outcome) : List ViewModule :=
  outcomes.filterMap fun outcome => outcome.result.toOption

/-- The number of files that could not be compiled. -/
def Outcome.failures (outcomes : List Outcome) : Nat :=
  outcomes.length - (modules outcomes).length

section

variable {m : Type → Type} [Monad m] (fs : FileSystem m)

/-- The view files at or below a directory, sorted. -/
def discover (root : Path) (pattern : Text) : m (Except BuildError (List Path)) := do
  if ← fs.isThere root then
    let matching := (← fs.filesBelow root).filter fun path =>
      (Path.fileName? path).any (Text.endsWith pattern)
    return .ok (matching.mergeSort Path.le)
  else return .error (.io root .notFound)

/-- Compiles one file, or takes its module from the cache. A module that cannot be stored is used
all the same. -/
def compileFile (shared : SharedCode) (cache : Option Path) (root path : Path) : m Outcome := do
  let viewName := (ViewName.ofPath? root path).getD path
  match ← fs.read path with
  | .error e => return ⟨path, viewName, false, .error (.io path e)⟩
  | .ok source =>
    let compiled := compile shared source viewName
    match cache with
    | none => return ⟨path, viewName, false, .ok compiled⟩
    | some dir =>
      match ← Cache.get fs dir shared viewName source with
      | some module => return ⟨path, viewName, true, .ok module⟩
      | none =>
        let _ ← Cache.set fs dir shared viewName source compiled
        return ⟨path, viewName, false, .ok compiled⟩

/-- Compiles files one after the other. -/
def compileAll (shared : SharedCode) (cache : Option Path) (root : Path) (paths : List Path) :
    m (List Outcome) :=
  paths.mapM (compileFile fs shared cache root)

/-- The shared code in a file; there is none if the file cannot be read. -/
def loadShared (path : Path) : m SharedCode := do
  match ← fs.read path with
  | .ok text => return SharedCode.ofFile text
  | .error _ => return {}

end

end BladeView
