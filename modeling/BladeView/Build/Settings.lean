import BladeView.Build.Error
import BladeView.Json.Reader

/-!
# Build settings

The settings of a project, read from a file if there is one.
-/
namespace BladeView

/-- The settings of a project. -/
structure Settings where
  viewsInput : Path := "resources/views".toList
  jsInput : Path := "resources/js/app".toList
  outputDir : Path := "resources/js/views".toList
  wrapperFile : Path := "resources/js/templates/wraper.js".toList
  /-- How the names of view files end. -/
  bladePattern : Text := ".blade.php".toList
  defaultScope : Text := "web".toList
  autoCreateDirs : Bool := true
  verbose : Bool := false
  cacheDir : Path := ".blade-spa/cache".toList
  deriving DecidableEq

namespace Settings

/-- The name of the settings file. -/
def fileName : Path := "blade-spa.config.json"

/-- The keys of the settings, in order. -/
def keys : List Text :=
  ["viewsInput", "jsInput", "outputDir", "wrapperFile", "bladePattern", "defaultScope",
   "autoCreateDirs", "verbose", "cacheDir"]

/-- A field that may be left out; if it is there it must be readable. -/
def optional {α : Type} (reader : Json → Option α) (default : α) : Option Json → Option α
  | none => some default
  | some j => reader j

/-- Reads the settings in a document. -/
def read? (t : Text) : Option Settings := do
  let default : Settings := {}
  match ← (← Json.read? t).fields? keys with
  | [views, js, output, wrapper, pattern, scope, autoCreate, verbose, cache] =>
    return {
      viewsInput := ← optional Json.text? default.viewsInput views
      jsInput := ← optional Json.text? default.jsInput js
      outputDir := ← optional Json.text? default.outputDir output
      wrapperFile := ← optional Json.text? default.wrapperFile wrapper
      bladePattern := ← optional Json.text? default.bladePattern pattern
      defaultScope := ← optional Json.text? default.defaultScope scope
      autoCreateDirs := ← optional Json.bool? default.autoCreateDirs autoCreate
      verbose := ← optional Json.bool? default.verbose verbose
      cacheDir := ← optional Json.text? default.cacheDir cache }
  | _ => none

/-- Loads the settings from a file; without a file they have their defaults. -/
def load {m : Type → Type} [Monad m] (fs : FileSystem m) (path : Path) :
    m (Except BuildError Settings) := do
  if ← fs.isThere path then
    match ← fs.read path with
    | .error e => return .error (.io path e)
    | .ok text =>
      match read? text with
      | some settings => return .ok settings
      | none => return .error (.settings path)
  else return .ok {}

/-- The settings with all relative paths below a directory. -/
def rooted (root : Path) (s : Settings) : Settings :=
  { s with
    viewsInput := Path.join root s.viewsInput
    jsInput := Path.join root s.jsInput
    outputDir := Path.join root s.outputDir
    wrapperFile := Path.join root s.wrapperFile
    cacheDir := Path.join root s.cacheDir }

end Settings
end BladeView
