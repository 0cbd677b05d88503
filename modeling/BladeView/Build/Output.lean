import BladeView.Build.Error
import BladeView.Files.Path
import BladeView.ViewModule.Basic

/-!
# Writing modules

Each module is written to a file of its own, and an index module imports them all.
-/
namespace BladeView

/-- The file of a view's module: the parts of its name are directories. -/
def ViewName.modulePath (view : Text) : Path :=
  Path.withExtension "js" ((Text.splitOn '.' view).foldl Path.join [])

namespace Output

/-- The name of the index module's file. -/
def indexFile : Path := "index.js"

/-- The statement that imports a module. -/
def importLine (m : ViewModule) : Text :=
  let path := (ViewName.modulePath m.viewName).map fun c => if c == '\\' then '/' else c
  "import \x7b " ++ m.functionName ++ " \x7d from './" ++ path ++ "';"

/-- The entry of a view in the table of views. -/
def indexEntry (m : ViewModule) : Text :=
  "    " ++ Quoted.single m.viewName ++ ": " ++ m.functionName

/-- The text of the index module. -/
def index (modules : List ViewModule) : Text :=
  Text.join "\n" (modules.map importLine) ++ "\n\nexport const views = \x7b\n"
    ++ Text.join ",\n" (modules.map indexEntry) ++ "\n\x7d;\n"

section

variable {m : Type → Type} [Monad m] (fs : FileSystem m)

/-- Makes a directory, if that is wanted. -/
def createDirs (isWanted : Bool) (path : Path) : m (Except BuildError Unit) := do
  if isWanted then return BuildError.ofFile path (← fs.createDirs path) else return .ok ()

/-- Writes one module; gives its path. -/
def writeModule (out : Path) (createsDirs : Bool) (module : ViewModule) :
    m (Except BuildError Path) := do
  let path := Path.join out (ViewName.modulePath module.viewName)
  let made ←
    match Path.parent? path with
    | some parent => createDirs fs createsDirs parent
    | none => pure (.ok ())
  match made with
  | .error e => return .error e
  | .ok () => return (BuildError.ofFile path (← fs.write path module.source)).map fun _ => path

/-- Writes modules up to the first that cannot be written; gives their paths. -/
def writeModules (out : Path) (createsDirs : Bool) :
    List ViewModule → m (Except BuildError (List Path))
  | [] => return .ok []
  | module :: modules => do
    match ← writeModule fs out createsDirs module with
    | .error e => return .error e
    | .ok path => return (← writeModules out createsDirs modules).map (path :: ·)

/-- Writes all modules and the index; gives the paths in order. What was written before a failure
stays. -/
def write (out : Path) (createsDirs : Bool) (modules : List ViewModule) :
    m (Except BuildError (List Path)) := do
  match ← createDirs fs createsDirs out with
  | .error e => return .error e
  | .ok () =>
    match ← writeModules fs out createsDirs modules with
    | .error e => return .error e
    | .ok paths =>
      let path := Path.join out indexFile
      return (BuildError.ofFile path (← fs.write path (index modules))).map fun _ => paths ++ [path]

end

end Output
end BladeView
