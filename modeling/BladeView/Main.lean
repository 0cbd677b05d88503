import BladeView.Command.Basic
import BladeView.Text.Utf8

/-!
# The program

The command line, on the files of the machine.
-/
namespace BladeView.Disk

/-- The kind of a failure that the machine reports. -/
def errorKind : IO.Error → FileError
  | .noFileOrDirectory .. => .notFound
  | .alreadyExists .. => .alreadyExists
  | .inappropriateType _ code _ => if code == 21 then .isADirectory else .notADirectory
  | _ => .other

/-- Catches the failure of an action. -/
def attempt {α : Type} (action : IO α) : IO (Except FileError α) := do
  match ← action.toBaseIO with
  | .ok value => return .ok value
  | .error e => return .error (errorKind e)

/-- The text of a file. -/
def read (path : Path) : IO (Except FileError Text) := do
  match ← attempt (IO.FS.readBinFile (String.ofList path)) with
  | .error e => return .error e
  | .ok bytes =>
    match Utf8.decode? bytes.toList with
    | some text => return .ok text
    | none => return .error .invalidData

/-- Whether something is at a path, be it a file that is no text, or a directory. -/
def isThere (path : Path) : IO Bool := do
  match ← read path with
  | .ok _ => return true
  | .error e => return e != .notFound && e != .notADirectory

/-- Whether a directory is at a path. -/
def isDirectory (path : Path) : IO Bool := do
  match ← attempt (IO.FS.realPath (String.ofList path)) with
  | .ok place => place.isDir
  | .error _ => return false

/-- The files at or below a path. -/
partial def filesBelow (path : Path) : IO (List Path) := do
  let root ← IO.FS.realPath (String.ofList path)
  match ← attempt root.readDir with
  | .error _ => return if ← isThere path then [path] else []
  | .ok entries =>
    let below ← entries.toList.mapM fun entry => filesBelow (Path.join path entry.fileName.toList)
    return below.flatten

/-- The files of the machine. -/
def system : FileSystem IO where
  isThere
  isDirectory
  read
  write path text := attempt (IO.FS.writeFile (String.ofList path) (String.ofList text))
  remove path := do
    let _ ← attempt (IO.FS.removeFile (String.ofList path))
  makeDir path := attempt (IO.FS.createDir (String.ofList path))
  filesBelow

end BladeView.Disk

open BladeView in
/-- Runs the command line. -/
def main (args : List String) : IO UInt32 := do
  let report ← Command.runLine Disk.system (args.map String.toList)
  IO.print (String.ofList report.output)
  if let some message := report.failure then IO.eprintln ("Error: " ++ String.ofList message)
  if report.code == 2 then IO.eprint (String.ofList Command.usage)
  return report.code.toUInt32
