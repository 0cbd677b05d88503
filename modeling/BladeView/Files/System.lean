import BladeView.Files.Path

/-!
# File systems

What the build does with files is written against an interface, so that the same code runs on the
files of a machine and on a tree of files held in memory.
-/
namespace BladeView

/-- Why an operation on files fails. -/
inductive FileError where
  | notFound
  | alreadyExists
  | notADirectory
  | isADirectory
  /-- The file is not a text. -/
  | invalidData
  /-- A name, or the path as a whole, has too many bytes. -/
  | nameTooLong
  /-- The path holds a character that no path can hold. -/
  | invalidPath
  | other
  deriving DecidableEq

/-- The operations on files, as actions of `m`. -/
structure FileSystem (m : Type → Type) where
  /-- Whether a file or directory is at a path. -/
  isThere : Path → m Bool
  /-- Whether a directory is at a path. -/
  isDirectory : Path → m Bool
  /-- The text of a file. -/
  read : Path → m (Except FileError Text)
  /-- Writes a file, over one that may be there. -/
  write : Path → Text → m (Except FileError Unit)
  /-- Removes a file, if it can be removed. -/
  remove : Path → m Unit
  /-- Makes a directory in one that is there. -/
  makeDir : Path → m (Except FileError Unit)
  /-- The files at or below a path, in any order. Their paths continue the given one. -/
  filesBelow : Path → m (List Path)

namespace FileSystem

variable {m : Type → Type} [Monad m] (fs : FileSystem m)

/-- Accepts that a directory was not made because it is there. -/
def acceptPresent (p : Path) : Except FileError Unit → m (Except FileError Unit)
  | .error .alreadyExists => do
    return if ← fs.isDirectory p then .ok () else .error .alreadyExists
  | result => return result

/-- Makes the first of some directories, each of which is in the next. Those that are missing on
the way are made first; what was made before a failure stays. -/
def makeChain : List Path → m (Except FileError Unit)
  | [] => return .ok ()
  | p :: above => do
    if p.isEmpty then return .ok ()
    else
      match ← fs.makeDir p with
      | .error .notFound =>
        match ← makeChain above with
        | .ok () => fs.acceptPresent p (← fs.makeDir p)
        | .error e => return .error e
      | result => fs.acceptPresent p result

/-- Makes a directory and those it is in, so far as they are missing. -/
def createDirs (p : Path) : m (Except FileError Unit) := fs.makeChain p.ancestors

end FileSystem
end BladeView
