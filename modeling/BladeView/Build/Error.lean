import BladeView.Files.System

/-!
# Build errors
-/
namespace BladeView

/-- Why a build, or the build of one view, fails. -/
inductive BuildError where
  /-- An operation on a file failed. -/
  | io (path : Path) (error : FileError)
  /-- The settings file is malformed. -/
  | settings (path : Path)
  deriving DecidableEq

namespace BuildError

/-- A failure at a path becomes a build error. -/
def ofFile {α : Type} (path : Path) (result : Except FileError α) : Except BuildError α :=
  result.mapError (io path)

end BuildError
end BladeView
