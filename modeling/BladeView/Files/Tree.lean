import BladeView.Files.System
import BladeView.Text.Utf8

/-!
# Trees of files

Files and directories held in memory, as they are seen from a working directory. Paths may leave
the working directory; what is above it is there, and holds nothing but what is put there.
-/
namespace BladeView

/-- Where the names of a place start. -/
inductive Base where
  | root
  /-- So many directories above the working directory. -/
  | above (levels : Nat)
  deriving DecidableEq

/-- Where something can be: the names that lead to it from a base. -/
structure Place where
  base : Base := .above 0
  names : List Text := []
  deriving DecidableEq

namespace Place

/-- The directory that a place is in. The root is in itself. -/
def up (place : Place) : Place :=
  if place.names.isEmpty then
    match place.base with
    | .root => place
    | .above levels => { base := .above (levels + 1) }
  else { place with names := place.names.dropLast }

/-- The place of a name in a directory. -/
def child (place : Place) (name : Text) : Place := { place with names := place.names ++ [name] }

/-- The names that lead from a place to one at or below it. -/
def below? (top place : Place) : Option (List Text) :=
  if top.base == place.base && top.names.isPrefixOf place.names then
    some (place.names.drop top.names.length)
  else none

end Place

/-- What is at a place of a tree. -/
inductive FileNode where
  | directory
  | file (bytes : List UInt8)
  deriving DecidableEq

/-- Files and directories by their places. -/
structure FileTree where
  nodes : List (Place × FileNode) := []

namespace FileTree

/-! ## Places -/

/-- What is at a place. The bases are always there. -/
def node? (t : FileTree) (place : Place) : Option FileNode :=
  if place.names.isEmpty then some .directory
  else (t.nodes.find? fun entry => entry.1 == place).map Prod.snd

/-- Puts something at a place, in place of what was there. -/
def put (t : FileTree) (place : Place) (node : FileNode) : FileTree :=
  ⟨if t.nodes.any fun entry => entry.1 == place then
    t.nodes.map fun entry => if entry.1 == place then (place, node) else entry
  else t.nodes ++ [(place, node)]⟩

/-- Empties a place. -/
def erase (t : FileTree) (place : Place) : FileTree :=
  ⟨t.nodes.filter fun entry => entry.1 != place⟩

/-! ## Following paths -/

/-- The most bytes that a name may have. -/
def maxName : Nat := 255

/-- The most bytes that a path may have. -/
def maxPath : Nat := 4095

/-- Refuses a place that is not a directory. -/
def directory (t : FileTree) (place : Place) : Except FileError Place :=
  match t.node? place with
  | some .directory => .ok place
  | some (.file _) => .error .notADirectory
  | none => .error .notFound

/-- The place of a name in a directory, if the name is not too long. -/
def enter (place : Place) (name : Text) : Except FileError Place :=
  if maxName < (Text.toBytes name).length then .error .nameTooLong else .ok (place.child name)

/-- The place that some steps lead to. Each must be taken at a directory. -/
def follow (t : FileTree) (place : Place) : List Path.Component → Except FileError Place
  | [] => .ok place
  | step :: rest => do
    let place ← t.directory place
    match step with
    | .root => t.follow { base := .root } rest
    | .here => t.follow place rest
    | .up => t.follow place.up rest
    | .name n => t.follow (← enter place n) rest

/-- The steps of a path, if it can be asked for. -/
def stepsOf (p : Path) : Except FileError (List Path.Component) :=
  if p.any (· == '\x00') then .error .invalidPath
  else if p.isEmpty then .error .notFound
  else if maxPath < (Text.toBytes p).length then .error .nameTooLong
  else .ok p.steps

/-- The place that a path leads to. A slash at the end asks for a directory. -/
def find (t : FileTree) (p : Path) : Except FileError Place := do
  let place ← t.follow {} (← stepsOf p)
  if Text.endsWith "/" p then t.directory place else .ok place

/-- The directory that the last step of a path is taken at, and that step. -/
def findLast (t : FileTree) (p : Path) : Except FileError (Place × Path.Component) := do
  let steps ← stepsOf p
  match steps.getLast? with
  | none => .error .notFound
  | some last => return (← t.directory (← t.follow {} steps.dropLast), last)

/-! ## Operations -/

/-- What is at a path. -/
def get? (t : FileTree) (p : Path) : Option FileNode :=
  match t.find p with
  | .ok place => t.node? place
  | .error _ => none

/-- The bytes of a file. -/
def readBytes (t : FileTree) (p : Path) : Except FileError (List UInt8) := do
  match t.node? (← t.find p) with
  | some (.file bytes) => .ok bytes
  | some .directory => .error .isADirectory
  | none => .error .notFound

/-- The text of a file. -/
def read (t : FileTree) (p : Path) : Except FileError Text := do
  match Utf8.decode? (← t.readBytes p) with
  | some text => .ok text
  | none => .error .invalidData

/-- The tree with a file written. Its directory must be there. -/
def write (t : FileTree) (p : Path) (bytes : List UInt8) : Except FileError FileTree := do
  match ← t.findLast p with
  | (place, .name n) =>
    if Text.endsWith "/" p then .error .isADirectory
    else
      let target ← enter place n
      if t.node? target == some .directory then .error .isADirectory
      else .ok (t.put target (.file bytes))
  | _ => .error .isADirectory

/-- The tree with a directory made. The one it is in must be there. -/
def makeDir (t : FileTree) (p : Path) : Except FileError FileTree := do
  match ← t.findLast p with
  | (place, .name n) =>
    let target ← enter place n
    if (t.node? target).isSome then .error .alreadyExists else .ok (t.put target .directory)
  | _ => .error .alreadyExists

/-- The tree without a file; nothing changes if there is none. -/
def remove (t : FileTree) (p : Path) : FileTree :=
  match t.find p with
  | .ok place =>
    match t.node? place with
    | some (.file _) => t.erase place
    | _ => t
  | .error _ => t

/-- The files at or below a place, by the names that lead to them from there. -/
def filesAt (t : FileTree) (top : Place) : List (List Text × List UInt8) :=
  t.nodes.filterMap fun entry =>
    match entry.2, top.below? entry.1 with
    | .file bytes, some names => some (names, bytes)
    | _, _ => none

/-- The files of the working directory, by the names that lead to them. -/
def files (t : FileTree) : List (List Text × List UInt8) := t.filesAt {}

/-- The files at or below a path. -/
def filesBelow (t : FileTree) (p : Path) : List Path :=
  match t.find p with
  | .ok place => (t.filesAt place).map fun file => file.1.foldl Path.join p
  | .error _ => []

/-- Carries out an operation that may change the tree. -/
def update (change : FileTree → Except FileError FileTree) :
    StateM FileTree (Except FileError Unit) := do
  match change (← get) with
  | .ok t =>
    set t
    return .ok ()
  | .error e => return .error e

/-- The operations on files, on a tree. -/
def system : FileSystem (StateM FileTree) where
  isThere p := return ((← get).get? p).isSome
  isDirectory p := return (← get).get? p == some .directory
  read p := return (← get).read p
  write p text := update fun t => t.write p (Text.toBytes text)
  remove p := modify fun t => t.remove p
  makeDir p := update fun t => t.makeDir p
  filesBelow p := return (← get).filesBelow p

end FileTree
end BladeView
