import BladeView.Text.Basic

/-!
# Paths

A path is a text; slashes divide it into components. Repeated slashes, a slash at the end, and
single dots that are not at the front divide nothing.
-/
namespace BladeView

/-- A path to a file or directory. -/
abbrev Path := Text

namespace Path

/-- A step of a path. The constructors are in the order in which paths are sorted. -/
inductive Component where
  | root
  | here
  | up
  | name (n : Text)
  deriving DecidableEq

namespace Component

/-- A component as it is written. -/
def text : Component → Text
  | root => "/"
  | here => "."
  | up => ".."
  | name n => n

/-- The name of a component that has one. -/
def name? : Component → Option Text
  | name n => some n
  | _ => none

/-- The place of a component among the kinds of components. -/
def rank : Component → Nat
  | root => 0
  | here => 1
  | up => 2
  | name _ => 3

/-- Components are ordered by kind, and names by their characters. -/
def le (a b : Component) : Bool :=
  match a, b with
  | name n, name k => !k.lex n fun c d => Nat.blt c.toNat d.toNat
  | _, _ => a.rank ≤ b.rank

end Component

/-- A piece of a path that is not at its front. -/
def component? (piece : Text) : Option Component :=
  if piece.isEmpty || piece == ".".toList then none
  else if piece == "..".toList then some .up
  else some (.name piece)

/-- Whether a path starts at the root. -/
def isAbsolute (p : Path) : Bool := Text.startsWith "/" p

/-- The components of a path. -/
def components (p : Path) : List Component :=
  let pieces := Text.splitOn '/' p
  let front :=
    if isAbsolute p then [Component.root]
    else if pieces.head? == some ".".toList then [.here]
    else []
  front ++ pieces.filterMap component?

/-- The step that a piece of a path stands for. -/
def step (piece : Text) : Component :=
  if piece == ".".toList then .here
  else if piece == "..".toList then .up
  else .name piece

/-- The steps that are taken to follow a path. Single dots are steps too: they ask for a
directory. -/
def steps (p : Path) : List Component :=
  (if isAbsolute p then [.root] else [])
    ++ ((Text.splitOn '/' p).filter fun piece => !piece.isEmpty).map step

/-- Sorts paths component by component. -/
def le (p q : Path) : Bool := leComponents (components p) (components q)
where
  /-- The first difference decides; a path comes before those that go on from it. -/
  leComponents : List Component → List Component → Bool
    | [], _ => true
    | _ :: _, [] => false
    | a :: as, b :: bs => if a == b then leComponents as bs else a.le b

/-- The components that lead from a directory to a path below it. -/
def relative? (base p : Path) : Option (List Component) :=
  if (components base).isPrefixOf (components p) then
    some ((components p).drop (components base).length)
  else none

/-- A path followed by another one. An absolute path stands for itself, and an empty one leaves a
slash at the end. -/
def join (p part : Path) : Path :=
  if isAbsolute part then part
  else if p.isEmpty || Text.endsWith "/" p then p ++ part
  else p ++ "/" ++ part

/-! ## The last component -/

/-- The name at the end of a path. -/
def fileName? (p : Path) : Option Text := (components p).getLast?.bind Component.name?

/-- Whether a piece of a path divides nothing. -/
def isIdle (piece : Text) : Bool := (component? piece).isNone

/-- The pieces of a path without those at its end that divide nothing. The piece at the front
stays. -/
def trimPieces : List Text → List Text
  | [] => []
  | first :: pieces => first :: (pieces.reverse.dropWhile isIdle).reverse

/-- The path with the given pieces. -/
def ofPieces : List Text → Path
  | [[]] => "/"
  | pieces => Text.join "/" pieces

/-- A path without what divides nothing at its end. -/
def trimmed (p : Path) : Path :=
  if p.isEmpty then p else ofPieces (trimPieces (Text.splitOn '/' p))

/-- The directory that the last component of a path is in. -/
def parent? (p : Path) : Option Path :=
  match (components p).getLast? with
  | none | some .root => none
  | some _ => some (ofPieces (trimPieces (trimPieces (Text.splitOn '/' p)).dropLast))

/-- A path and at most `n` of the directories it is in, innermost first. -/
def ancestorsUpTo : Nat → Path → List Path
  | 0, p => [p]
  | n + 1, p =>
    match parent? p with
    | none => [p]
    | some parent => p :: ancestorsUpTo n parent

/-- A path and the directories it is in, innermost first. Each has one component less. -/
def ancestors (p : Path) : List Path := ancestorsUpTo (components p).length p

/-- A name up to its last dot. A dot at the front does not count. -/
def stem (name : Text) : Text :=
  let upToDot := (name.reverse.dropWhile (· != '.')).drop 1
  if upToDot.isEmpty then name else upToDot.reverse

/-- The path with another extension on its file name. A path without a file name stays as it
is. -/
def withExtension (extension : Text) (p : Path) : Path :=
  match fileName? p with
  | none => p
  | some name =>
    let pieces := trimPieces (Text.splitOn '/' p)
    ofPieces (pieces.dropLast ++ [stem name ++ "." ++ extension])

end Path
end BladeView
