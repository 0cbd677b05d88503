import BladeView.Text.Basic

/-!
# Shared wrapper code

A project may keep code that belongs to every view in one file: statements for the view function,
and entries for the view's description. Comment lines mark the two regions.
-/
namespace BladeView

/-- The code that all views share. -/
structure SharedCode where
  /-- Statements for the top of every view function. -/
  function : Text := []
  /-- Object entries for every view's description. -/
  config : Text := []
  deriving DecidableEq

namespace SharedCode

/-- Reads a line break. -/
def lineBreak? (t : Text) : Option Text := Text.after? "\n" ((Text.after? "\r" t).getD t)

/-- Reads a comment of the given words, and the spaces and tabs after it. -/
def comment? (words t : Text) : Option Text := do
  let rest ← Text.after? words ((← Text.after? "//" t).dropWhile isSpaceOrTab)
  return rest.dropWhile isSpaceOrTab

/-- Reads the comment that ends the function region, with the end of its line. -/
def functionEnd? (t : Text) : Option Text := do
  let rest ← comment? "end wrapper" t
  (lineBreak? rest).or (if rest.isEmpty then some [] else none)

/-- The first region between a comment line of the given words and what `close` reads. -/
def region (opening : Text) (close : Text → Option Text) (t : Text) : Text :=
  match Text.readFirst? (fun _ t => do
      Text.upTo? close (← lineBreak? (← comment? opening t))) none t with
  | some (_, inside, _) => Text.trim inside
  | none => []

/-- Reads the shared code of a file; a region that is missing is empty. -/
def ofFile (t : Text) : SharedCode where
  function := region "start wrapper" functionEnd? t
  config := region "start wrapper config" (comment? "end wrapper config") t

end SharedCode
end BladeView
