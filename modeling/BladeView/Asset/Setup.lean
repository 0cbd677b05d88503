import BladeView.Group
import BladeView.Text.Word

/-!
# Setup code

The code of a setup script goes to the top of the module. Its import statements are collected
before everything else, and the object it exports describes the view's life cycle.
-/
namespace BladeView

/-- A script taken apart. -/
structure Setup where
  imports : List Text
  exported : Option Text
  code : Text

namespace Setup

/-- Whether the text between the keyword and the quoted source of an import is well-formed: blanks,
or any clause that ends in the word `from` between blanks. -/
def isImportClause (t : Text) : Bool :=
  t.head?.any isBlank &&
    (Text.isEmptyOrBlank t ||
      (t.getLast?.any isBlank && Text.endsWith "from" (Text.trimEnd t) &&
        (let clause := (Text.trimEnd t).dropLast.dropLast.dropLast.dropLast
         1 < clause.length && clause.getLast?.any isBlank)))

/-- Quotation marks of an import's source. -/
def isSourceQuote (c : Char) : Bool := c == '\x27' || c == '\x22'

/-- Reads the quoted source of an import; the two quotes need not be the same. -/
def importSource? : Text → Option Text
  | q :: cs =>
    let inSource := fun c => !isSourceQuote c && c != '\n'
    let rest := cs.dropWhile inSource
    if isSourceQuote q && cs.head?.any inSource && rest.head?.any isSourceQuote then
      some (rest.drop 1)
    else none
  | [] => none

/-- Reads an import statement at the start of a line; gives the rest. -/
def import? (before : Option Char) (t : Text) : Option Text := do
  if before.any (· != '\n') then none
  else
    let rest ← Text.after? "import" (t.dropWhile isSpaceOrTab)
    let inClause := fun c => !isSourceQuote c && c != ';'
    if isImportClause (rest.takeWhile inClause) then
      let after := (← importSource? (rest.dropWhile inClause)).dropWhile isSpaceOrTab
      return (Text.after? ";" after).getD after
    else none

/-- The import statements of a script. -/
def importsOf (t : Text) : List Text :=
  Text.readAll (fun before t => (import? before t).map fun rest =>
    (Text.trim (t.take (t.length - rest.length)), rest)) t

/-- A script without its import statements. -/
def withoutImports (t : Text) : Text :=
  Text.substitute (fun before t => (import? before t).map fun rest => ([], rest)) t

/-- Reads the start of a default export, and gives the text from its object on. -/
def export? (t : Text) : Option Text := do
  let rest ← Text.after? "export" t
  if rest.head?.any isBlank then
    let rest := Text.trimStart (← Text.after? "default" (Text.trimStart rest))
    if Text.startsWith "\x7b" rest then some rest else none
  else none

/-- Takes the first default export out of a script, if it is an object that is closed. -/
def takeExport (t : Text) : Option Text × Text :=
  let found := do
    let (before, object, _) ← Text.readFirst? (fun _ t => (export? t).map fun o => (o, [])) none t
    let (inner, rest) ← Group.read? object
    return (before, "\x7b" ++ inner ++ "\x7d", (Text.after? ";" rest).getD rest)
  match found with
  | some (before, object, after) => (some object, before ++ after)
  | none => (none, t)

/-- A script taken apart. -/
def ofCode (t : Text) : Setup :=
  let (exported, code) := takeExport (withoutImports t)
  ⟨importsOf t, exported, Text.trim code⟩

end Setup
end BladeView
