import BladeView.Text.Basic
import BladeView.Text.Case

/-!
# Regions of a template

Some parts of a template are set apart by the words that open and close them. A region runs from
its opening word to the nearest closing one; an opening word without a closing one is plain text.
-/
namespace BladeView

namespace Text

/-- The rest of a text after a word that ends there. -/
def afterWord? (word t : Text) : Option Text := (after? word t).filter endsWord

/-- The rest of a text after a word in any case that ends there. -/
def afterFoldWord? (word t : Text) : Option Text := (afterFold? word t).filter endsWord

end Text

namespace Region

/-- Reads a comment; gives the rest. -/
def comment? (t : Text) : Option Text := do
  let inside ← Text.after? "\x7b\x7b--" t
  let (_, rest) ← Text.cut? "--\x7d\x7d" inside
  return rest

/-- A template without its comments. -/
def stripComments (t : Text) : Text :=
  Text.substitute (fun _ t => (comment? t).map fun rest => ([], rest)) t

/-- Reads a verbatim region: its content and the rest. -/
def verbatim? (t : Text) : Option (Text × Text) := do
  Text.cut? "@endverbatim" (← Text.afterWord? "@verbatim" t)

/-- Reads the region of a directive given by its name in small letters: the content and the
rest. -/
def named? (name t : Text) : Option (Text × Text) := do
  Text.upTo? (Text.afterFold? ("@end" ++ name)) (← Text.afterFoldWord? ("@" ++ name) t)

/-- Reads a closing tag, which may have blanks before its bracket. -/
def closingTag? (name t : Text) : Option Text := do
  Text.after? ">" (Text.trimStart (← Text.afterFold? ("</" ++ name) t))

/-- What stands in a tag up to its bracket, and what follows the bracket. -/
def tagRest? (t : Text) : Option (Text × Text) := Text.cut? ">" t

/-- Reads a script element up to the nearest place where `close` reads its closing tag: the text
of its attributes, its body and the rest. -/
def script? (close : Text → Option Text) (t : Text) : Option (Text × Text × Text) := do
  let (attributes, inside) ← tagRest? (← Text.afterFoldWord? "<script" t)
  let (body, rest) ← Text.upTo? close inside
  return (attributes, body, rest)

/-- The words that mark a script as setup code. -/
def setupWords : List Text := ["setup", "import", "imports", "scope", "scoped"]

/-- Whether one of the setup words stands in a text as a whole word. -/
def mentionsSetup (t : Text) : Bool :=
  (Text.readFirst? (fun before t =>
    if before.any isWordChar then none
    else (setupWords.findSome? fun word => Text.afterFoldWord? word t).map fun rest => ((), rest))
    none t).isSome

end Region
end BladeView
