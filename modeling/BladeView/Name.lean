import BladeView.Group
import BladeView.Text.Word

/-!
# Names

Directive arguments give names in several spellings: quoted, with a sigil, or bare.
-/
namespace BladeView.Name

/-- The inside of a text that begins and ends with the same quotation mark, blanks around it left
aside. -/
def unquote? (t : Text) : Option Text :=
  match Text.trim t with
  | [] => none
  | q :: cs => if isQuote q then Text.enclosed? q q (q :: cs) else none

/-- A name without its quotes or, if it has none, without its leading sigils. -/
def bare (t : Text) : Text :=
  match unquote? t with
  | some inner => inner
  | none => (Text.trim t).dropWhile (· == '$')

/-- A letter or underscore, then letters, digits, underscores and dollar signs. -/
def isIdentifier : Text → Bool
  | [] => false
  | c :: cs => isNameStart c && cs.all isNameChar

end BladeView.Name
