import BladeView.Text.Basic
import BladeView.Text.Case

/-!
# Names of view functions

The name of a view's function is built from the parts of the view's name, each with a capital
first letter.
-/
namespace BladeView.ViewName

/-- The characters that divide a view's name. -/
def isDivider (c : Char) : Bool := c == '.' || c == '-' || c == '_' || c == '/'

/-- The parts of a view's name between its dividers; some may be empty. -/
def nameParts : Text → List Text
  | [] => [[]]
  | c :: cs => if isDivider c then [] :: nameParts cs else Text.consFirst c (nameParts cs)

/-- The name of a view's function. A name that would start with a digit, or would be empty, starts
with a word of its own. -/
def functionName (view : Text) : Text :=
  let name := ((nameParts view).map Text.capitalize).flatten
  match name with
  | [] => "View"
  | c :: _ => if c.isDigit then "View" ++ name else name

end BladeView.ViewName
