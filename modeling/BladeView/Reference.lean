import BladeView.Group
import BladeView.Text.Word

/-!
# References to names

Whether compiled code refers to a name. The test works on text: a name counts wherever it stands as
a whole identifier that is not a property, and within a template only its interpolations count.
-/
namespace BladeView

namespace Text

/-- Whether a test holds somewhere in a text. The test sees the character before and the text from
there on. -/
def holdsSomewhere (test : Option Char → Text → Bool) (before : Option Char) : Text → Bool
  | [] => test before []
  | c :: cs => test before (c :: cs) || holdsSomewhere test (some c) cs

end Text

namespace Reference

/-- Whether a name stands at the front of a text as a whole identifier. A character that belongs to
names may not touch it, nor may a dot precede it. -/
def standsHere (name : Text) (before : Option Char) (t : Text) : Bool :=
  !(before.any fun c => isNameChar c || c == '.') &&
    (Text.after? name t).any fun rest => !rest.head?.any isNameChar

/-- Whether a name stands somewhere in a piece of code. -/
def mentions (name code : Text) : Bool :=
  !name.isEmpty && Text.holdsSomewhere (standsHere name) none code

/-- Whether one of some names stands in a piece of code. -/
def mentionsAny (names : List Text) (code : Text) : Bool := names.any fun name => mentions name code

/-- Reads an interpolation: the code in its braces and the rest. -/
def interpolation? : Text → Option (Text × Text)
  | '$' :: '\x7b' :: cs => Group.read? ('\x7b' :: cs)
  | _ => none

/-- Whether one of some names stands in an interpolation of a template. -/
def interpolatesAny (names : List Text) (template : Text) : Bool :=
  Text.holdsSomewhere (fun _ t =>
    (interpolation? t).any fun found => mentionsAny names found.1) none template

end Reference
end BladeView
