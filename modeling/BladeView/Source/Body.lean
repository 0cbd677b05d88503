import BladeView.Source.Verbatim
import BladeView.Group

/-!
# The body of a template

The body is what is left of a template for rendering: verbatim regions are protected, backticks
are escaped, and the directives that configure the view instead of rendering something are
removed. A directive that fills its lines is removed with its line break.
-/
namespace BladeView

/-- What is left of a template for rendering, and the verbatim contents its placeholders stand
for. -/
structure Body where
  text : Text
  verbatim : List Text

namespace Body

/-! ## View directives -/

/-- Directives that take an argument list or none. -/
def markers : List Text :=
  ["pageStart", "pageOpen", "pageEnd", "pageClose", "docStart", "docEnd", "await"]

/-- Directives that count only with an argument list. -/
def settings : List Text :=
  ["extends", "vars", "let", "const", "useState", "fetch", "viewType", "viewtype"]

/-- A directive may start after a character, unless that is another at sign or belongs to a
name. -/
def startsDirective (before : Option Char) : Bool :=
  !before.any fun c => c == '@' || isNameChar c

/-- Reads one of the named directives with its argument list; gives the rest. A list that is not
closed leaves the directive alone, and so does a missing list where one is needed. -/
def directive? (names : List Text) (needsArgs : Bool) (before : Option Char) :
    Text → Option Text
  | '@' :: cs =>
    let name := Text.word cs
    let rest := cs.drop name.length
    if startsDirective before && !name.isEmpty && names.contains name then
      match Group.args? rest with
      | some (_, after) => some after
      | none => if Group.opensArgs rest || needsArgs then none else some rest
    else none
  | _ => none

/-- Reads a directive that fills its lines, from the start of a line to the break that ends it. -/
def wholeLine? (directive : Text → Option Text) (t : Text) : Option Text := do
  let rest ← directive (t.dropWhile fun c => isBlank c && c != '\n')
  match rest.dropWhile fun c => isBlank c && c != '\n' with
  | [] => some []
  | '\n' :: after => some after
  | _ => none

/-- Reads one of the named directives to be removed: from the start of a line a directive that
fills its lines, elsewhere the directive alone. -/
def removingDirectives (names : List Text) (needsArgs : Bool) (before : Option Char) (t : Text) :
    Option (Text × Text) :=
  match if !before.any (· != '\n') then wholeLine? (directive? names needsArgs none) t else none with
  | some rest => some ([], rest)
  | none => (directive? names needsArgs before t).map fun rest => ([], rest)

/-- A text without the named directives. -/
def removeDirectives (names : List Text) (needsArgs : Bool) (t : Text) : Text :=
  Text.substitute (removingDirectives names needsArgs) t

/-! ## Subscription -/

/-- A line that holds only a subscribe directive, with the inside of its argument list if it has
one. Within a tag the directive subscribes an attribute, and is no such line. -/
def standaloneSubscribe? (line : Text) : Option (Option Text) := do
  let rest ← Text.after? "@subscribe" (Text.trim line)
  if rest.head?.any isNameChar then none
  else if Text.isEmptyOrBlank rest then some none
  else
    let (inner, after) ← Group.args? rest
    if Text.isEmptyOrBlank after then some (some inner) else none

/-- Whether a line is left out of the body because it holds only a subscribe directive, with or
without an argument list. -/
def onlySubscribes (line : Text) : Bool :=
  match Text.after? "@subscribe" (Text.trimStart (Text.trimEnd line)) with
  | some rest =>
    !rest.head?.any isNameChar &&
      match Group.args? rest with
      | some (_, after) => Text.isEmptyOrBlank after
      | none => Text.isEmptyOrBlank rest
  | none => false

/-- A text without the lines that only configure the subscription. -/
def removeStandaloneSubscribe (t : Text) : Text :=
  Text.join "\n" ((Text.splitOn '\n' t).filter fun line => !onlySubscribes line)

/-- Reads the directive that turns subscription off; gives the rest. -/
def dontSubscribe? (t : Text) : Option Text := Text.afterFoldWord? "@dontsubscribe" t

/-! ## Regions -/

/-- Reads a setup script element; gives the rest. -/
def setupScript? (t : Text) : Option Text := do
  let (attributes, _, rest) ← Region.script? (Text.afterFold? "</script>") t
  if Region.mentionsSetup attributes then some rest else none

/-- The regions that configure the view. -/
def viewRegions : List Text := ["oninit", "register", "setup", "script"]

/-- Reads a region that configures the view; gives the rest. -/
def viewRegion? (t : Text) : Option Text :=
  (viewRegions.findSome? fun name => Region.named? name t).map Prod.snd

/-- Reads what is to be removed. -/
def removing (reader : Text → Option Text) (_ : Option Char) (t : Text) : Option (Text × Text) :=
  (reader t).map fun rest => ([], rest)

/-- A text without what `reader` reads. -/
def without (reader : Text → Option Text) (t : Text) : Text := Text.substitute (removing reader) t

/-! ## The body -/

/-- The body of a template whose comments are gone. -/
def ofTemplate (t : Text) : Body where
  verbatim := Verbatim.contents t
  text :=
    let escaped := Quoted.backticks (Verbatim.protect t)
    let rendered := without dontSubscribe? (without viewRegion? (without setupScript? escaped))
    removeStandaloneSubscribe
      (removeDirectives settings true (removeDirectives markers false rendered))

/-- The body's text with its verbatim contents put back. -/
def restored (b : Body) : Text := Verbatim.restore b.verbatim b.text

end Body
end BladeView
