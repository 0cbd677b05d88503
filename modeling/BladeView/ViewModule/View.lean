import BladeView.Asset.Basic
import BladeView.Header
import BladeView.Prerender
import BladeView.ViewModule.State
import BladeView.ViewModule.Template
import BladeView.Wrapper.Shared

/-!
# Views

Everything that is known about a view once its template has been read, and the functions of its
module.
-/
namespace BladeView

open Script

/-- A view that has been read. -/
structure View where
  name : Text
  declarations : Declarations
  header : Header
  assets : Assets
  shared : SharedCode
  /-- The verbatim contents that the placeholders in the templates stand for. -/
  verbatim : List Text
  /-- What the view shows; the wrapped region if there is a wrapper. -/
  template : Text
  /-- The fragments that do something before and after the wrapped region. -/
  before : Text
  after : Text
  wrapperConfig : Option Text
  sections : List Section
  subscription : Subscription
  hasPrerender : Bool
  /-- The body itself depends on injected data, so that a pass without it shows a placeholder. -/
  bodyPlaceholder : Bool

namespace View

/-! ## Templates -/

/-- The variable that a pass collects its output in. -/
def output : Text := "__outputRenderedContent__"

/-- The variable for output that is not shown. -/
def junk : Text := "__junkContent__"

/-- What stands in for content that waits for data. -/
def placeholder : Text :=
  "<div class=\"data-preloader\" ref=\"$\x7b__VIEW_ID__\x7d\" data-view-name=\"$\x7b__VIEW_PATH__\x7d\">$\x7bApp.View.text('loading')\x7d</div>"

/-- A text with the verbatim contents and the final calls. -/
def finish (v : View) (t : Text) : Text := Template.finish v.verbatim t

/-- The sections that do not use injected data. -/
def staticSections (v : View) : List Section := v.sections.filter fun s => !s.usesInjected

/-- What rendering shows. The sections that the pass before it has shown are left out. -/
def renderTemplate (v : View) : Text :=
  v.finish (if v.hasPrerender then Section.removeAll v.staticSections v.template else v.template)

/-- A section that shows a placeholder. -/
def placeholderSection (name : Text) : Text :=
  "$\x7bApp.View.section(" ++ Quoted.single name ++ ", `" ++ placeholder ++ "`, 'html')\x7d"

/-- What a section shows before the data arrives. -/
def prerenderSection (s : Section) : Option Text :=
  if s.needsPlaceholder then some (placeholderSection s.name)
  else if !s.usesInjected && !s.fragment.isEmpty then some s.fragment
  else none

/-- The names of the sections that show a placeholder, each once. -/
def waitingNames (v : View) : List Text :=
  Declarations.distinct ((v.sections.filter (·.needsPlaceholder)).map (·.name))

/-- What is shown before the data arrives: the static sections, placeholders for those that wait,
and a placeholder for the body if nothing else would stand for it. -/
def prerenderPieces (v : View) : List Text :=
  let pieces := v.sections.filterMap prerenderSection
  if pieces.isEmpty || (v.waitingNames.isEmpty && v.bodyPlaceholder) then pieces ++ [placeholder]
  else pieces

/-- What the pass before the data arrives shows. -/
def prerenderTemplate (v : View) : Text := v.finish (Text.join "\n" v.prerenderPieces)

/-! ## Functions -/

/-- Assigns a template to a variable; an error is reported and, if asked for, shown. -/
def guardedAssign (target body : Text) (showsError : Bool) : Stmt :=
  let shown : List Stmt :=
    if showsError then [.assign target (.raw "this.__showError(e.message)")] else []
  .guarded [.assign target (.template body)] "e" (shown ++ [.raw "console.warn(e);"])

/-- Returns the output, or hands it to the parent layout. -/
def returnStmt (v : View) : Stmt :=
  match v.header.parent with
  | none => .return (.raw output)
  | some parent =>
    let data := (parent.data.map fun d => Text.join [] [", ", d]).getD []
    .return (.raw ("this.__extends(" ++ parent.viewScript ++ data ++ ")"))

/-- Evaluates fragments for what they do; nothing for no fragments. -/
def evaluate (v : View) (fragments : Text) : List Stmt :=
  if fragments.isEmpty then [] else [guardedAssign junk (v.finish fragments) false]

/-- The function that renders the view. -/
def render (v : View) : Function where
  body :=
    let hasOuter := !v.before.isEmpty || !v.after.isEmpty
    v.declarations.stateUpdates ++ [.declare output (some (.str []))]
      ++ (if hasOuter then [.declare junk (some (.str []))] else [])
      ++ v.evaluate v.before ++ [guardedAssign output v.renderTemplate true]
      ++ v.evaluate v.after ++ [v.returnStmt]

/-- The function that shows something before the data arrives. -/
def prerender (v : View) : Function where
  body :=
    if v.hasPrerender then
      v.declarations.stateUpdates
        ++ [.declare output (some (.str [])), guardedAssign output v.prerenderTemplate true,
            v.returnStmt]
    else [.return .null]

/-- The function that runs when the view starts. -/
def initFunction (v : View) : Function where
  body := (((Text.lines v.header.init).map Text.trim).filter fun line => !line.isEmpty).map .raw

/-- The function that takes the server's data: the declarations take effect, nothing is shown. -/
def loadServerData (v : View) : Function where
  body := v.declarations.stateUpdates ++ [.return (.bool true)]

end View
end BladeView
