import BladeView.ViewModule.View

/-!
# The description of a view

A module hands the running application an object that describes the view: its layout, sections,
data, assets and functions.
-/
namespace BladeView

open Script

namespace Section

/-- The script form of a section. -/
def toExpr (s : Section) : Expr :=
  let script : Expr :=
    match s.script with
    | some code => .object [("type", .json "code"), ("content", .json code)]
    | none => .raw "\x7b\x7d"
  .object
    [("type", .json s.kind.name), ("preloader", .bool s.needsPlaceholder),
     ("useVars", .bool s.usesInjected), ("script", script)]

end Section

namespace View

/-- Sets the entry of a key, in its old place if there is one. -/
def setEntry (key : Text) (value : Expr) : List (Text × Expr) → List (Text × Expr)
  | [] => [(key, value)]
  | entry :: entries =>
    if entry.1 == key then (key, value) :: entries else entry :: setEntry key value entries

/-- The entries of the sections. Of several sections with the same name the last counts. -/
def sectionEntries (sections : List Section) : List (Text × Expr) :=
  sections.foldl (fun entries s => setEntry s.name s.toExpr entries) []

/-- The configuration of a view without a wrapper. -/
def noWrapper : Text := "\x7b enable: false, tag: null, follow: true, attributes: \x7b\x7d \x7d"

/-- The shared entries, as they are spliced into the object. -/
def sharedEntries (v : View) : List (Text × Expr) :=
  let entries := Text.dropEndWhile (· == ',') (Text.trim v.shared.config)
  if entries.isEmpty then [] else [([], .raw entries)]

/-- The names of the sections that rendering shows. -/
def renderedNames (v : View) : List Text :=
  Section.renderedNames v.renderTemplate
    (v.sections.map fun s => { s with fragment := v.finish s.fragment })

/-- A function that also sets the state. -/
def stateFunction (v : View) (params : List Text) (head : List Stmt) : Expr :=
  .function params (head ++ v.declarations.stateUpdates)

/-- Hands each entry of the data on. -/
def updateEach : Text :=
  "for (const key in data) \x7b\n                if (data.hasOwnProperty(key)) \x7b\n                    this.updateVariableItem(key, data[key]);\n                \x7d\n            \x7d"

/-- Updates the variable of an entry, if there is one. -/
def updateOne : Text :=
  "if (typeof __UPDATE_DATA_TRAIT__[key] === \"function\") \x7b\n                __UPDATE_DATA_TRAIT__[key](value);\n            \x7d"

/-- What the view is: its layout, sections and wrapper. -/
def structureEntries (v : View) : List (Text × Expr) :=
  [("superView", (v.header.parent.map fun parent => Expr.raw parent.viewScript).getD .null),
   ("hasSuperView", .bool v.header.parent.isSome),
   ("viewType", .str v.header.viewType),
   ("sections", .object (sectionEntries v.sections)),
   ("wrapperConfig", .raw (v.wrapperConfig.getD noWrapper))]

/-- What the view's data is and what it shows of it when. -/
def dataEntries (v : View) : List (Text × Expr) :=
  [("hasAwaitData", .bool v.header.hasAwait),
   ("hasFetchData", .bool v.header.hasFetch),
   ("subscribe", .raw v.subscription.toScript),
   ("fetch", (v.header.fetch.map Expr.raw).getD .null),
   ("data", .raw "$$$DATA$$$"),
   ("viewId", .raw "__VIEW_ID__"),
   ("path", .raw "__VIEW_PATH__"),
   ("usesVars", .bool v.declarations.hasInjected),
   ("hasSections", .bool !v.sections.isEmpty),
   ("hasSectionPreload", .bool (v.sections.any (·.needsPlaceholder))),
   ("hasPrerender", .bool v.hasPrerender),
   ("renderLongSections", Expr.strings (Section.longNames v.sections)),
   ("renderSections", Expr.strings v.renderedNames),
   ("prerenderSections", Expr.strings (if v.hasPrerender then v.waitingNames else []))]

/-- What the view needs besides its markup. -/
def assetEntries (v : View) : List (Text × Expr) :=
  [("userDefined", .raw (v.assets.userDefined.getD "\x7b\x7d")),
   ("scripts", .array (v.assets.scripts.map (Asset.toExpr "src"))),
   ("styles", .array (v.assets.styles.map (Asset.toExpr "href"))),
   ("resources", .array (v.assets.resources.map Resource.toExpr))]

/-- What the view does. `scan` is the scan variant of its render function. -/
def functionEntries (v : View) (scan : Text) : List (Text × Expr) :=
  [("commitConstructorData", v.stateFunction [] []),
   ("updateVariableData", v.stateFunction ["data"] [.raw updateEach]),
   ("updateVariableItem",
     .function ["key", "value"] [.raw "this.data[key] = value;", .raw updateOne]),
   ("loadServerData", v.loadServerData.toExpr),
   ("prerender", v.prerender.toExpr),
   ("render", v.render.toExpr),
   ("virtualRender", .raw scan),
   ("init", v.initFunction.toExpr),
   ("destroy", .raw "function() \x7b\x7d")]

/-- The object that describes a view. -/
def description (v : View) (scan : Text) : Expr :=
  .object (v.structureEntries ++ v.sharedEntries ++ v.dataEntries ++ v.assetEntries
    ++ v.functionEntries scan)

end View
end BladeView
