import BladeView.ViewModule.Description
import BladeView.ViewModule.ScanVariant
import BladeView.ViewName

/-!
# View modules

A view becomes a module that exports one function. The function declares what the template
declares, and hands the application the description of the view.
-/
namespace BladeView

open Script

/-- A compiled view. -/
structure ViewModule where
  functionName : Text
  viewName : Text
  hasPrerender : Bool
  render : Text
  virtualRender : Text
  prerender : Text
  init : Text
  loadServerData : Text
  /-- The text of the whole module. -/
  source : Text
  deriving DecidableEq

namespace View

/-- The code that stands before the view function. -/
def preamble (v : View) : Text :=
  let setup := Text.trim v.assets.setup
  let blocks := (if setup.isEmpty then [] else [setup]) ++ v.assets.moduleCode.map Text.trim
  if blocks.isEmpty then [] else Text.join "\n\n" blocks ++ "\n\n"

/-- What the view function takes from the application. -/
def systemData : Text :=
  "const \x7bApp, View, __base__, __layout__, __page__, __component__, __partial__, __system__, __env = \x7b\x7d, __helper = \x7b\x7d\x7d = systemData;"

/-- The body of the view function. -/
def functionBody (v : View) (scan : Text) : List Stmt :=
  [.raw systemData,
   .const "__VIEW_PATH__" (.str v.name),
   .const "__VIEW_ID__" (.raw "$$$DATA$$$.__SSR_VIEW_ID__ || App.View.generateViewId()"),
   .const "__VIEW_TYPE__" (.str v.header.viewType)]
    ++ (Text.lines v.shared.function).map (fun line => .raw (Text.trimEnd line))
    ++ v.declarations.statements
    ++ [.expr (.raw ("self.setup(" ++ Quoted.single v.name ++ ", " ++ (v.description scan).print 1
          ++ ")")),
        .return (.raw "self")]

/-- The module of a view. -/
def toModule (v : View) : ViewModule :=
  let name := ViewName.functionName v.name
  let render := v.render.print 2
  let scan := ScanVariant.ofCode render
  { functionName := name
    viewName := v.name
    hasPrerender := v.hasPrerender
    render
    virtualRender := scan
    prerender := v.prerender.print 2
    init := v.initFunction.print 2
    loadServerData := v.loadServerData.print 2
    source :=
      v.preamble ++ "export function " ++ name
        ++ "($$$DATA$$$ = \x7b\x7d, systemData = \x7b\x7d) \x7b\n"
        ++ printBlock 1 (v.functionBody scan) ++ "\x7d" }

end View
end BladeView
