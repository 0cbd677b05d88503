import BladeView.Text.Basic

/-!
# Called names

A call by a plain name goes to the view engine if the engine owns an operation of that name, and
to the helpers otherwise. Words of the script language and its global objects are called as they
are.
-/
namespace BladeView.Callee

/-- The operations that the view engine owns. -/
def viewFunctions : List String :=
  ["generateViewId", "execute", "evaluate", "escString", "text", "templateToDom", "view",
   "loadView", "renderView", "include", "includeIf", "extendView", "setSuperViewPath",
   "addViewEngine", "callViewEngineMounted", "startWrapper", "endWrapper", "registerSubscribe",
   "section", "yield", "yieldContent", "renderSections", "hasSection", "getChangedSections",
   "resetChangedSections", "isChangedSection", "emitChangedSections", "push", "stack", "once",
   "route", "on", "off", "emit", "init", "setApp", "setContainer", "clearOldRendering", "isAuth",
   "can", "cannot", "hasError", "firstError", "csrfToken", "foreach", "foreachTemplate"]

/-- The words of the script language. -/
def keywords : List String :=
  ["if", "else", "for", "while", "do", "switch", "case", "catch", "try", "finally", "function",
   "return", "typeof", "instanceof", "new", "delete", "void", "in", "of", "await", "async",
   "yield", "with", "super", "this", "import", "export", "class", "let", "const", "var", "throw",
   "true", "false", "null", "undefined"]

/-- The global objects and functions of the script language, and the application object. -/
def globals : List String :=
  ["App", "Math", "console", "JSON", "Date", "String", "Number", "Boolean", "Array", "Object",
   "Promise", "Map", "Set", "Error", "RegExp", "Symbol", "parseInt", "parseFloat", "isNaN",
   "isFinite", "encodeURIComponent", "decodeURIComponent", "encodeURI", "decodeURI", "setTimeout",
   "clearTimeout", "setInterval", "clearInterval", "requestAnimationFrame", "alert", "confirm",
   "prompt", "fetch", "window", "document", "localStorage", "sessionStorage", "structuredClone",
   "queueMicrotask"]

/-- Whether a text is one of the listed names. -/
def isListed (names : List String) (t : Text) : Bool := names.any fun name => name.toList == t

def isViewFunction (name : Text) : Bool := isListed viewFunctions name

def isKeyword (name : Text) : Bool := isListed keywords name

def isGlobal (name : Text) : Bool := isListed globals name

/-- The object that a plain call of `name` goes to. -/
def owner (name : Text) : Text := if isViewFunction name then "App.View" else "App.Helper"

/-- A name with the object that owns it. -/
def qualify (name : Text) : Text := owner name ++ "." ++ name

end BladeView.Callee
