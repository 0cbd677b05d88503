import BladeView.Expression.Convert
import BladeView.Markup.Occurrence

/-!
# Inline directives

Directives that render something in place: blocks, included views, yielded content and small form
fields.
-/
namespace BladeView.Inline

/-- An argument: a literal without variables as a string, anything else as an expression. -/
def argument (convert : Text → Text) (arg : Text) : Text :=
  match Name.unquote? arg with
  | some inner => if inner.any (· == '$') then convert arg else Quoted.single inner
  | none => convert arg

/-- The arguments of a list. -/
def arguments (convert : Text → Text) (args : Text) : List Text :=
  (TopLevel.split args).map (argument convert)

/-- An interpolated call. -/
def call (name : Text) (args : List Text) : Text :=
  "$\x7b" ++ name ++ "(" ++ Text.join ", " args ++ ")\x7d"

/-! ## Blocks -/

/-- A subscription to a named block, or a block rendered in place. -/
def block? (convert : Text → Text) (d : Occurrence) : Option Text := do
  if d.isNamed ["onBlock", "onblock"] then
    return call "this.__subscribeBlock" (arguments convert (← d.args))
  else if d.isNamed ["useBlock", "mount", "mountBlock"] then
    return call "this.__useBlock" (arguments convert (← d.args))
  else none

def substituteBlocks (bindings : Bindings) (t : Text) : Text :=
  Occurrence.substitute (block? (Expression.toScript bindings)) t

/-! ## Included views -/

/-- The including directives: their spellings, the method that includes, and how many arguments
it has with the data of the included view. -/
def includes : List (List String × Text × Nat) :=
  [(["include"], "__include", 2), (["includeIf", "includeif"], "__includeif", 2),
   (["includeWhen", "includewhen"], "__includewhen", 3)]

/-- An included view. Without data of its own it is handed none. -/
def include? (convert : Text → Text) (d : Occurrence) : Option Text := do
  let (_, method, count) ← includes.find? fun entry => d.isNamed entry.1
  let args := arguments convert (← d.args)
  if args.isEmpty then none
  else
    let args := if args.length < count then args ++ [("\x7b\x7d" : Text)] else args
    return "$\x7bApp.View.renderView(this." ++ method ++ "(" ++ Text.join ", " args ++ "))\x7d"

def substituteIncludes (bindings : Bindings) (t : Text) : Text :=
  Occurrence.substitute (include? (Expression.toScript bindings)) t

/-! ## Fields -/

/-- Yielded content, the view's own id, form fields and calls of helpers. -/
def field? (convert : Text → Text) (d : Occurrence) : Option Text := do
  if d.isNamed ["yield"] then return call "App.View.yield" (arguments convert (← d.args))
  else if d.isNamed ["viewId", "viewid"] then return "$\x7bApp.View.generateViewId()\x7d"
  else if d.isNamed ["csrf"] then
    return "<input type=\"hidden\" name=\"_token\" value=\"$\x7bApp.View.csrfToken()\x7d\">"
  else if d.isNamed ["method"] then
    return "<input type=\"hidden\" name=\"_method\" value=\"" ++
      Text.toUpper (Name.bare (← d.args)) ++ "\">"
  else if d.isNamed ["json", "lang", "choice"] then
    return call (Callee.qualify d.name) (arguments convert (← d.args))
  else none

def substituteFields (bindings : Bindings) (t : Text) : Text :=
  Occurrence.substitute (field? (Expression.toScript bindings)) t

end BladeView.Inline
