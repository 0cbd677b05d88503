import BladeView.Expression.Convert
import BladeView.Markup.Occurrence

/-!
# Event handlers

An event directive registers handlers for a browser event. A handler that is a call is kept as the
name of what is called and its parameters, so that the runtime can bind it late; any other
expression becomes a function of the event.
-/
namespace BladeView.Handler

/-- The browser events that have a directive. -/
def events : List String :=
  ["click", "dblclick", "mousedown", "mouseup", "mouseover", "mouseout", "mousemove",
   "mouseenter", "mouseleave", "contextmenu", "wheel", "keydown", "keyup", "keypress", "input",
   "change", "submit", "reset", "focus", "blur", "focusin", "focusout", "select", "invalid",
   "search", "toggle", "scroll", "resize", "load", "unload", "error", "abort", "drag",
   "dragstart", "dragend", "dragover", "dragenter", "dragleave", "drop", "touchstart",
   "touchmove", "touchend", "touchcancel", "pointerdown", "pointerup", "pointermove",
   "pointerenter", "pointerleave", "pointercancel", "copy", "cut", "paste", "play", "pause",
   "ended", "timeupdate", "volumechange", "animationstart", "animationend", "transitionend"]

/-! ## Calls -/

/-- Where a reader of a called path stands. -/
inductive PathState where
  /-- A name is to come. -/
  | wantsName
  /-- Within a name. -/
  | inName
  /-- After a name and blanks. -/
  | afterName
  /-- Within an arrow. -/
  | inArrow
  /-- Within a double colon. -/
  | inColons

/-- The state after one character of a path: names, joined by arrows, dots or double colons with
blanks around them. -/
def PathState.next? : PathState → Char → Option PathState
  | wantsName, c =>
    if isBlank c then some wantsName else if isNameStart c then some inName else none
  | inArrow, c => if c == '>' then some wantsName else none
  | inColons, c => if c == ':' then some wantsName else none
  | state, c =>
    if isBlank c then some afterName
    else if c == '-' then some inArrow
    else if c == '.' then some wantsName
    else if c == ':' then some inColons
    else
      match state with
      | inName => if isWordChar c || c == '$' then some inName else none
      | _ => none

/-- Reads a path up to the parenthesis of a call. -/
def pathRest? (state : PathState) : Text → Option (Text × Text)
  | [] => none
  | c :: cs =>
    match state, c with
    | .inName, '(' => some ([], c :: cs)
    | .afterName, '(' => some ([], c :: cs)
    | state, c =>
      match state.next? c with
      | some state' => Group.extend [c] (pathRest? state' cs)
      | none => none

/-- Reads the called path of a call, which may start with a sigil; the rest starts at the
parenthesis. -/
def callPath? : Text → Option (Text × Text)
  | '$' :: c :: cs => if isNameStart c then Group.extend ['$', c] (pathRest? .inName cs) else none
  | c :: cs => if isNameStart c then Group.extend [c] (pathRest? .inName cs) else none
  | [] => none

/-- A handler that is one call: the called path and the text of its parameters. -/
def call? (item : Text) : Option (Text × Text) := do
  let (path, rest) ← callPath? item
  let (params, after) ← Group.read? rest
  if after.isEmpty then some (Text.trim path, params) else none

/-! ## Parameters -/

/-- The spellings of the event itself. -/
def eventNames : List Text := ["$event", "@event", "Event", "event"]

/-- The markers for a value that is read from the element when the event happens. -/
def markers : List (Text × Text) :=
  [("@attr", "ATTR"), ("@prop", "PROP"), ("@val", "VALUE"), ("@value", "VALUE")]

/-- Reads a marker: what kind of value is read, and its name. -/
def marker? (param : Text) : Option (Text × Text) :=
  markers.findSome? fun (word, kind) => do
    let inner ← Text.enclosed? '(' ')' (Text.trimStart (← Text.after? word param))
    return (kind, Name.bare inner)

/-- The script form of a parameter. -/
def param (convert : Text → Text) (t : Text) : Text :=
  let t := Text.trim t
  if eventNames.contains t then Quoted.double "@EVENT"
  else
    match marker? t with
    | some (kind, name) => Quoted.double ("#" ++ kind ++ ":" ++ name)
    | none => convert t

/-! ## Handlers -/

/-- The script form of a handler. -/
def read (convert : Text → Text) (item : Text) : Text :=
  match call? item with
  | some (path, params) =>
    "\x7b\"handler\":" ++ Quoted.double (convert path) ++ ",\"params\":["
      ++ Text.join "," ((TopLevel.split params).map (param convert)) ++ "]\x7d"
  | none =>
    if (TopLevel.cut? "=>" item).isSome then convert item else "(event) => " ++ convert item

/-- Handlers may be spread over lines. -/
def onOneLine (t : Text) : Text := t.map fun c => if c == '\n' || c == '\r' then ' ' else c

/-- The script form of an event directive. An error directive with a literal is no event, but asks
for the errors of a field. -/
def directive? (convert : Text → Text) (d : Occurrence) : Option Text := do
  if d.isNamed events then
    let args ← d.args
    if d.isNamed ["error"] && (Name.unquote? args).isSome then none
    else
      let handlers := (TopLevel.split (onOneLine args)).map (read convert)
      return "$\x7bthis.__addEventConfig(" ++ Quoted.double d.name ++ ", ["
        ++ Text.join ", " handlers ++ "])\x7d"
  else none

/-- A text with its event directives compiled. -/
def substitute (bindings : Bindings) (t : Text) : Text :=
  Occurrence.substitute (directive? (Expression.toScript bindings)) t

end BladeView.Handler
