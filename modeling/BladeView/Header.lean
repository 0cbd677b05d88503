import BladeView.Expression.Convert
import BladeView.Script.Print
import BladeView.Source.Body
import BladeView.Subscription

/-!
# The header of a view

Some directives say nothing about what is rendered, but how: the layout a view extends, the data
it waits for, what it subscribes to, its type, and code that runs when it starts. They may stand
anywhere in the template; of each kind the first one counts.
-/
namespace BladeView

/-- The name of a parent layout. -/
inductive ParentView where
  /-- A plain view name. -/
  | literal (name : Text)
  /-- A script expression that gives the name. -/
  | computed (code : Text)

/-- The layout a view extends, and the data handed to it. -/
structure Extends where
  view : ParentView
  data : Option Text

namespace Extends

/-- The script form of the parent's name. -/
def viewScript (e : Extends) : Text :=
  match e.view with
  | .literal name => Quoted.single name
  | .computed code => code

end Extends

/-- What a view says about itself. -/
structure Header where
  hasAwait : Bool
  hasFetch : Bool
  parent : Option Extends
  fetch : Option Text
  subscription : Option Subscription
  viewType : Text
  init : Text

namespace Header

/-- Reads a directive up to its argument list, which blanks may precede. -/
def directive? (name t : Text) : Option (Unit × Text) := do
  let rest := Text.trimStart (← Text.after? name t)
  if Text.startsWith "(" rest then some ((), rest) else none

/-- The argument list of the first occurrence of a directive, if it is closed. -/
def firstArgs? (name t : Text) : Option Text := do
  let (_, _, rest) ← Text.readFirst? (fun _ t => directive? name t) none t
  let (args, _) ← Group.read? rest
  return args

/-! ## Deferred data -/

/-- Whether the view waits for data. -/
def awaits (t : Text) : Bool :=
  (Text.readFirst? (fun _ t => (Text.afterWord? "@await" t).map fun rest => ((), rest)) none
    t).isSome

/-- Whether the view fetches data. -/
def fetches (t : Text) : Bool :=
  (Text.readFirst? (fun _ t => directive? "@fetch" t) none t).isSome

/-- A request as it is collected from its items. -/
structure Request where
  url : Script.Expr := .null
  method : Text := "GET".toList
  data : Script.Expr := .raw "\x7b\x7d".toList
  headers : Script.Expr := .raw "\x7b\x7d".toList

namespace Request

/-- The request with one item set. Unknown keys are ignored. -/
def set (convert : Text → Text) (r : Request) (key value : Text) : Request :=
  if key == "url".toList then { r with url := .raw (convert value) }
  else if key == "method".toList then { r with method := Text.toUpper (Name.bare value) }
  else if ["data", "params", "body"].any fun name => name.toList == key then
    { r with data := .raw (convert value) }
  else if key == "headers".toList then { r with headers := .raw (convert value) }
  else r

/-- Collects the items of a request. The first item without a key is the address, further ones are
the method. -/
def collect (convert : Text → Text) (r : Request) (addressed : Bool) : List Text → Request
  | [] => r
  | item :: items =>
    match TopLevel.cut? "=>" item with
    | some (key, value) =>
      collect convert (r.set convert (Name.bare key) (Text.trim value)) addressed items
    | none =>
      let key := if addressed then "method" else "url"
      collect convert (r.set convert key.toList item) true items

/-- The script form of a request, on one line. -/
def print (r : Request) : Text :=
  (Script.Expr.object
    [("url".toList, r.url), ("method".toList, .json r.method), ("data".toList, r.data),
     ("headers".toList, r.headers)]).inline

end Request

/-- The request of a view: an array of its parts, or any expression. -/
def fetch? (bindings : Bindings) (t : Text) : Option Text := do
  let convert := Expression.toScript bindings
  let args := Text.trim (← firstArgs? "@fetch" t)
  match Text.enclosed? '[' ']' args with
  | some items => return (Request.collect convert {} false (TopLevel.split items)).print
  | none => return convert args

/-! ## The parent layout -/

/-- Reads a variable inside a string and writes it as an interpolation. -/
def interpolation? : Text → Option (Text × Text)
  | '$' :: c :: cs =>
    if isNameStart c then
      some ("$\x7b" ++ (c :: cs.takeWhile isWordChar) ++ "\x7d", cs.dropWhile isWordChar)
    else none
  | _ => none

/-- The name of the parent. A double-quoted string may hold variables; any other string without a
sigil is a plain name. -/
def parentView (bindings : Bindings) (arg : Text) : ParentView :=
  let hasSigil := fun t : Text => t.any (· == '$')
  if Text.startsWith "\"" arg && hasSigil arg then
    let inner := (Name.unquote? arg).getD arg
    .computed
      ("`" ++ Quoted.backticks (Text.substitute (fun _ t => interpolation? t) inner) ++ "`")
  else
    match Name.unquote? arg with
    | some name =>
      if hasSigil name then .computed (Expression.toScript bindings arg) else .literal name
    | none => .computed (Expression.toScript bindings arg)

/-- The layout that a view extends. -/
def extends? (bindings : Bindings) (t : Text) : Option Extends := do
  match TopLevel.split (← firstArgs? "@extends" t) with
  | [] => none
  | first :: rest =>
    return ⟨parentView bindings first, rest.head?.map (Expression.toScript bindings)⟩

/-! ## Subscription, type and start -/

/-- What the view subscribes to: nothing if it says so, else what the first line says that holds a
subscribe directive alone. -/
def subscription? (t : Text) : Option Subscription :=
  if (Text.readFirst? (fun _ t => (Body.dontSubscribe? t).map fun rest => ((), rest)) none t).isSome
  then some .off
  else ((Text.lines t).findSome? Body.standaloneSubscribe?).map fun args =>
    (args.map Subscription.read).getD .all

/-- Drops one quotation mark at the front. -/
def dropQuote : Text → Text
  | [] => []
  | c :: cs => if c == '\x27' || c == '\x22' then cs else c :: cs

/-- Reads a name of word characters and hyphens that quotes may enclose, up to a closing sign. -/
def quotedWord? (closing : Char) (t : Text) : Option (Text × Text) :=
  let isPart := fun c => isWordChar c || c == '-'
  let start := dropQuote (Text.trimStart t)
  let name := start.takeWhile isPart
  match Text.trimStart (dropQuote (start.dropWhile isPart)) with
  | c :: rest => if c == closing && !name.isEmpty then some (name, rest) else none
  | [] => none

/-- Reads a view type directive. -/
def viewType? (t : Text) : Option (Text × Text) := do
  match Text.trimStart (← Text.afterFold? "@viewtype" t) with
  | '(' :: rest => quotedWord? ')' rest
  | _ => none

/-- The type of the view. -/
def viewTypeOf (t : Text) : Text :=
  match Text.readFirst? (fun _ t => viewType? t) none t with
  | some (_, name, _) => name
  | none => "view"

/-- The code that runs when the view starts: all start regions, one after the other. -/
def initOf (t : Text) : Text :=
  Text.join "\n" (((Text.readAll (fun _ t => Region.named? "oninit" t) t).map Text.trim).filter
    fun code => !code.isEmpty)

/-- The header of a template without comments. -/
def read (bindings : Bindings) (t : Text) : Header where
  hasAwait := awaits t
  hasFetch := fetches t
  parent := extends? bindings t
  fetch := fetch? bindings t
  subscription := subscription? t
  viewType := viewTypeOf t
  init := initOf t

/-- Whether the view's data arrives late. -/
def isDeferred (h : Header) : Bool := h.hasAwait || h.hasFetch

end Header
end BladeView
