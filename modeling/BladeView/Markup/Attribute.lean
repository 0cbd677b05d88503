import BladeView.Header
import BladeView.Markup.Occurrence

/-!
# Attribute directives

Directives that stand in a tag and become attributes of it: bindings to a piece of state,
subscriptions of single attributes, and attributes whose value another view yields.
-/
namespace BladeView.Attribute

/-! ## Bindings -/

/-- Reads an index by a plain name and writes it as a member. -/
def index? : Text → Option (Text × Text)
  | '[' :: cs => (Header.quotedWord? ']' cs).map fun read => ('.' :: read.1, read.2)
  | _ => none

/-- The path of a bound variable, with dots between its members. -/
def path (args : Text) : Text :=
  Text.substitute (fun _ t => index? t)
    (Text.replace "->" "." (Text.replace "$" "" (Text.trim args)))

/-- A tag's binding to a piece of state. -/
def binding? (d : Occurrence) : Option Text := do
  if d.isNamed ["val", "bind"] then
    return "data-binding=\"" ++ path (← d.args) ++ "\""
  else none

def substituteBindings (t : Text) : Text := Occurrence.substitute binding? t

/-! ## Subscriptions -/

/-- The keys each attribute follows, in order of first mention. -/
abbrev Targets := List (Text × List Text)

/-- Adds a key to those of an attribute. -/
def addKey (attr key : Text) : Targets → Targets
  | [] => [(attr, [key])]
  | (a, keys) :: targets =>
    if a == attr then (a, keys ++ [key]) :: targets
    else (a, keys) :: addKey attr key targets

/-- Stands for all attributes of a tag. -/
def everything : Text := "#all"

/-- The attribute and the key of an item. The key is the side with the sigil, or else the right
side. -/
def target (item : Text) : Text × Text :=
  match TopLevel.cut? "=>" item with
  | some (left, right) =>
    if Text.startsWith "$" (Text.trim left) then (Name.bare right, Name.bare left)
    else (Name.bare left, Name.bare right)
  | none => (everything, Name.bare item)

/-- The keys of a list, or the one key. -/
def keys (t : Text) : List Text :=
  match Text.enclosed? '[' ']' (Text.trim t) with
  | some inner => (TopLevel.split inner).map Name.bare
  | none => [Name.bare t]

/-- Attributes and keys of a subscription: keys with a quoted attribute, a list of items, or plain
keys for the whole tag. -/
def targets (args : Text) : List (Text × Text) :=
  let args := Text.trim args
  let whole := match Text.enclosed? '[' ']' args with
    | some inner => (TopLevel.split inner).map target
    | none => (TopLevel.split args).map fun part => (everything, Name.bare part)
  match TopLevel.split args with
  | [first, second] =>
    if (Name.unquote? second).isSome then (keys first).map fun key => (Name.bare second, key)
    else whole
  | _ => whole

/-- A tag's subscription. -/
def subscription? (d : Occurrence) : Option Text := do
  if d.isNamed ["subscribe"] then
    let collected := (targets (← d.args)).foldl (fun ts t => addKey t.1 t.2 ts) []
    let object := Script.Expr.object (collected.map fun t => (t.1, Script.Expr.strings t.2))
    return "$\x7bthis.__subscribe(" ++ object.inline ++ ")\x7d"
  else none

def substituteSubscriptions (t : Text) : Text := Occurrence.substitute subscription? t

/-! ## Yielded attributes -/

/-- The attribute that lists what a tag yields. -/
def yieldList : Text := "data-yield-attr"

/-- An attribute of a tag. -/
def setting (name value : Text) : Text := name ++ "=\"" ++ value ++ "\""

/-- The value of an attribute that is yielded under a key. -/
def yielded (key default : Text) : Text :=
  "$\x7bApp.View.yieldContent(" ++ Quoted.single key ++ ", " ++ default ++ ")\x7d"

/-- Attributes and the pairs to list, for one item of an array. -/
def yieldItem (item : Text) : Option (Text × Option Text) := do
  let (left, right) ← TopLevel.cut? "=>" item
  let name := Name.bare left
  let key := Name.bare right
  if name == "#content".toList then return (setting "data-yield-content" key, none)
  else if name == "#children".toList then return (setting "data-yield-children" key, none)
  else return (setting name (yielded key "null"), some (name ++ ":" ++ key))

/-- The attributes of an array of items, with the list of those that are yielded. -/
def yieldArray (inner : Text) : Text :=
  let items := (TopLevel.split inner).filterMap yieldItem
  let listed := items.filterMap Prod.snd
  Text.join " " (items.map Prod.fst ++
    if listed.isEmpty then [] else [setting yieldList (Text.join "," listed)])

/-- The names of the directive that yields attributes, in small letters. -/
def yieldNames : List String := ["yieldon", "onyield", "yieldlisten", "yieldwatch", "yieldattr"]

/-- A tag's yielded attributes: an array of them, or one by name, key and default. -/
def yield? (d : Occurrence) : Option Text := do
  if yieldNames.any fun name => name.toList == d.name.map Char.toLower then
    let args := Text.trim (← d.args)
    match Text.enclosed? '[' ']' args with
    | some inner => return yieldArray inner
    | none =>
      match TopLevel.split args with
      | first :: second :: rest =>
        let name := Name.bare first
        let key := Name.bare second
        let default := (rest.head?.map fun t => Quoted.single (Name.bare t)).getD "null"
        return setting name (yielded key default) ++ " " ++
          setting yieldList (name ++ ":" ++ key)
      | _ => none
  else none

/-- Reads a list of yielded attributes with the blanks before it. -/
def yieldList? (t : Text) : Option (Text × Text) := do
  Text.cut? "\"" (← Text.after? (yieldList ++ "=\"") (Text.trimStart t))

/-- Puts an attribute before the end of a line's first tag, or at the end of the line. -/
def insertAttribute (new line : Text) : Text :=
  match Text.cut? ">" line with
  | some (tag, rest) =>
    if Text.endsWith "/" tag then tag.dropLast ++ new ++ "/>" ++ rest else tag ++ new ++ ">" ++ rest
  | none => line ++ new

/-- Merges the lists of yielded attributes of a line into one. -/
def mergeLine (line : Text) : Text :=
  let lists := Text.readAll (fun _ t => yieldList? t) line
  if lists.length < 2 then line
  else
    insertAttribute (" " ++ setting yieldList (Text.join "," lists))
      (Body.without (fun t => (yieldList? t).map Prod.snd) line)

/-- A text with its yielded attributes compiled, and the lists merged line by line. -/
def substituteYields (t : Text) : Text :=
  Text.join "\n" ((Text.splitOn '\n' (Occurrence.substitute yield? t)).map mergeLine)

end BladeView.Attribute
