import BladeView.Asset.Element
import BladeView.Asset.Setup
import BladeView.Digest
import BladeView.Text.Case

/-!
# Assets

What a view needs besides its markup: setup code, scripts, styles, other head elements, and scripts
for single sections. They are declared in register blocks and setup scripts.
-/
namespace BladeView

/-- Where a script or style comes from. -/
inductive AssetSource where
  | code (code : Text)
  | address (url : Script.Expr)

/-- A script or style. -/
structure Asset where
  source : AssetSource
  id : Option Text
  className : Option Text
  attributes : List (Text × Script.Expr)

namespace Asset

/-- The script form of an asset. `urlKey` is the entry that holds an address. -/
def toExpr (urlKey : Text) (a : Asset) : Script.Expr :=
  let source : List (Text × Script.Expr) :=
    match a.source with
    | .code code => [("type", .json "code"), ("content", .json code)]
    | .address url => [("type", .json urlKey), (urlKey, url)]
  let optional := fun (key : Text) (value : Option Text) =>
    (value.map fun v => (key, Script.Expr.json v)).toList
  let attributes : List (Text × Script.Expr) :=
    if a.attributes.isEmpty then [] else [("attributes", .object a.attributes)]
  .object (source ++ optional "id" a.id ++ optional "className" a.className ++ attributes)

/-- The code of an asset that runs with the module. -/
def moduleCode? (a : Asset) : Option Text :=
  match a.source with
  | .code code => if Text.isEmptyOrBlank code then none else some code
  | .address _ => none

/-- Whether an attribute is kept with the asset. -/
def keepsAttribute (skipped : List Text) (name : Text) : Bool :=
  !(["id", "class", "section"] : List Text).contains name && !skipped.contains name &&
    !Region.mentionsSetup name

/-- An asset with the attributes of its element, less those in `skipped`. -/
def ofAttributes (bindings : Bindings) (source : AssetSource) (attrs : List (Text × Text))
    (skipped : List Text) : Asset where
  source
  id := Element.find? "id" attrs
  className := Element.find? "class" attrs
  attributes := (attrs.filter fun attr => keepsAttribute skipped attr.1).map fun attr =>
    (attr.1, Element.attributeValue bindings attr.2)

end Asset

/-- A head element that is neither a script nor a style. -/
structure Resource where
  tag : Text
  uuid : Text
  attributes : List (Text × Script.Expr)

namespace Resource

/-- The script form of a resource. -/
def toExpr (r : Resource) : Script.Expr :=
  .object [("tag", .json r.tag), ("uuid", .json r.uuid), ("attrs", .object r.attributes)]

/-- A stable identifier: the digest of the view's name, the resource's place and its tag, written
in five groups of digits. -/
def identifier (view : Text) (index : Nat) (tag : Text) : Text :=
  let digits := Digest.hex (Text.toBytes (view ++ ":" ++ Text.ofNat index ++ ":" ++ tag))
  Text.join "-"
    [digits.take 8, (digits.drop 8).take 4, (digits.drop 12).take 4, (digits.drop 16).take 4,
     (digits.drop 20).take 12]

end Resource

/-- All that a view registers besides its markup. -/
structure Assets where
  /-- Imports, then the other setup code. -/
  setup : Text := []
  /-- The object literal that describes the view's life cycle. -/
  userDefined : Option Text := none
  scripts : List Asset := []
  styles : List Asset := []
  resources : List Resource := []
  /-- The names of sections and the scripts for them. -/
  sectionScripts : List (Text × Text) := []

namespace Assets

/-- Nothing is registered. -/
def isEmpty (a : Assets) : Bool :=
  a.setup.isEmpty && a.userDefined.isNone && a.scripts.isEmpty && a.styles.isEmpty &&
    a.resources.isEmpty && a.sectionScripts.isEmpty

/-- The code of the scripts that runs with the module. -/
def moduleCode (a : Assets) : List Text := a.scripts.filterMap Asset.moduleCode?

/-! ## Where assets are declared -/

/-- The regions that declare assets. -/
def regions : List Text := ["register", "setup", "script"]

/-- Reads a region that declares assets: its content and the rest. -/
def region? (t : Text) : Option (Text × Text) := regions.findSome? fun name => Region.named? name t

/-- Reads a script element: its own text if it holds setup code, and the rest. -/
def setupScript? (t : Text) : Option (Option Text × Text) := do
  let (attributes, _, rest) ← Region.script? (Region.closingTag? "script") t
  let whole := t.take (t.length - rest.length)
  return (if Region.mentionsSetup attributes then some whole else none, rest)

/-- The text that declares the assets of a template: the contents of the regions, then the setup
scripts outside them. -/
def source? (t : Text) : Option Text :=
  let contents := (Text.readAll (fun _ t => region? t) t).map Text.trim
  let outside := Text.substitute (fun _ t => (region? t).map fun found => ([], found.2)) t
  let scripts := (Text.readAll (fun _ t => setupScript? t) outside).filterMap id
  match (contents ++ scripts).filter fun part => !part.isEmpty with
  | [] => none
  | parts => some (Text.join "\n" parts)

/-! ## Reading -/

/-- Assets while they are collected. -/
structure Collection where
  assets : Assets := {}
  imports : List Text := []
  setupCode : List Text := []

namespace Collection

/-- Adds an asset to the scripts. -/
def addScript (c : Collection) (a : Asset) : Collection :=
  { c with assets := { c.assets with scripts := c.assets.scripts ++ [a] } }

/-- Adds an asset to the styles. -/
def addStyle (c : Collection) (a : Asset) : Collection :=
  { c with assets := { c.assets with styles := c.assets.styles ++ [a] } }

/-- Adds the imports and the exported object of a script. Of several objects the first counts. -/
def addSetup (c : Collection) (s : Setup) : Collection :=
  { c with
    imports := c.imports ++ s.imports
    assets := { c.assets with userDefined := c.assets.userDefined.or s.exported } }

/-- Adds code that goes to the top of the module. -/
def addSetupCode (c : Collection) (code : Text) : Collection :=
  if code.isEmpty then c else { c with setupCode := c.setupCode ++ [code] }

/-- Adds a script for a section. -/
def addSectionScript (c : Collection) (name code : Text) : Collection :=
  { c with assets := { c.assets with sectionScripts := c.assets.sectionScripts ++ [(name, code)] } }

/-- Adds a head element. -/
def addResource (c : Collection) (r : Resource) : Collection :=
  { c with assets := { c.assets with resources := c.assets.resources ++ [r] } }

/-- Adds a script element: for a section, setup code, an address, or code of its own. -/
def script (bindings : Bindings) (c : Collection) (attributes body : Text) : Collection :=
  let attrs := Element.attributes attributes
  match Element.find? "section" attrs, Element.find? "src" attrs with
  | some name, _ => c.addSectionScript name body
  | none, some src =>
    c.addScript
      (Asset.ofAttributes bindings (.address (Element.attributeValue bindings src)) attrs ["src"])
  | none, none =>
    let setup := Setup.ofCode body
    if Region.mentionsSetup attributes then (c.addSetup setup).addSetupCode setup.code
    else (c.addSetup setup).addScript (Asset.ofAttributes bindings (.code setup.code) attrs [])

/-- Adds a tag: a linked style, or a head element. -/
def tag (view : Text) (bindings : Bindings) (c : Collection) (name attributes : Text) :
    Collection :=
  let attrs := Element.attributes attributes
  let isStyle := Text.sameLetters name "link" &&
    (Element.find? "rel" attrs).any fun rel => Text.sameLetters rel "stylesheet"
  if isStyle then
    let href := Element.attributeValue bindings ((Element.find? "href" attrs).getD [])
    c.addStyle (Asset.ofAttributes bindings (.address href) attrs ["href", "rel"])
  else
    c.addResource
      { tag := Text.toLower name
        uuid := Resource.identifier view c.assets.resources.length name
        attributes := attrs.map fun attr => (attr.1, Element.attributeValue bindings attr.2) }

/-- Adds an element. -/
def add (view : Text) (bindings : Bindings) (c : Collection) : Element → Collection
  | .code true attributes body =>
    c.addStyle (Asset.ofAttributes bindings (.code body) (Element.attributes attributes) [])
  | .code false attributes body => c.script bindings attributes body
  | .tag name attributes => c.tag view bindings name attributes

/-- The collected assets. -/
def finish (c : Collection) : Assets :=
  let imports := if c.imports.isEmpty then [] else [Text.join "\n" c.imports]
  { c.assets with setup := Text.join "\n\n" (imports ++ c.setupCode) }

end Collection

/-- The assets that a text declares for a view. -/
def read (view : Text) (bindings : Bindings) (t : Text) : Assets :=
  ((Element.readAll t).foldl (Collection.add view bindings) {}).finish

end Assets
end BladeView
