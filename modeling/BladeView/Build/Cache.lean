import BladeView.Build.Error
import BladeView.Digest
import BladeView.Json.Reader
import BladeView.ViewModule.Basic

/-!
# The module cache

One file for each view holds its compiled module and a digest of all that the module was compiled
from. A module is taken from the cache only if the digest still agrees.
-/
namespace BladeView

/-- What a file of the cache holds. -/
structure CacheEntry where
  hash : Text
  module : ViewModule
  deriving DecidableEq

namespace CacheEntry

/-- A key and a value of an object, as it is printed. -/
def field (key value : Text) : Text := Quoted.double key ++ ":" ++ value

/-- An object with the given fields. -/
def object (fields : List Text) : Text := "\x7b" ++ Text.join "," fields ++ "\x7d"

/-- The text of an entry. -/
def print (e : CacheEntry) : Text :=
  let m := e.module
  let texts : List (Text × Text) :=
    [("render", m.render), ("virtualRender", m.virtualRender), ("prerender", m.prerender),
     ("init", m.init), ("loadServerData", m.loadServerData), ("source", m.source)]
  let fields :=
    [field "functionName" (Quoted.double m.functionName),
     field "viewName" (Quoted.double m.viewName),
     field "hasPrerender" (if m.hasPrerender then "true" else "false")]
      ++ texts.map fun entry => field entry.1 (Quoted.double entry.2)
  object [field "hash" (Quoted.double e.hash), field "module" (object fields)]

/-- The keys of a module, in order. -/
def moduleKeys : List Text :=
  ["functionName", "viewName", "hasPrerender", "render", "virtualRender", "prerender", "init",
   "loadServerData", "source"]

/-- Reads a module. -/
def module? (j : Json) : Option ViewModule := do
  match ← j.fields? moduleKeys with
  | [functionName, viewName, hasPrerender, render, virtualRender, prerender, init, loadServerData,
     source] =>
    return {
      functionName := ← (← functionName).text?
      viewName := ← (← viewName).text?
      hasPrerender := ← (← hasPrerender).bool?
      render := ← (← render).text?
      virtualRender := ← (← virtualRender).text?
      prerender := ← (← prerender).text?
      init := ← (← init).text?
      loadServerData := ← (← loadServerData).text?
      source := ← (← source).text? }
  | _ => none

/-- Reads an entry. All fields must be there. -/
def read? (t : Text) : Option CacheEntry := do
  match ← (← Json.read? t).fields? ["hash", "module"] with
  | [hash, module] => return ⟨← (← hash).text?, ← module? (← module)⟩
  | _ => none

end CacheEntry

/-- The version of the compiler. Modules that another version compiled are not used. -/
def version : Text := "0.1.0"

namespace Cache

/-! ## Keys -/

/-- A number in eight bytes, the lowest first. -/
def littleEndian (n : Nat) : List UInt8 := (Digest.bigEndian 8 n).reverse

/-- The bytes of a text after their number, so that texts in a row can be told apart. -/
def delimited (t : Text) : List UInt8 :=
  littleEndian (Text.toBytes t).length ++ Text.toBytes t

/-- The bytes that identify what a module is compiled from. -/
def keyBytes (shared : SharedCode) (source : Text) : List UInt8 :=
  [version, shared.function, shared.config, source].flatMap delimited

/-- The digest that an entry is checked against. -/
def key (shared : SharedCode) (source : Text) : Text := Digest.hex (keyBytes shared source)

/-- The file of a view's entry. Characters that divide paths are replaced in its name. -/
def entryPath (dir : Path) (view : Text) : Path :=
  let name := view.map fun c => if c == '/' || c == '\\' || c == ':' then '_' else c
  Path.join dir (name ++ ".json")

/-! ## Operations -/

section

variable {m : Type → Type} [Monad m] (fs : FileSystem m)

/-- Prepares a cache for use: its directory is made if nothing is there. -/
def prepare (dir : Path) : m (Except BuildError Unit) := do
  if ← fs.isThere dir then return .ok ()
  else return BuildError.ofFile dir (← fs.createDirs dir)

/-- The module of a view, if the cache holds it for the same source and shared code. A file that
holds no entry is removed. -/
def get (dir : Path) (shared : SharedCode) (view source : Text) : m (Option ViewModule) := do
  let path := entryPath dir view
  match ← fs.read path with
  | .error _ => return none
  | .ok text =>
    match CacheEntry.read? text with
    | none =>
      fs.remove path
      return none
    | some entry => return if entry.hash == key shared source then some entry.module else none

/-- Stores the module of a view. -/
def set (dir : Path) (shared : SharedCode) (view source : Text) (module : ViewModule) :
    m (Except BuildError Unit) := do
  let path := entryPath dir view
  return BuildError.ofFile path (← fs.write path (CacheEntry.print ⟨key shared source, module⟩))

end

end Cache
end BladeView
