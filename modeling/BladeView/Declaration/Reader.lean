import BladeView.Declaration.Basic
import BladeView.Expression.Convert
import BladeView.Source.Region

/-!
# Reading declarations

One pass over the template, in document order. Script elements and verbatim regions hold no
declarations, and neither does an escaped directive. A directive whose argument list is not closed
is skipped, and so is an argument that declares nothing.

Values are converted without any bindings, since the names bound are known only at the end.
-/
namespace BladeView

namespace Declaration

/-- The script form of a declared value. -/
def convert (t : Text) : Text := Expression.toScript .empty t

/-! ## Injected names -/

/-- The inside of a text in braces or in brackets, or the text itself. -/
def unwrap (t : Text) : Text :=
  ((Text.enclosed? '\x7b' '\x7d' t).or (Text.enclosed? '[' ']' t)).getD t

/-- An injected name with its default. -/
def varsPart (part : Text) : Text × Option Text :=
  match TopLevel.cut? "=>" part with
  | some (left, right) => (Name.bare left, some (convert right))
  | none =>
    match TopLevel.assignment? part with
    | some (left, right) => (Name.bare left, some (convert right))
    | none => (Name.bare part, none)

/-- The declaration of a list of injected names. Parts without a proper name are left out. -/
def ofVars? (args : Text) : Option Declaration :=
  let parts := ((TopLevel.split (unwrap (Text.trim args))).map varsPart).filter fun part =>
    Name.isIdentifier part.1
  if parts.isEmpty then none
  else some
    { kind := .vars
      isDestructuring := true
      names := parts.map Prod.fst
      defaults := parts.map Prod.snd
      target := "\x7b" ++ Text.join ", " (parts.map Prod.fst) ++ "\x7d"
      value := none
      hasDefault := parts.any fun part => part.2.isSome
      isStateful := false
      state := none }

/-! ## Local names -/

/-- The name that a part of a pattern binds: what stands after the last colon, before a default. -/
def patternName (part : Text) : Text :=
  Name.bare ((Text.splitOn ':' (part.takeWhile (· != '='))).getLastD [])

/-- The names on the left of a binding: one name, or those of a closed pattern. There are none if
the pattern is not closed, binds nothing, or the single name is none. -/
def boundNames? (left : Text) : Option (List Text) :=
  let isPattern := Text.startsWith "[" left || Text.startsWith "\x7b" left
  let names :=
    if isPattern then
      ((Text.enclosed? '[' ']' left).or (Text.enclosed? '\x7b' '\x7d' left)).map fun inner =>
        ((TopLevel.split inner).map patternName).filter Name.isIdentifier
    else some [Name.bare left]
  names.filter fun names => !names.isEmpty && names.all Name.isIdentifier

/-- The converted argument of a call of the state function, if the value is such a call. -/
def stateInitial? (value : Text) : Option Text := do
  let rest ← Text.after? "useState" value
  if Text.startsWith "(" (Text.trimStart rest) then
    let (arg, _) ← Group.read? (Text.trimStart rest)
    if Text.isEmptyOrBlank arg then some "null".toList else some (convert arg)
  else none

/-- The declaration of one local binding. A pattern of two names bound to a call of the state
function declares state. -/
def ofBinding? (kind : DeclarationKind) (part : Text) : Option Declaration := do
  let sides := TopLevel.assignment? part
  let left := Text.trim ((sides.map Prod.fst).getD part)
  let right := sides.map fun s => Text.trim s.2
  let names ← boundNames? left
  let isPattern := Text.startsWith "[" left || Text.startsWith "\x7b" left
  let state :=
    match isPattern, names, right with
    | true, [key, setter], some value => (stateInitial? value).map (StatePair.make key setter)
    | _, _, _ => none
  return {
    kind := kind
    isDestructuring := isPattern
    names := names
    defaults := names.map fun _ => none
    target := convert left
    value := right.map convert
    hasDefault := right.isSome
    isStateful := state.isSome
    state := state }

/-! ## State -/

/-- The declaration of a piece of state by its initial value, its key and its setter. -/
def ofStateParts? (parts : List Text) : Option Declaration :=
  match parts with
  | value :: keyPart :: rest =>
    let key := Name.bare keyPart
    let setter :=
      match rest with
      | setterPart :: _ => Name.bare setterPart
      | [] => "set" ++ Text.capitalize key
    if Name.isIdentifier key && Name.isIdentifier setter then
      some
        { kind := .useState
          isDestructuring := false
          names := [key, setter]
          defaults := [none, none]
          target := "[" ++ key ++ ", " ++ setter ++ "]"
          value := some (convert value)
          hasDefault := true
          isStateful := true
          state := some (StatePair.make key setter (convert value)) }
    else none
  | _ => none

/-- The declaration of a piece of state, by a pattern that is assigned or by parts. A pattern that
turns out to hold no state declares nothing. -/
def ofUseState? (args : Text) : Option Declaration :=
  let assigned := (TopLevel.assignment? args).any fun sides =>
    Text.startsWith "[" (Text.trim sides.1)
  if assigned then
    ((ofBinding? .useState args).filter (·.state.isSome)).map ({ · with isStateful := true })
  else ofStateParts? (TopLevel.split args)

/-! ## Directives -/

/-- The declarations of one directive's argument list. -/
def ofArgs (kind : DeclarationKind) (args : Text) : List Declaration :=
  match kind with
  | .vars => (ofVars? args).toList
  | .useState => (ofUseState? args).toList
  | kind => (TopLevel.split args).filterMap (ofBinding? kind)

/-- The directives that declare names. -/
def directives : List (Text × DeclarationKind) :=
  [("@vars", .vars), ("@let", .let), ("@const", .const), ("@useState", .useState)]

/-- Reads a declaring directive up to its argument list. -/
def directive? (t : Text) : Option (DeclarationKind × Text) :=
  directives.findSome? fun (name, kind) => do
    let rest := Text.trimStart (← Text.after? name t)
    if Text.startsWith "(" rest then some (kind, rest) else none

end Declaration

namespace Declarations

/-- Reads a region that holds no declarations: a script element or verbatim text. -/
def opaqueRegion? (t : Text) : Option Text :=
  ((Region.script? (Text.afterFold? "</script>") t).map fun script => script.2.2).or
    ((Region.named? "verbatim" t).map Prod.snd)

/-- For each character of a template, whether it lies in a region without declarations. -/
def opaqueMask (t : Text) : List Bool :=
  Text.sweep (fun _ (_ : Unit) t =>
    match opaqueRegion? t with
    | some rest => (List.replicate (t.length - rest.length) true, (), Text.readBeyond t rest)
    | none => ([false], (), 0)) none () 0 t

/-- Reads the declarations from a place on. `isOpaque` goes along with the text, character by
character, and `jump` characters have been read already. -/
def readFrom (before : Option Char) : Nat → List Bool → Text → Declarations
  | _, _, [] => []
  | jump + 1, isOpaque, c :: cs => readFrom (some c) jump isOpaque.tail cs
  | 0, isOpaque, c :: cs =>
    let found :=
      if isOpaque.headD false || before == some '@' then none
      else (Declaration.directive? (c :: cs)).bind fun (kind, rest) =>
        (Group.read? rest).map fun (args, after) => (kind, args, after)
    match found with
    | some (kind, args, after) =>
      Declaration.ofArgs kind args ++
        readFrom (some c) (Text.readBeyond (c :: cs) after) isOpaque.tail cs
    | none => readFrom (some c) 0 isOpaque.tail cs

/-- The declarations of a template without comments, in document order. -/
def read (t : Text) : Declarations := readFrom none 0 (opaqueMask t) t

end Declarations
end BladeView
