import BladeView.Source.Body

/-!
# Tokens

A body is read line by line into text and block directives. A block directive counts only at the
head of a line; what follows it on the same line is read as a line of its own. Regions for the
server are dropped, regions for the client are kept as text.
-/
namespace BladeView

/-- A block directive as it stands in the source. -/
structure Directive where
  name : Text
  args : Option Text
  /-- The directive's own text, which is shown if it turns out to be malformed. -/
  raw : Text
  deriving DecidableEq

/-- A piece of a body. -/
inductive Token where
  | text (t : Text)
  | directive (d : Directive)
  deriving DecidableEq

/-- Whether a directive takes an argument list. -/
inductive ArgumentRule where
  | never
  | optional
  | required
  deriving DecidableEq

/-- The block directives. -/
def blockDirectives : List (String × ArgumentRule) :=
  [("if", .required), ("elseif", .required), ("else", .never), ("endif", .never),
   ("unless", .required), ("endunless", .never), ("isset", .required), ("endisset", .never),
   ("empty", .required), ("endempty", .never), ("auth", .optional), ("endauth", .never),
   ("guest", .optional), ("endguest", .never), ("can", .required), ("endcan", .never),
   ("cannot", .required), ("endcannot", .never), ("error", .required), ("enderror", .never),
   ("hasSection", .required), ("hassection", .required), ("endhasSection", .never),
   ("endhassection", .never), ("switch", .required), ("case", .required), ("default", .never),
   ("break", .never), ("endswitch", .never), ("foreach", .required), ("endforeach", .never),
   ("for", .required), ("endfor", .never), ("while", .required), ("endwhile", .never),
   ("section", .required), ("endsection", .never), ("show", .never), ("stop", .never),
   ("overwrite", .never), ("append", .never), ("block", .required), ("endblock", .never),
   ("php", .optional), ("endphp", .never), ("register", .never), ("endregister", .never),
   ("wrapper", .optional), ("endwrapper", .never), ("wrap", .optional), ("endwrap", .never),
   ("template", .optional), ("endtemplate", .never), ("follow", .required), ("endfollow", .never),
   ("watch", .required), ("endwatch", .never)]

/-- The argument rule of a block directive. -/
def argumentRule? (name : Text) : Option ArgumentRule :=
  (blockDirectives.find? fun entry => entry.1.toList == name).map Prod.snd

namespace Token

/-! ## Regions for one side -/

def serverStarts : List Text := ["serverside", "serverSide", "ssr", "SSR", "useSSR", "useSsr"]

def serverEnds : List Text :=
  ["endserverside", "endServerSide", "endSSR", "endSsr", "EndSSR", "EndSsr", "endssr",
   "endusessr", "endUseSSR", "endUseSsr"]

def clientStarts : List Text := ["clientside", "clientSide", "csr", "CSR", "useCSR", "useCsr"]

def clientEnds : List Text :=
  ["endclientside", "endClientSide", "endcsr", "endCSR", "endCsr", "endusecsr", "endUseCSR",
   "endUseCsr"]

/-- The region a line belongs to. -/
inductive Side where
  | both
  | server
  | client

/-- The word of the directive at the head of a line. -/
def headWord? (line : Text) : Option Text :=
  (Text.after? "@" (Text.trimStart line)).map Text.word

/-- Whether a line starts with a directive of the given names. -/
def startsWithAny (names : List Text) (line : Text) : Bool :=
  (headWord? line).any names.contains

/-! ## Directives -/

/-- An argument list may span lines, but its further lines do not start another directive. -/
def staysInDirective (args : Text) : Bool :=
  (Text.lines args).tail.all fun line =>
    !Text.startsWith "@" (Text.trimStart line) || Text.startsWith "@\x7b" (Text.trimStart line)

/-- Reads the argument list of a directive under its rule: the inside, if there is a list, and the
number of characters it takes up. -/
def arguments? (rule : ArgumentRule) (rest : Text) : Option (Option Text × Nat) :=
  match rule with
  | .never => some (none, 0)
  | _ =>
    match Group.args? rest with
    | some (inner, after) =>
      if staysInDirective inner then some (some inner, rest.length - after.length) else none
    | none => if rule == .required || Group.opensArgs rest then none else some (none, 0)

/-- Reads the block directive at the front of a text. -/
def directive? : Text → Option Directive
  | '@' :: cs => do
    let name := Text.word cs
    let rule ← argumentRule? name
    let rest := cs.drop name.length
    if rest.head?.any isNameChar then none
    else
      let (args, size) ← arguments? rule rest
      return ⟨name, args, '@' :: (name ++ rest.take size)⟩
  | _ => none

/-! ## Lines -/

/-- A line of text, or a directive. -/
inductive Item where
  | line (t : Text)
  | directive (d : Directive)

/-- Where a reader of lines stands: the region, and whether preformatted text is open. -/
structure Place where
  side : Side := .both
  preformatted : Bool := false

/-- The text of a line. Preformatted lines keep their indentation. -/
def lineText (preformatted : Bool) (line : Text) : Text :=
  if preformatted then Text.trimEnd line else Text.trim line

/-- Whether preformatted text is open after a line. -/
def preformattedAfter (preformatted : Bool) (line : Text) : Bool :=
  if Text.contains "</pre>" line then false
  else preformatted || Text.contains "<pre" line

/-- Reads a line of text. -/
def textLine (place : Place) (line : Text) : List Item × Place × Nat :=
  ([.line (lineText place.preformatted line)],
    { place with preformatted := preformattedAfter place.preformatted line }, line.length)

/-- Reads a line that is dropped, and goes on in the given region. -/
def droppedLine (place : Place) (side : Side) (line : Text) : List Item × Place × Nat :=
  ([], { place with side := side }, line.length)

/-- Reads the line at the front of a text, or the directive at its head. What blanks follow a
directive up to the end of the line go with it. -/
def readLine (place : Place) (t : Text) : List Item × Place × Nat :=
  let line := t.takeWhile (· != '\n')
  match place.side with
  | .server => droppedLine place (if startsWithAny serverEnds line then .both else .server) line
  | .client =>
    if startsWithAny clientEnds line then droppedLine place .both line else textLine place line
  | .both =>
    let indent := line.takeWhile isBlank
    if startsWithAny serverStarts line then droppedLine place .server line
    else if startsWithAny clientStarts line then droppedLine place .client line
    else
      match directive? (t.drop indent.length) with
      | none => textLine place line
      | some d =>
        let read := indent.length + d.raw.length
        let after := (t.drop read).takeWhile (· != '\n')
        let size := if Text.isEmptyOrBlank after then read + after.length else read - 1
        ([.directive d], place, size)

/-- Joins the neighbouring lines of text. -/
def ofItems : List Item → List Token
  | [] => []
  | .directive d :: items => .directive d :: ofItems items
  | .line t :: items =>
    match ofItems items with
    | .text u :: tokens => .text (t ++ "\n" ++ u) :: tokens
    | tokens => .text t :: tokens

/-- The tokens of a body. -/
def ofBody (body : Text) : List Token :=
  ofItems (Text.sweep (fun _ place t => readLine place t) none {} 0 body)

end Token
end BladeView
