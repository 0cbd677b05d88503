import BladeView.Block.Fragment
import BladeView.Block.Keyword
import BladeView.Block.Loop
import BladeView.Markup.Basic
import BladeView.Section
import BladeView.Token
import BladeView.Wrapper.Config

/-!
# The block machine

The machine reads the tokens of a body and builds the lines of a template literal: text between
the fragments of the block directives. The open blocks are on a stack. A closing directive that
does not fit the innermost block changes nothing, and blocks that are open at the end stay open.
-/
namespace BladeView

/-- The state of the machine. -/
structure Machine where
  bindings : Bindings
  stack : FrameStack := []
  /-- The output so far. A line may itself hold line breaks. -/
  lines : List Text := []
  /-- The sections that are complete. -/
  sections : List Section := []
  /-- The names of the open long sections, the innermost first. -/
  openSections : List Text := []

namespace Machine

/-! ## Output -/

/-- The machine before any token. -/
def start (bindings : Bindings) : Machine := { bindings }

/-- The script form of an expression. -/
def convert (m : Machine) (t : Text) : Text := Expression.toScript m.bindings t

/-- Appends lines to the output. -/
def emit (m : Machine) (lines : List Text) : Machine := { m with lines := m.lines ++ lines }

/-- Opens a block with its first line. -/
def opens (m : Machine) (kind : FrameKind) (line : Text) : Machine :=
  { m with stack := m.stack.push kind m.lines.length, lines := m.lines ++ [line] }

/-- Closes the innermost block with some lines, if it is of an accepted kind. -/
def closes (m : Machine) (accept : FrameKind → Bool) (lines : List Text) : Machine :=
  match m.stack.popIf accept with
  | some (_, outer) => { m with stack := outer, lines := m.lines ++ lines }
  | none => m

/-- The kind of the innermost block satisfies a test. -/
def isIn (m : Machine) (test : FrameKind → Bool) : Bool := m.stack.top?.any test

/-! ## Text -/

/-- The lines that a text adds to the output in a block. Between the branches of a switch there is
no text, and in a loop that collects its output blank lines are left out. -/
def textLines (bindings : Bindings) (t : Text) : Option FrameKind → List Text
  | some .switch | some .register => []
  | some .php =>
    (((Text.lines t).map Text.trim).filter fun line => !line.isEmpty).map fun line =>
      "    " ++ Expression.toScript bindings line
  | some .for | some .while =>
    (Text.splitOn '\n' (Markup.compile bindings t)).filter fun line => !Text.isEmptyOrBlank line
  | _ => Text.splitOn '\n' (Markup.compile bindings t)

/-- Reads a run of text. -/
def text (m : Machine) (t : Text) : Machine := m.emit (textLines m.bindings t m.stack.top?)

/-! ## Conditions -/

/-- Goes on with another branch of the innermost block, if that is a condition. -/
def branch (m : Machine) (line : Text) : Machine :=
  if m.isIn FrameKind.isConditional then m.emit [line] else m

/-- Opens a condition. -/
def openConditional (m : Machine) (kind : FrameKind) (condition : Text) : Machine :=
  m.opens kind (Fragment.openConditional condition)

/-- Closes a condition. -/
def closeConditional (m : Machine) (accept : FrameKind → Bool) : Machine :=
  m.closes accept Fragment.closeConditional

/-- Whether a directive closes the guard of a block. -/
def isGuardClosedBy (name : Text) : FrameKind → Bool
  | .guard g => g.closedBy name
  | _ => false

/-! ## Switches -/

/-- Opens a branch of the innermost switch; the branch before it runs into it. -/
def openBranch (m : Machine) (kind : FrameKind) (line : Text) : Machine :=
  let m := m.closes FrameKind.isBranch [Fragment.closeCase]
  if m.isIn (· == .switch) then m.opens kind line else m

/-- Closes the innermost switch, and its last branch if that is open. -/
def closeSwitch (m : Machine) : Machine :=
  (m.closes FrameKind.isBranch [Fragment.closeCase]).closes (· == .switch) [Fragment.closeSwitch]

/-! ## Loops -/

/-- Opens a loop over a collection. A malformed header is shown as text. -/
def openForeach (m : Machine) (raw args : Text) : Machine :=
  match ForeachHeader.read? args with
  | none => m.text raw
  | some header =>
    m.opens .foreach
      (Fragment.openForeach (m.convert header.subject) header.value
        (header.key.getD "__loopKey"))

/-- The script form of the header of a counting loop. -/
def forHeader (m : Machine) (args : Text) : Text :=
  match ForHeader.read? args with
  | none => m.convert args
  | some h =>
    "let " ++ h.name ++ " = " ++ m.convert h.start ++ "; " ++ h.name ++ " " ++ h.comparison ++ " "
      ++ m.convert h.bound ++ "; " ++ h.name ++ h.step

/-- Closes a loop that collects its output: what was put out since it was opened becomes one
statement. -/
def closeLoop (m : Machine) (kind : FrameKind) (output : Text) : Machine :=
  match m.stack.popIf (· == kind) with
  | none => m
  | some (frame, outer) =>
    let body := (m.lines.drop (frame.opened + 1)).filter fun line => !Text.isEmptyOrBlank line
    { m with
      stack := outer
      lines := m.lines.take (frame.opened + 1) ++ Fragment.collect output body
        ++ [Fragment.closeLoop output] }

/-! ## Sections and blocks -/

/-- The name of a section and its script form. A name that is not a fixed text is computed. -/
def sectionName (m : Machine) (arg : Text) : Text × Text :=
  match (Name.unquote? arg).filter fun name => !name.any (· == '$') with
  | some name => (name, Quoted.single name)
  | none => (m.convert arg, m.convert arg)

/-- Reads a section, which is short if it has a value. Without a name it is shown as text. -/
def openSection (m : Machine) (raw args : Text) : Machine :=
  match TopLevel.split args with
  | [] => m.text raw
  | [first] =>
    let (name, script) := m.sectionName first
    let m := m.opens .section (Fragment.openSection script)
    { m with openSections := name :: m.openSections }
  | first :: second :: _ =>
    let (name, script) := m.sectionName first
    let value := m.convert second
    let fragment := Fragment.shortSection script value
    let entry : Section := { name, kind := .short, content := value, fragment }
    { m.emit [fragment] with sections := m.sections ++ [entry] }

/-- Completes the innermost long section. -/
def closeSection (m : Machine) : Machine :=
  match m.stack.popIf (· == .section) with
  | none => m
  | some (frame, outer) =>
    let lines := m.lines ++ [Fragment.closeSection]
    let entry : Section :=
      { name := m.openSections.headD []
        kind := .long
        content := Text.join "\n" (m.lines.drop (frame.opened + 1))
        fragment := Text.join "\n" (lines.drop frame.opened) }
    { m with
      stack := outer
      lines
      sections := m.sections ++ [entry]
      openSections := m.openSections.tail }

/-- Opens a block with a name and attributes. -/
def openBlock (m : Machine) (args : Text) : Machine :=
  let parts := TopLevel.split args
  let name := (m.sectionName (parts.headD "''")).2
  m.opens .block (Fragment.openBlock name ((parts[1]?.map m.convert).getD "\x7b\x7d"))

/-- Opens a region that follows some keys. -/
def openFollow (m : Machine) (args : Text) : Machine :=
  let isBracket := fun c : Char => c == '[' || c == ']'
  let keys := TopLevel.split (Text.dropEndWhile isBracket (args.dropWhile isBracket))
  m.opens .follow (Fragment.openFollow (keys.map fun key => Quoted.double (Name.bare key)))

/-! ## Code and wrappers -/

/-- Reads code: one line of it as the argument, or the lines up to the end of the block. -/
def openCode (m : Machine) (args : Text) : Machine :=
  if args.isEmpty then m.opens .php Fragment.openCode
  else m.emit [Fragment.runCode (Text.dropEndWhile (· == ';') (m.convert args))]

/-- Opens a wrapper element within the view. -/
def openWrapper (m : Machine) (args : Text) : Machine :=
  let parts := TopLevel.split args
  m.opens .wrapper
    (Fragment.openWrapper ((parts[0]?.map m.convert).getD "'div'")
      ((parts[1]?.map m.convert).getD "\x7b\x7d"))

/-! ## Tokens -/

/-- Does what a keyword asks for. `args` has no blanks around it, and `raw` is the directive's own
text. -/
def apply (m : Machine) (raw args : Text) : Keyword → Machine
  | .openIf => m.openConditional .conditional (m.convert args)
  | .elseIf => m.branch (Fragment.elseIf (m.convert args))
  | .otherwise => m.branch Fragment.otherwise
  | .closeIf => m.closeConditional fun kind => kind == .conditional || kind == .guard .hasSection
  | .openIsset => m.openConditional .isset (Fragment.isSet (m.convert args))
  | .closeIsset => m.closeConditional (· == .isset)
  | .openEmpty => m.openConditional .empty (Fragment.isEmpty (m.convert args))
  | .closeEmpty => m.closeConditional (· == .empty)
  | .openGuard g => m.openConditional (.guard g) (Fragment.guard g (m.convert args))
  | .openSwitch => m.opens .switch (Fragment.openSwitch (m.convert args))
  | .openCase => m.openBranch .case (Fragment.openCase (m.convert args))
  | .openDefault => m.openBranch .default Fragment.openDefault
  | .leaveCase => m.closes FrameKind.isBranch [Fragment.leaveCase]
  | .closeSwitch => m.closeSwitch
  | .openForeach => m.openForeach raw args
  | .closeForeach => m.closes (· == .foreach) [Fragment.closeBody]
  | .openFor => m.opens .for (Fragment.openLoop Fragment.forOutput "for" (m.forHeader args))
  | .closeFor => m.closeLoop .for Fragment.forOutput
  | .openWhile => m.opens .while (Fragment.openLoop Fragment.whileOutput "while" (m.convert args))
  | .closeWhile => m.closeLoop .while Fragment.whileOutput
  | .openSection => m.openSection raw args
  | .closeSection => m.closeSection
  | .openBlock => m.openBlock args
  | .closeBlock => m.closes (· == .block) [Fragment.closeBody]
  | .openFollow => m.openFollow args
  | .closeFollow => m.closes (· == .follow) [Fragment.closeBody]
  | .openPhp => m.openCode args
  | .closePhp => m.closes (· == .php) Fragment.closeCode
  | .openRegister => { m with stack := m.stack.push .register m.lines.length }
  | .closeRegister => m.closes (· == .register) []
  | .openWrapper => m.openWrapper args
  | .closeWrapper => m.closes (· == .wrapper) [Fragment.closeWrapper]
  | .configureWrap => m.emit [(WrapperConfig.read m.bindings args).marker]
  | .endWrap => m.emit [WrapperConfig.endMarker]
  | .closeGuard name => m.closeConditional (isGuardClosedBy name)

/-- Reads a directive. Within a register block only its end is read. -/
def directive (m : Machine) (d : Directive) : Machine :=
  let keyword := Keyword.ofName d.name
  if m.isIn (· == .register) && keyword != .closeRegister then m
  else m.apply d.raw (Text.trim (d.args.getD [])) keyword

/-- Reads one token. -/
def feed (m : Machine) : Token → Machine
  | .text t => m.text t
  | .directive d => m.directive d

/-- Reads the tokens of a body. -/
def run (bindings : Bindings) (tokens : List Token) : Machine := tokens.foldl feed (start bindings)

/-- The text of the output. -/
def template (m : Machine) : Text := Text.join "\n" m.lines

end Machine
end BladeView
