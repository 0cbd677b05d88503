import BladeView.Block.Frame

/-!
# Fragments

The pieces of template-literal text that block directives compile to. An opening fragment leaves
a template literal or a function body open; the closing fragment of the same kind of block
completes it.
-/
namespace BladeView.Fragment

/-! ## Conditions -/

def openConditional (condition : Text) : Text :=
  "$\x7bApp.View.execute(() => \x7b if(" ++ condition ++ ")\x7b return `"

def elseIf (condition : Text) : Text := "`; \x7d else if(" ++ condition ++ ")\x7b return `"

def otherwise : Text := "`; \x7d else \x7b return `"

def closeConditional : List Text := ["`; \x7d", "return '';", "\x7d)\x7d"]

/-- Whether something is set. -/
def isSet (subject : Text) : Text := "App.View.isSet(" ++ subject ++ ")"

/-- Whether something is empty. -/
def isEmpty (subject : Text) : Text := "App.View.isEmpty(" ++ subject ++ ")"

/-- The condition of a guard. -/
def guard (g : Guard) (arg : Text) : Text :=
  match g with
  | .auth => "App.View.isAuth(" ++ arg ++ ")"
  | .guest => "!App.View.isAuth(" ++ arg ++ ")"
  | .can => "App.View.can(" ++ arg ++ ")"
  | .cannot => "App.View.cannot(" ++ arg ++ ")"
  | .error => "App.View.hasError(" ++ arg ++ ")"
  | .hasSection => "App.View.hasSection(" ++ arg ++ ")"
  | .negated => "!(" ++ arg ++ ")"

/-! ## Switches -/

def openSwitch (subject : Text) : Text :=
  "$\x7bApp.View.execute(() => \x7b\nlet __switchOutputContent__ = '';\nswitch(" ++ subject
    ++ ") \x7b"

def openCase (value : Text) : Text := "\ncase " ++ value ++ ":\n__switchOutputContent__ += `"

def openDefault : Text := "\ndefault:\n__switchOutputContent__ += `"

/-- Ends a branch that runs into the next one. -/
def closeCase : Text := "`;"

/-- Ends a branch that leaves the switch. -/
def leaveCase : Text := "`;\nbreak;"

def closeSwitch : Text := "\n\x7d\nreturn __switchOutputContent__;\n\x7d)\x7d"

/-! ## Loops -/

def openForeach (subject value key : Text) : Text :=
  "$\x7bApp.View.foreach(" ++ subject ++ ", (" ++ value ++ ", " ++ key
    ++ ", __loopIndex, loop) => `"

/-- Closes a template literal that is the last argument of a call. -/
def closeBody : Text := "`)\x7d"

/-- The variable that a counting loop collects its output in. -/
def forOutput : Text := "__forOutputContent__"

/-- The variable that a conditional loop collects its output in. -/
def whileOutput : Text := "__whileOutputContent__"

/-- Opens a loop that collects its output. -/
def openLoop (output keyword header : Text) : Text :=
  "$\x7bApp.View.execute(() => \x7b\nlet " ++ output ++ " = ``;\n" ++ keyword ++ "(" ++ header
    ++ ") \x7b"

/-- Adds the lines of a loop's body to its output. There is nothing to add without any line. -/
def collect (output : Text) : List Text → List Text
  | [] => []
  | body => [output ++ " += `" ++ Text.join "\n" body ++ "`;"]

def closeLoop (output : Text) : Text := "\x7d\nreturn " ++ output ++ ";\n\x7d)\x7d"

/-! ## Sections and blocks -/

def shortSection (name value : Text) : Text :=
  "$\x7bApp.View.section(" ++ name ++ ", " ++ value ++ ", 'string')\x7d"

def openSection (name : Text) : Text := "$\x7bApp.View.section(" ++ name ++ ", `"

def closeSection : Text := "`, 'html')\x7d"

def openBlock (name attributes : Text) : Text :=
  "$\x7bthis.__block(" ++ name ++ ", " ++ attributes ++ ", () => `"

def openFollow (keys : List Text) : Text :=
  "$\x7bthis.__follow([" ++ Text.join ", " keys ++ "], () => `"

/-! ## Code and wrappers -/

/-- Runs one line of code. -/
def runCode (code : Text) : Text :=
  "$\x7bApp.View.execute(() => \x7b " ++ code ++ "; return ''; \x7d)\x7d"

def openCode : Text := "$\x7bApp.View.execute(() => \x7b"

def closeCode : List Text := ["    return '';", "\x7d)\x7d"]

def openWrapper (tag attributes : Text) : Text :=
  "$\x7bApp.View.startWrapper(" ++ tag ++ ", " ++ attributes ++ ", __VIEW_ID__)\x7d"

def closeWrapper : Text := "$\x7bApp.View.endWrapper(__VIEW_ID__)\x7d"

end BladeView.Fragment
