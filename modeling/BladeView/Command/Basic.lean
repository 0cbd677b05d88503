import BladeView.Build.Batch
import BladeView.Build.Output
import BladeView.Build.Settings
import BladeView.Command.Arguments

/-!
# The command line

One command builds all views of a project, the other compiles a single template.
-/
namespace BladeView

/-- What the command line asks for. -/
inductive Command where
  | build (settings views out : Option Path) (usesCache : Bool)
  | compile (file : Path) (name : Text) (wrapper : Option Path)
  | version
  | help
  deriving DecidableEq

namespace Command

/-! ## Reading -/

/-- What the build command accepts. -/
def buildSignature : Signature where
  parameters :=
    [{ name := "config", short := some 'c' }, { name := "views" }, { name := "out" },
     { name := "verbose", short := some 'v', takesValue := false },
     { name := "no-cache", takesValue := false }]

/-- What the compile command accepts. -/
def compileSignature : Signature where
  parameters :=
    [{ name := "name", short := some 'n', allowsEmpty := true }, { name := "wrapper" }]
  positionals := 1

/-- Reads the build command. -/
def readBuild (args : List Text) : Except Stop Command := do
  let a ← Arguments.read buildSignature args
  return .build (a.value? "config") (a.value? "views") (a.value? "out") (!a.isGiven "no-cache")

/-- Reads the compile command, which needs a file and a name. -/
def readCompile (args : List Text) : Except Stop Command := do
  let a ← Arguments.read compileSignature args
  match a.positionals, a.value? "name" with
  | [file], some name => return .compile file name (a.value? "wrapper")
  | _, _ => .error .usage

/-- Reads what stands in place of a command. -/
def readFlag (arg : Text) : Except Stop Command :=
  if arg == "--version".toList || Text.startsWith "-V" arg then .ok .version
  else if arg == "--help".toList || Text.startsWith "-h" arg then .error .help
  else .error .usage

/-- Reads a request for help, which may name a command. No command has commands of its own, so
nothing may follow the name. -/
def readHelp : List Text → Except Stop Command
  | [] => .error .help
  | [name] =>
    .error (if ["build", "compile", "help"].any fun known => known.toList == name then .help
      else .usage)
  | _ :: _ :: _ => .error .usage

/-- Reads a command line. -/
def read : List Text → Except Stop Command
  | [] => .error .usage
  | arg :: args =>
    if arg == "build".toList then readBuild args
    else if arg == "compile".toList then readCompile args
    else if arg == "help".toList then readHelp args
    else readFlag arg

/-- The command of a command line, if it is well-formed. -/
def ofArguments? (args : List Text) : Option Command :=
  match read args with
  | .ok command => some command
  | .error .help => some .help
  | .error .usage => none

/-! ## Running -/

/-- The name of the program. -/
def programName : Text := "blade-spa"

/-- How the program is used. -/
def usage : Text :=
  "Usage: blade-spa build [-c|--config PATH] [--views PATH] [--out PATH] [-v|--verbose] [--no-cache]\n       blade-spa compile FILE -n|--name NAME [--wrapper PATH]\n"

end Command

/-- What a command leaves: its exit code, its output, and why it failed. -/
structure Report where
  code : Nat := 0
  output : Text := []
  failure : Option Text := none
  deriving DecidableEq

namespace Command

section

variable {m : Type → Type} [Monad m] (fs : FileSystem m)

/-- Carries out one step of a command; if it fails, the command fails with a message. -/
def attempt {α : Type} (message : Text) (action : m (Except BuildError α)) : ExceptT Text m α :=
  ExceptT.mk do
    match ← action with
    | .ok value => return .ok value
    | .error _ => return .error message

/-- Builds all views of a project. Views that fail are left out, and make the command fail at the
end. -/
def buildAll (settingsPath views out : Option Path) (usesCache : Bool) : ExceptT Text m Unit := do
  let path := settingsPath.getD Settings.fileName
  let settings ← attempt ("loading " ++ path) (Settings.load fs path)
  let root := views.getD settings.viewsInput
  let files ← attempt "discovering views" (discover fs root settings.bladePattern)
  let shared ← ExceptT.lift (loadShared fs settings.wrapperFile)
  let cache := if usesCache then some settings.cacheDir else none
  if let some dir := cache then attempt "opening cache" (Cache.prepare fs dir)
  let outcomes ← ExceptT.lift (compileAll fs shared cache root files)
  let _ ← attempt "writing compiled views"
    (Output.write fs (out.getD settings.outputDir) settings.autoCreateDirs
      (Outcome.modules outcomes))
  let failed := Outcome.failures outcomes
  if 0 < failed then throw (Text.ofNat failed ++ " view(s) failed to compile")

/-- Compiles one template; gives the text of its module. -/
def compileOne (file : Path) (name : Text) (wrapper : Option Path) : ExceptT Text m Text := do
  let source ← attempt ("reading " ++ file) do
    return BuildError.ofFile file (← fs.read file)
  let shared ← ExceptT.lift (loadShared fs (wrapper.getD ({} : Settings).wrapperFile))
  return (BladeView.compile shared source name).source

/-- Carries out a command. -/
def run : Command → m Report
  | .version => return { output := programName ++ " " ++ BladeView.version ++ "\n" }
  | .help => return { output := usage }
  | .build settings views out usesCache => do
    match ← (buildAll fs settings views out usesCache).run with
    | .ok () => return {}
    | .error message => return { code := 1, failure := some message }
  | .compile file name wrapper => do
    match ← (compileOne fs file name wrapper).run with
    | .ok source => return { output := source ++ "\n" }
    | .error message => return { code := 1, failure := some message }

/-- Carries out a command line. One that is not well-formed fails. -/
def runLine (args : List Text) : m Report :=
  match ofArguments? args with
  | some command => command.run fs
  | none => return { code := 2 }

end

end Command
end BladeView
