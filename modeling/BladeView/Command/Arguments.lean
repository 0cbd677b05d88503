import BladeView.Text.Basic

/-!
# Command line arguments

Arguments are options, whose values may be attached or stand in the next argument, switches, which
have no value and may share a hyphen, and positional arguments. A double hyphen ends the options.
-/
namespace BladeView

/-- An option or a switch. -/
structure Parameter where
  name : String
  short : Option Char := none
  takesValue : Bool := true
  allowsEmpty : Bool := false

/-- What a command accepts. -/
structure Signature where
  parameters : List Parameter
  /-- The number of positional arguments, which may not be empty. -/
  positionals : Nat := 0

/-- Why reading stops before the end. -/
inductive Stop where
  | help
  /-- The arguments do not fit the command. -/
  | usage
  deriving DecidableEq

/-- What was given: the values of options, with empty values for switches, and the positional
arguments. -/
structure Arguments where
  values : List (String × Text) := []
  positionals : List Text := []
  /-- An option whose value is to come. -/
  pending : Option Parameter := none
  /-- The options have ended. -/
  hasEnded : Bool := false

namespace Arguments

/-- The value that was given for a name. -/
def value? (a : Arguments) (name : String) : Option Text :=
  (a.values.find? fun entry => entry.1 == name).map Prod.snd

/-- Whether a name was given. -/
def isGiven (a : Arguments) (name : String) : Bool := (a.value? name).isSome

/-- Records a value. An option may be given once. -/
def give (a : Arguments) (p : Parameter) (value : Text) : Except Stop Arguments :=
  if a.isGiven p.name || (p.takesValue && value.isEmpty && !p.allowsEmpty) then .error .usage
  else .ok { a with values := a.values ++ [(p.name, value)], pending := none }

/-- Records a positional argument. -/
def givePositional (s : Signature) (a : Arguments) (value : Text) : Except Stop Arguments :=
  if value.isEmpty || s.positionals ≤ a.positionals.length then .error .usage
  else .ok { a with positionals := a.positionals ++ [value] }

/-- Reads an option by its name, with a value if one is attached. -/
def long (s : Signature) (a : Arguments) (name : Text) (attached : Option Text) :
    Except Stop Arguments :=
  match s.parameters.find? fun p => p.name.toList == name, attached with
  | some p, some value => if p.takesValue then a.give p value else .error .usage
  | some p, none => if p.takesValue then .ok { a with pending := some p } else a.give p []
  | none, none => .error (if name == "help".toList then .help else .usage)
  | none, some _ => .error .usage

/-- Reads the letters after a hyphen. The first option that takes a value takes the rest. -/
def cluster (s : Signature) (a : Arguments) : Text → Except Stop Arguments
  | [] => .ok a
  | c :: cs =>
    match s.parameters.find? fun p => p.short == some c with
    | none => .error (if c == 'h' then .help else .usage)
    | some p =>
      if !p.takesValue then do cluster s (← a.give p []) cs
      else if cs.isEmpty then .ok { a with pending := some p }
      else a.give p ((Text.after? "=" cs).getD cs)

/-- Whether an argument looks like an option. -/
def isOption (arg : Text) : Bool := Text.startsWith "-" arg && arg != "-".toList

/-- Reads one argument. -/
def step (s : Signature) (a : Arguments) (arg : Text) : Except Stop Arguments :=
  match a.pending with
  | some p => if isOption arg then .error .usage else a.give p arg
  | none =>
    if a.hasEnded || !isOption arg then a.givePositional s arg
    else if arg == "--".toList then .ok { a with hasEnded := true }
    else
      match Text.after? "--" arg with
      | some rest =>
        match Text.cut? "=" rest with
        | some (name, value) => a.long s name (some value)
        | none => a.long s rest none
      | none => a.cluster s (arg.drop 1)

/-- Reads arguments. An option at the end must have its value. -/
def read (s : Signature) (args : List Text) : Except Stop Arguments := do
  let a ← args.foldlM (step s) {}
  if a.pending.isSome then .error .usage else .ok a

end Arguments
end BladeView
