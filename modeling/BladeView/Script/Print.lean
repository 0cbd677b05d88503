import BladeView.Script.Basic
import BladeView.Script.Quoted
import BladeView.Text.Word

/-!
# Printing scripts

Statements stand on lines of their own, four blanks deeper for each level. Objects take a line for
each entry; arrays stay on one line. The inline form of an expression puts objects on one line too.
-/
namespace BladeView.Script

/-- The blanks before a line. -/
def indent (level : Nat) : Text := List.replicate (4 * level) ' '

/-- A key of an object: bare if it is made of name characters and does not start with a digit. -/
def objectKey (key : Text) : Text :=
  match key with
  | [] => Quoted.double key
  | c :: cs => if !c.isDigit && (c :: cs).all isNameChar then key else Quoted.double key

/-- An object's entry: its key and colon, if it has a key, and its value. -/
def entry (key value : Text) : Text :=
  if key.isEmpty then value else objectKey key ++ ": " ++ value

mutual

/-- Prints an expression whose first line is already indented to `level`. -/
def Expr.print (level : Nat) : Expr → Text
  | .raw code => code
  | .str value => Quoted.single value
  | .json value => Quoted.double value
  | .template body => "`" ++ body ++ "`"
  | .bool value => if value then "true" else "false"
  | .null => "null"
  | .array items => "[" ++ Text.join ", " (printItems level items) ++ "]"
  | .object [] => "\x7b\x7d"
  | .object entries =>
    "\x7b\n" ++ Text.join ",\n" (printEntries (level + 1) entries) ++ "\n" ++ indent level ++ "\x7d"
  | .function params body =>
    "function(" ++ Text.join ", " params ++ ") \x7b\n" ++ printBlock (level + 1) body
      ++ indent level ++ "\x7d"

def printItems (level : Nat) : List Expr → List Text
  | [] => []
  | item :: items => item.print level :: printItems level items

def printEntries (level : Nat) : List (Text × Expr) → List Text
  | [] => []
  | (key, value) :: entries =>
    (indent level ++ entry key (value.print level)) :: printEntries level entries

/-- Prints a statement with its line break. -/
def Stmt.print (level : Nat) : Stmt → Text
  | .raw code => if code.isEmpty then "\n" else indent level ++ code ++ "\n"
  | .declare name none => indent level ++ "let " ++ name ++ ";\n"
  | .declare name (some value) => indent level ++ "let " ++ name ++ " = " ++ value.print level ++ ";\n"
  | .const name value => indent level ++ "const " ++ name ++ " = " ++ value.print level ++ ";\n"
  | .assign name value => indent level ++ name ++ " = " ++ value.print level ++ ";\n"
  | .expr value => indent level ++ value.print level ++ ";\n"
  | .return value => indent level ++ "return " ++ value.print level ++ ";\n"
  | .guarded body param handler =>
    indent level ++ "try \x7b\n" ++ printBlock (level + 1) body
      ++ indent level ++ "\x7d catch(" ++ param ++ ") \x7b\n" ++ printBlock (level + 1) handler
      ++ indent level ++ "\x7d\n"

def printBlock (level : Nat) : List Stmt → Text
  | [] => []
  | stmt :: stmts => stmt.print level ++ printBlock level stmts

end

/-- Prints a function at a level. -/
def Function.print (level : Nat) (f : Function) : Text := f.toExpr.print level

mutual

/-- Prints an expression on one line, objects included. -/
def Expr.inline : Expr → Text
  | .object [] => "\x7b\x7d"
  | .object entries => "\x7b " ++ Text.join ", " (inlineEntries entries) ++ " \x7d"
  | .array items => "[" ++ Text.join ", " (inlineItems items) ++ "]"
  | .raw code => code
  | .str value => Quoted.single value
  | .json value => Quoted.double value
  | .template body => "`" ++ body ++ "`"
  | .bool value => if value then "true" else "false"
  | .null => "null"
  | .function params body => (Expr.function params body).print 0

def inlineItems : List Expr → List Text
  | [] => []
  | item :: items => item.inline :: inlineItems items

def inlineEntries : List (Text × Expr) → List Text
  | [] => []
  | (key, value) :: entries => entry key value.inline :: inlineEntries entries

end

end BladeView.Script
