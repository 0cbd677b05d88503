import BladeView.Text.Basic

/-!
# Script expressions and statements

The pieces that generated modules are assembled from. Code that another part of the library has
already written is carried as `raw` text; everything else has a structure of its own, which the
printer lays out.
-/
namespace BladeView.Script

mutual

/-- A script expression. -/
inductive Expr where
  /-- Code that is already written. -/
  | raw (code : Text)
  /-- A string, printed in single quotes. -/
  | str (value : Text)
  /-- A string, printed in double quotes. -/
  | json (value : Text)
  /-- A template literal with the body as it is to be printed. -/
  | template (body : Text)
  | bool (value : Bool)
  | null
  | array (items : List Expr)
  /-- Entries in order. An entry with an empty key stands for itself, without key and colon. -/
  | object (entries : List (Text × Expr))
  | function (params : List Text) (body : List Stmt)

/-- A script statement. -/
inductive Stmt where
  /-- Code that is already written; its further lines are not indented again. -/
  | raw (code : Text)
  | declare (name : Text) (value : Option Expr)
  | const (name : Text) (value : Expr)
  | assign (name : Text) (value : Expr)
  | expr (value : Expr)
  | return (value : Expr)
  | guarded (body : List Stmt) (param : Text) (handler : List Stmt)

end

/-- An anonymous function. -/
structure Function where
  params : List Text := []
  body : List Stmt

namespace Function

/-- A function as an expression. -/
def toExpr (f : Function) : Expr := .function f.params f.body

end Function

/-- An array of strings in double quotes. -/
def Expr.strings (items : List Text) : Expr := .array (items.map .json)

end BladeView.Script
