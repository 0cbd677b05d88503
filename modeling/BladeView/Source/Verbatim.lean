import BladeView.Source.Region
import BladeView.Script.Quoted

/-!
# Verbatim text

The contents of verbatim regions are taken out of a template before anything else looks at it, and
put back into the finished script text. A numbered placeholder holds the place in between.
-/
namespace BladeView.Verbatim

/-- What a placeholder begins with. -/
def placeholderHead : Text := "__VERBATIM_BLOCK_"

/-- Holds the place of the `n`-th verbatim region. -/
def placeholder (n : Nat) : Text := placeholderHead ++ Text.ofNat n ++ "__"

/-- The contents of the verbatim regions of a template, in order. -/
def contents (t : Text) : List Text := Text.readAll (fun _ t => Region.verbatim? t) t

/-- What the protection of verbatim regions does at a place. -/
def protectStep (n : Nat) (t : Text) : Text × Nat × Nat :=
  match Region.verbatim? t with
  | some (_, rest) => (placeholder n, n + 1, Text.readBeyond t rest)
  | none => (t.take 1, n, 0)

/-- A template with a placeholder for each verbatim region. -/
def protect (t : Text) : Text := Text.sweep (fun _ => protectStep) none 0 0 t

/-- The number that ASCII digits spell. -/
def index? (digits : Text) : Option Nat :=
  if digits.all Char.isDigit then
    some (digits.foldl (fun n d => 10 * n + (d.toNat - '0'.toNat)) 0)
  else none

/-- Reads a placeholder: its digits and the rest. -/
def readPlaceholder? (t : Text) : Option (Text × Text) := do
  let rest ← Text.after? placeholderHead t
  let digits := rest.takeWhile isDigitChar
  if digits.isEmpty then none
  else return (digits, ← Text.after? "__" (rest.dropWhile isDigitChar))

/-- What a placeholder stands for. One without a content stands for itself. -/
def expand (verbatim : List Text) (digits : Text) : Text :=
  match (index? digits).bind fun i => verbatim[i]? with
  | some content => Quoted.template content
  | none => placeholderHead ++ digits ++ "__"

/-- Puts the contents back in place of their placeholders, in one pass. -/
def restore (verbatim : List Text) (t : Text) : Text :=
  Text.substitute (fun _ t =>
    (readPlaceholder? t).map fun read => (expand verbatim read.1, read.2)) t

end BladeView.Verbatim
