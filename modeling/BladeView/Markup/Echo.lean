import BladeView.Expression.Convert

/-!
# Echoes

An echo shows the value of an expression, escaped or raw. Text that only looks like an escaped
echo is kept by an at sign before it. Between the echoes, a variable alone in braces is shown raw.
-/
namespace BladeView.Echo

/-- A stretch of text or an echo. -/
inductive Piece where
  | text (t : Text)
  /-- The value of an expression. -/
  | echo (isRaw : Bool) (inside : Text)
  /-- An escaped echo that is kept as text. -/
  | kept (inside : Text)

/-- The marks around an echo. -/
def marks (isRaw : Bool) : Text × Text :=
  if isRaw then ("\x7b!!", "!!\x7d") else ("\x7b\x7b", "\x7d\x7d")

/-- The text before the first mark that opens an echo, whether it is raw, and what follows the
mark. -/
def opening? : Text → Option (Text × Bool × Text)
  | [] => none
  | c :: cs =>
    match Text.after? (marks true).1 (c :: cs), Text.after? (marks false).1 (c :: cs) with
    | some rest, _ => some ([], true, rest)
    | none, some rest => some ([], false, rest)
    | none, none => (opening? cs).map fun found => (c :: found.1, found.2)

/-- The first echo: the text before it, whether it is raw, what it holds and the rest. There is
none if the first mark is never closed. -/
def first? (t : Text) : Option (Text × Bool × Text × Text) := do
  let (before, isRaw, rest) ← opening? t
  let (inside, rest) ← Text.cut? (marks isRaw).2 rest
  return (before, isRaw, inside, rest)

/-- The pieces of a text with at most `count` echoes. -/
def piecesUpTo : Nat → Text → List Piece
  | 0, t => [.text t]
  | count + 1, t =>
    match first? t with
    | none => [.text t]
    | some (before, isRaw, inside, rest) =>
      if !isRaw && Text.endsWith "@" before then
        .text before.dropLast :: .kept inside :: piecesUpTo count rest
      else .text before :: .echo isRaw inside :: piecesUpTo count rest

/-- The pieces of a text. It has fewer echoes than characters. -/
def pieces (t : Text) : List Piece := piecesUpTo t.length t

/-! ## Raw variables -/

/-- Reads the rest of a variable's path: word characters, and further names after dots or
arrows. -/
def pathRest : Text → Text × Text
  | '-' :: '>' :: c :: cs =>
    if isNameStart c then
      let (path, rest) := pathRest cs
      ('-' :: '>' :: c :: path, rest)
    else ([], '-' :: '>' :: c :: cs)
  | c :: cs =>
    if isWordChar c || (c == '.' && cs.head?.any isNameStart) then
      let (path, rest) := pathRest cs
      (c :: path, rest)
    else ([], c :: cs)
  | [] => ([], [])

/-- Reads a variable alone in braces: its path with the sigil. -/
def braced? (t : Text) : Option (Text × Text) := do
  match Text.trimStart (← Text.after? "\x7b" t) with
  | '$' :: c :: cs =>
    if isNameStart c then
      let (path, rest) := pathRest cs
      let rest ← Text.after? "\x7d" (Text.trimStart rest)
      return ('$' :: c :: path, rest)
    else none
  | _ => none

/-- An interpolation. -/
def interpolate (code : Text) : Text := "$\x7b" ++ code ++ "\x7d"

/-- A text with its raw variables compiled. Braces after a dollar sign are an interpolation
already. -/
def substituteVariables (convert : Text → Text) (t : Text) : Text :=
  Text.substitute (fun before t =>
    if before == some '$' then none
    else (braced? t).map fun found => (interpolate (convert found.1), found.2)) t

/-! ## Echoes -/

/-- The script form of an echo. A list or an object is shown as it is, since there is nothing in it
to escape. -/
def compile (convert : Text → Text) (isRaw : Bool) (inside : Text) : Text :=
  let code := convert inside
  if isRaw || Text.startsWith "[" code || Text.startsWith "\x7b" code then interpolate code
  else interpolate ("App.View.escString(" ++ code ++ ")")

/-- The text that a piece leaves. -/
def Piece.output (convert : Text → Text) : Piece → Text
  | text t => substituteVariables convert t
  | echo isRaw inside => compile convert isRaw inside
  | kept inside => (marks false).1 ++ inside ++ (marks false).2

/-- A text with its echoes and raw variables compiled. -/
def substitute (bindings : Bindings) (t : Text) : Text :=
  (pieces t).flatMap (Piece.output (Expression.toScript bindings))

end BladeView.Echo
