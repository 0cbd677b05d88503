import BladeView.Source.Body

/-!
# Directives inside text

Directives may stand anywhere in a run of text. A pass over the text asks about each of them, from
left to right, and puts in its place what the answer gives. A directive that is declined stays; the
pass goes on right after its at sign, so directives inside its arguments are asked about too. A
directive whose argument list is not closed is not asked about.
-/
namespace BladeView

/-- A directive inside text, with the inside of its argument list. -/
structure Occurrence where
  name : Text
  args : Option Text

namespace Occurrence

/-- Reads the directive at the front of a text; gives the rest. -/
def read? (before : Option Char) : Text → Option (Occurrence × Text)
  | '@' :: cs =>
    let name := Text.word cs
    let rest := cs.drop name.length
    if name.isEmpty || !Body.startsDirective before then none
    else
      match Group.args? rest with
      | some (args, after) => some (⟨name, some args⟩, after)
      | none => if Group.opensArgs rest then none else some (⟨name, none⟩, rest)
  | _ => none

/-- What a pass makes of a stretch of text. -/
inductive Segment where
  /-- A character that is copied. -/
  | copied (c : Char)
  /-- A directive that was asked about and declined; its text follows. -/
  | declined (directive : Occurrence)
  /-- A directive, and the text in its place. -/
  | replaced (directive : Occurrence) (new : Text)

namespace Segment

/-- The text that a segment leaves. -/
def output : Segment → Text
  | copied c => [c]
  | declined _ => []
  | replaced _ new => new

/-- The directive that was asked about. -/
def asked? : Segment → Option Occurrence
  | copied _ => none
  | declined d => some d
  | replaced d _ => some d

end Segment

/-- One step of a pass. -/
def segmentStep (answer : Occurrence → Option Text) (before : Option Char) (_ : Unit) (t : Text) :
    List Segment × Unit × Nat :=
  match read? before t with
  | none => ((t.take 1).map .copied, (), 0)
  | some (d, rest) =>
    match answer d with
    | some new => ([.replaced d new], (), Text.readBeyond t rest)
    | none => (.declined d :: (t.take 1).map .copied, (), 0)

/-- What a pass makes of a text. -/
def segments (answer : Occurrence → Option Text) (t : Text) : List Segment :=
  Text.sweep (segmentStep answer) none () 0 t

/-- A text with the answers in place of its directives. -/
def substitute (answer : Occurrence → Option Text) (t : Text) : Text :=
  (segments answer t).flatMap Segment.output

/-- Whether a directive has one of the given names. -/
def isNamed (d : Occurrence) (names : List String) : Bool :=
  names.any fun name => name.toList == d.name

end Occurrence
end BladeView
