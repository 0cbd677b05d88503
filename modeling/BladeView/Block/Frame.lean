import BladeView.Text.Basic

/-!
# Frames

Each open block has a frame, which remembers what kind of block it is and which line of output
opened it. A block closes only when its frame is the innermost one; a closing directive that does
not fit the innermost frame is ignored.
-/
namespace BladeView

/-- Conditions with a directive of their own. -/
inductive Guard where
  | auth
  | guest
  | can
  | cannot
  | error
  | hasSection
  | negated
  deriving DecidableEq

namespace Guard

/-- The guards by the names of their directives. -/
def names : List (String × Guard) :=
  [("auth", auth), ("guest", guest), ("can", can), ("cannot", cannot), ("error", error),
   ("hasSection", hasSection), ("hassection", hasSection), ("unless", negated)]

/-- The guard that a directive opens. -/
def ofName? (name : Text) : Option Guard :=
  (names.find? fun entry => entry.1.toList == name).map Prod.snd

/-- The directives that close a guard. -/
def closers : Guard → List String
  | auth => ["endauth"]
  | guest => ["endguest"]
  | can => ["endcan"]
  | cannot => ["endcannot"]
  | error => ["enderror"]
  | hasSection => ["endif", "endhasSection", "endhassection"]
  | negated => ["endunless"]

/-- Whether a directive closes the guard. -/
def closedBy (g : Guard) (name : Text) : Bool := g.closers.any fun closer => closer.toList == name

end Guard

/-- The kinds of blocks. -/
inductive FrameKind where
  | conditional
  | switch
  | case
  | default
  | foreach
  | for
  | while
  | section
  | block
  | php
  | register
  | wrapper
  | empty
  | isset
  | guard (g : Guard)
  | follow
  deriving DecidableEq

namespace FrameKind

/-- The body is a branch of a condition. -/
def isConditional : FrameKind → Bool
  | conditional | empty | isset | guard _ => true
  | _ => false

/-- Belongs to a switch. -/
def isSwitchGroup : FrameKind → Bool
  | switch | case | default => true
  | _ => false

/-- One of the branches of a switch. -/
def isBranch : FrameKind → Bool
  | case | default => true
  | _ => false

/-- The body is collected in a variable when the loop closes. -/
def accumulates : FrameKind → Bool
  | .for | .while => true
  | _ => false

end FrameKind

/-- An open block: its kind, and the index of the output line that opened it. -/
structure Frame where
  kind : FrameKind
  opened : Nat
  deriving DecidableEq

/-- The open blocks, the innermost first. -/
abbrev FrameStack := List Frame

namespace FrameStack

/-- The kind of the innermost block. -/
def top? (s : FrameStack) : Option FrameKind := s.head?.map (·.kind)

/-- Opens a block. -/
def push (s : FrameStack) (kind : FrameKind) (opened : Nat) : FrameStack := ⟨kind, opened⟩ :: s

/-- Closes the innermost block if it is of an accepted kind. -/
def popIf (accept : FrameKind → Bool) : FrameStack → Option (Frame × FrameStack)
  | [] => none
  | frame :: outer => if accept frame.kind then some (frame, outer) else none

/-- Whether a block of a kind is open. -/
def hasKind (s : FrameStack) (kind : FrameKind) : Bool := s.any (·.kind == kind)

end FrameStack
end BladeView
