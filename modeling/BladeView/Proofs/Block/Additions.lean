import BladeView.Block.Machine

/-!
# What a stretch of tokens adds

A stretch of tokens that opens and closes its own blocks only adds to the machine: lines at the end
of the output, and sections at the end of the sections. `Adds` says so, with the lines, and
`Opened` says what the machine looks like just inside a block. The lemmas on the two are all that
is needed to follow the machine through nested blocks, and none of them looks at a directive.
-/
namespace BladeView

open Fragment (closeCase collect)

theorem FrameStack.popIf_eq_some {accept : FrameKind → Bool} {stack outer : FrameStack}
    {frame : Frame} (h : stack.popIf accept = some (frame, outer)) :
    stack = frame :: outer ∧ accept frame.kind = true := by
  cases stack with
  | nil => cases h
  | cons f rest =>
    simp only [popIf] at h
    obtain ⟨haccept, h⟩ := Option.ite_none_right_eq_some.1 h
    cases h
    exact ⟨rfl, haccept⟩

namespace Machine

/-- The machine after some tokens. -/
def feedAll (m : Machine) (tokens : List Token) : Machine := tokens.foldl feed m

@[simp] theorem feedAll_nil (m : Machine) : m.feedAll [] = m := rfl

@[simp] theorem feedAll_cons (m : Machine) (token : Token) (tokens : List Token) :
    m.feedAll (token :: tokens) = (m.feed token).feedAll tokens := rfl

@[simp] theorem feedAll_append (m : Machine) (tokens more : List Token) :
    m.feedAll (tokens ++ more) = (m.feedAll tokens).feedAll more := by
  simp [feedAll, List.foldl_append]

theorem run_eq_feedAll (b : Bindings) (tokens : List Token) :
    run b tokens = (start b).feedAll tokens := rfl

/-! ## Added lines -/

/-- `m'` is `m` with lines added to the output, and maybe sections to the sections. -/
structure Adds (m m' : Machine) (new : List Text) : Prop where
  bindings : m'.bindings = m.bindings
  stack : m'.stack = m.stack
  openSections : m'.openSections = m.openSections
  lines : m'.lines = m.lines ++ new
  sections : m.sections <+: m'.sections

namespace Adds

theorem refl (m : Machine) : Adds m m [] := ⟨rfl, rfl, rfl, by simp, List.prefix_rfl⟩

theorem trans {m₁ m₂ m₃ : Machine} {new more : List Text} (h : Adds m₁ m₂ new)
    (h' : Adds m₂ m₃ more) : Adds m₁ m₃ (new ++ more) where
  bindings := h'.bindings.trans h.bindings
  stack := h'.stack.trans h.stack
  openSections := h'.openSections.trans h.openSections
  lines := by rw [h'.lines, h.lines, List.append_assoc]
  sections := h.sections.trans h'.sections

theorem emit (m : Machine) (new : List Text) : Adds m (m.emit new) new :=
  ⟨rfl, rfl, rfl, rfl, List.prefix_rfl⟩

theorem text (m : Machine) (t : Text) :
    Adds m (m.text t) (textLines m.bindings t m.stack.top?) :=
  emit m _

end Adds

/-! ## Opened blocks -/

/-- `m'` is `m` just inside a block that was opened with some lines. A long section is on the stack
of names as well. -/
structure Opened (m m' : Machine) (kind : FrameKind) (names new : List Text) : Prop where
  bindings : m'.bindings = m.bindings
  stack : m'.stack = ⟨kind, m.lines.length⟩ :: m.stack
  openSections : m'.openSections = names ++ m.openSections
  lines : m'.lines = m.lines ++ new
  sections : m'.sections = m.sections

namespace Opened

variable {m m₁ m₂ : Machine} {kind : FrameKind} {names new body : List Text}

theorem opens (m : Machine) (kind : FrameKind) (line : Text) :
    Opened m (m.opens kind line) kind [] [line] :=
  ⟨rfl, rfl, rfl, rfl, rfl⟩

theorem top (h : Opened m m₁ kind names new) : m₁.stack.top? = some kind := by
  simp [h.stack, FrameStack.top?]

/-- Closing a block whose body only added something leaves an addition. -/
theorem closes (h : Opened m m₁ kind [] new) (hbody : Adds m₁ m₂ body)
    {accept : FrameKind → Bool} (haccept : accept kind = true) (last : List Text) :
    Adds m (m₂.closes accept last) (new ++ body ++ last) := by
  have hstack : m₂.stack = ⟨kind, m.lines.length⟩ :: m.stack := hbody.stack.trans h.stack
  simp only [Machine.closes, hstack, FrameStack.popIf, haccept, if_true]
  exact
    { bindings := hbody.bindings.trans h.bindings
      stack := rfl
      openSections := hbody.openSections.trans h.openSections
      lines := by simp [hbody.lines, h.lines]
      sections := h.sections ▸ hbody.sections }

/-- Closing a loop replaces the lines of its body by one statement, and none before them. -/
theorem closeLoop {line : Text} (h : Opened m m₁ kind [] [line]) (hbody : Adds m₁ m₂ body)
    (output : Text) :
    Adds m (m₂.closeLoop kind output)
      ([line] ++ collect output (body.filter fun line => !Text.isEmptyOrBlank line)
        ++ [Fragment.closeLoop output]) := by
  have hstack : m₂.stack = ⟨kind, m.lines.length⟩ :: m.stack := hbody.stack.trans h.stack
  have hlines : m₂.lines = (m.lines ++ [line]) ++ body := by rw [hbody.lines, h.lines]
  have hlength : m.lines.length + 1 = (m.lines ++ [line]).length := by simp
  simp only [Machine.closeLoop, hstack, FrameStack.popIf, beq_self_eq_true, if_true]
  exact
    { bindings := hbody.bindings.trans h.bindings
      stack := rfl
      openSections := hbody.openSections.trans h.openSections
      lines := by rw [hlines, hlength, List.take_left, List.drop_left]; simp
      sections := h.sections ▸ hbody.sections }

/-- Closing a long section adds it to the sections. -/
theorem closeSection {name : Text} (h : Opened m m₁ .section [name] new)
    (hbody : Adds m₁ m₂ body) :
    Adds m m₂.closeSection (new ++ body ++ [Fragment.closeSection]) := by
  have hstack : m₂.stack = ⟨.section, m.lines.length⟩ :: m.stack := hbody.stack.trans h.stack
  simp only [Machine.closeSection, hstack, FrameStack.popIf, beq_self_eq_true, if_true]
  exact
    { bindings := hbody.bindings.trans h.bindings
      stack := rfl
      openSections := by simp [hbody.openSections, h.openSections]
      lines := by simp [hbody.lines, h.lines]
      sections := by
        rw [← h.sections]
        exact hbody.sections.trans (List.prefix_append _ _) }

end Opened

/-! ## Switches

The branches of a switch are not closed by a directive of their own: the next branch, a break or
the end of the switch closes them. So the machine inside a switch is followed with one branch left
open. -/

/-- `m'` is inside the switch that `m₁` has just opened, with some lines added since. A branch may
be open. -/
inductive InSwitch (m₁ : Machine) : Machine → List Text → (isOpen : Bool) → Prop
  | between {m' : Machine} {new : List Text} : Adds m₁ m' new → InSwitch m₁ m' new false
  | branch {m₂ m₃ m' : Machine} {kind : FrameKind} {before first body : List Text} :
      kind.isBranch = true → Adds m₁ m₂ before → Opened m₂ m₃ kind [] first → Adds m₃ m' body →
      InSwitch m₁ m' (before ++ first ++ body) true

namespace InSwitch

variable {m₁ m' m'' : Machine} {new more : List Text} {isOpen : Bool}

/-- What is added inside a switch belongs to the open branch, if there is one. -/
theorem adds (h : InSwitch m₁ m' new isOpen) (h' : Adds m' m'' more) :
    InSwitch m₁ m'' (new ++ more) isOpen := by
  cases h with
  | between hnew => exact .between (hnew.trans h')
  | branch hkind hbefore hopened hbody =>
    rw [List.append_assoc]
    exact .branch hkind hbefore hopened (hbody.trans h')

theorem top_ne (h : InSwitch m₁ m' new isOpen) (htop : m₁.stack.top? = some .switch) :
    m'.stack.top? ≠ some .register := by
  cases h with
  | between hnew => simp [hnew.stack, htop]
  | branch hkind _ hopened hbody =>
    rw [hbody.stack, hopened.top]
    rintro ⟨⟩
    cases hkind

theorem isIn_branch (h : InSwitch m₁ m' new true) : m'.isIn FrameKind.isBranch = true := by
  cases h with
  | branch hkind _ hopened hbody => simp [isIn, hbody.stack, hopened.top, hkind]

/-- Closing the open branch, if there is one, leaves an addition to the switch. -/
theorem closes (h : InSwitch m₁ m' new isOpen) (htop : m₁.stack.top? = some .switch)
    (last : List Text) :
    Adds m₁ (m'.closes FrameKind.isBranch last) (new ++ if isOpen then last else []) := by
  cases h with
  | between hnew =>
    have hsame : m'.closes FrameKind.isBranch last = m' := by
      have htop' : m'.stack.top? = some .switch := by rw [hnew.stack, htop]
      unfold Machine.closes
      cases hstack : m'.stack with
      | nil => rfl
      | cons frame outer =>
        have hkind : frame.kind = .switch := by simpa [hstack, FrameStack.top?] using htop'
        simp [FrameStack.popIf, hkind, FrameKind.isBranch]
    simpa [hsame] using hnew
  | branch hkind hbefore hopened hbody =>
    simpa using hbefore.trans (hopened.closes hbody hkind last)

/-- A new branch closes the one before it. -/
theorem openBranch (h : InSwitch m₁ m' new isOpen) (htop : m₁.stack.top? = some .switch)
    {kind : FrameKind} (hkind : kind.isBranch = true) (line : Text) :
    InSwitch m₁ (m'.openBranch kind line)
      (new ++ (if isOpen then [closeCase] else []) ++ [line]) true := by
  have hclosed := h.closes htop [closeCase]
  have hin : (m'.closes FrameKind.isBranch [closeCase]).isIn (· == .switch) = true := by
    simp [isIn, hclosed.stack, htop]
  have hopened := Opened.opens (m'.closes FrameKind.isBranch [closeCase]) kind line
  simpa [Machine.openBranch, hin] using branch hkind hclosed hopened (Adds.refl _)

/-- The end of a switch closes its last branch. -/
theorem closeSwitch {m : Machine} {first : List Text} (h : InSwitch m₁ m' new isOpen)
    (hopened : Opened m m₁ .switch [] first) :
    Adds m m'.closeSwitch
      (first ++ (new ++ if isOpen then [closeCase] else []) ++ [Fragment.closeSwitch]) :=
  hopened.closes (h.closes hopened.top [closeCase]) rfl _

end InSwitch
end Machine
end BladeView
