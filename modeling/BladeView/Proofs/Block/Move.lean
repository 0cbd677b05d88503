import BladeView.Proofs.Block.Discipline

/-!
# What a token can do

A token puts out lines, completes a short section, opens a block or closes the innermost one. A new
branch and the end of a switch end the open branch before that. `Move` lists what can be done, apart
from the keywords that ask for it, and whatever holds after every token is proved of the moves.
-/
namespace BladeView.Machine

/-- The short section that the arguments of a directive ask for. -/
def shortSection (m : Machine) (first second : Text) : Section where
  name := (m.sectionName first).1
  kind := .short
  content := m.convert second
  fragment := Fragment.shortSection (m.sectionName first).2 (m.convert second)

/-- Puts out a short section. -/
def putShort (m : Machine) (s : Section) : Machine :=
  { m.emit [s.fragment] with sections := m.sections ++ [s] }

/-- Opens the long section that the arguments of a directive ask for. -/
def openLong (m : Machine) (first : Text) : Machine :=
  { m.opens .section (Fragment.openSection (m.sectionName first).2) with
    openSections := (m.sectionName first).1 :: m.openSections }

theorem opened_openLong (m : Machine) (first : Text) :
    Opened m (m.openLong first) .section [(m.sectionName first).1]
      [Fragment.openSection (m.sectionName first).2] :=
  ⟨rfl, rfl, rfl, rfl, rfl⟩

theorem opened_register (m : Machine) :
    Opened m { m with stack := m.stack.push .register m.lines.length } .register [] [] :=
  ⟨rfl, rfl, rfl, by simp, rfl⟩

/-- `m₁` is `m`, or `m` after the end of the innermost branch of a switch. -/
def EndsBranch (m m₁ : Machine) : Prop :=
  m₁ = m ∨ m₁ = m.closes FrameKind.isBranch [Fragment.closeCase]

theorem EndsBranch.length_le {m m₁ : Machine} (h : EndsBranch m m₁) :
    m.lines.length ≤ m₁.lines.length := by
  rcases h with rfl | rfl
  · exact Nat.le_refl _
  · unfold closes
    split <;> simp

/-- What a token can do. Only the end of a loop takes back lines, and only the directive of sections
opens one. -/
inductive Move (m : Machine) : Token → Machine → Prop
  | puts {token : Token} (new : List Text) : Move m token (m.emit new)
  | short {d : Directive} {first second : Text} {rest : List Text} :
      m.stack.top? ≠ some .register → d.keyword = .openSection →
      TopLevel.split d.arguments = first :: second :: rest →
      Move m (.directive d) (m.putShort (m.shortSection first second))
  | long {d : Directive} {first : Text} :
      m.stack.top? ≠ some .register → d.keyword = .openSection →
      TopLevel.split d.arguments = [first] → Move m (.directive d) (m.openLong first)
  | register {d : Directive} : m.stack.top? ≠ some .register →
      Move m (.directive d) { m with stack := m.stack.push .register m.lines.length }
  | opens {d : Directive} {m₁ : Machine} {kind : FrameKind} {line : Text} : EndsBranch m m₁ →
      m₁.stack.top? ≠ some .register → kind ≠ .section →
      (kind.isBranch = true → m₁.stack.top? = some .switch) →
      Move m (.directive d) (m₁.opens kind line)
  | closes {token : Token} {m₁ : Machine} {accept : FrameKind → Bool} {last : List Text} :
      EndsBranch m m₁ → (∀ kind ∈ [.section, .for, .while], accept kind = false) →
      Move m token (m₁.closes accept last)
  | closesLoop {token : Token} {kind : FrameKind} {output : Text} : kind.accumulates = true →
      output ∈ [Fragment.forOutput, Fragment.whileOutput] →
      Move m token (m.closeLoop kind output)
  | closesSection {token : Token} : Move m token m.closeSection

variable {m : Machine} {d : Directive}

theorem Move.stays (m : Machine) (token : Token) : Move m token m := by
  have hputs := @Move.puts m token []
  rwa [emit, List.append_nil] at hputs

theorem move_branch (line : Text) : Move m (.directive d) (m.branch line) := by
  unfold branch
  split
  · exact .puts _
  · exact .stays m _

theorem move_opens {kind : FrameKind} (hm : m.stack.top? ≠ some .register) (hkind : kind ≠ .section)
    (hbranch : kind.isBranch = false) (line : Text) : Move m (.directive d) (m.opens kind line) :=
  .opens (.inl rfl) hm hkind (by simp [hbranch])

theorem move_openBranch {kind : FrameKind} (hkind : kind.isBranch = true) (line : Text) :
    Move m (.directive d) (m.openBranch kind line) := by
  simp only [openBranch]
  split
  case isTrue hin =>
    have htop : (m.closes FrameKind.isBranch [Fragment.closeCase]).stack.top? = some .switch := by
      obtain ⟨top, htop, hswitch⟩ := (Option.any_eq_true ..).mp hin
      rw [htop, eq_of_beq hswitch]
    refine .opens (.inr rfl) (by simp [htop]) ?_ fun _ => htop
    rintro rfl
    cases hkind
  case isFalse => exact .closes (.inl rfl) (by decide)

theorem move_openSection (hm : m.stack.top? ≠ some .register) (hd : d.keyword = .openSection)
    (raw : Text) : Move m (.directive d) (m.openSection raw d.arguments) := by
  unfold openSection
  split
  · exact .puts _
  next first hsplit => exact .long hm hd hsplit
  next first second rest hsplit => exact .short hm hd hsplit

/-- The move that a keyword asks for. -/
theorem move_apply (hm : m.stack.top? ≠ some .register) {keyword : Keyword}
    (hd : d.keyword = keyword) (raw : Text) :
    Move m (.directive d) (m.apply raw d.arguments keyword) := by
  cases keyword with
  | openIf | openIsset | openEmpty | openGuard | openSwitch | openFor | openWhile | openBlock
  | openFollow | openWrapper => exact move_opens hm (by simp) rfl _
  | elseIf | otherwise => exact move_branch _
  | openCase | openDefault => exact move_openBranch rfl _
  | leaveCase | closeIf | closeIsset | closeEmpty | closeForeach | closeBlock | closeFollow
  | closePhp | closeRegister | closeWrapper => exact .closes (.inl rfl) (by decide)
  | closeGuard => exact .closes (.inl rfl) (by simp [isGuardClosedBy])
  | closeSwitch => exact .closes (.inr rfl) (by decide)
  | openForeach =>
    simp only [apply, openForeach]
    split
    · exact .puts _
    · exact move_opens hm (by simp) rfl _
  | closeFor | closeWhile => exact .closesLoop rfl (by simp)
  | openSection => exact move_openSection hm hd raw
  | closeSection => exact .closesSection
  | openPhp =>
    simp only [apply, openCode]
    split
    · exact move_opens hm (by simp) rfl _
    · exact .puts _
  | openRegister => exact .register hm
  | configureWrap | endWrap => exact .puts _

/-- **Every token makes a move.** -/
theorem feed_move (m : Machine) (token : Token) : Move m token (m.feed token) := by
  cases token with
  | text t => exact .puts _
  | directive d =>
    by_cases hm : m.stack.top? = some .register
    · by_cases hd : d.keyword = .closeRegister
      · have hfeed : m.feed (.directive d) = m.closes (· == .register) [] := by
          have hname : Keyword.ofName d.name = .closeRegister := hd
          simp [feed, directive, hname, apply]
        rw [hfeed]
        exact .closes (.inl rfl) (by decide)
      · rw [feed_in_register hm hd]
        exact .stays m _
    · rw [feed_directive hm]
      exact move_apply hm rfl _

end BladeView.Machine
