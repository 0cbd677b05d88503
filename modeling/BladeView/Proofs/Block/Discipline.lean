import BladeView.Proofs.Block.Additions

/-!
# The discipline of the frame stack

Which directives open a block and which close it is said here by two tables, apart from what the
machine does with them. A stretch of tokens is balanced if every block in it is closed by a
directive of its own kind. Balanced stretches leave the open blocks as they were and only add to
the output; a closing directive that does not fit the innermost block does nothing.
-/
namespace BladeView

open FrameKind (isBranch isSwitchGroup)
open Fragment (closeCase collect forOutput whileOutput)

variable {isOpen : Bool} {body names new : List Text} {m m₁ m₂ m' : Machine}

/-! ## Closing directives -/

namespace FrameKind

/-- The directives that close a block of a kind. The end of a switch closes its last branch too. -/
def closers : FrameKind → List String
  | conditional => ["endif"]
  | switch => ["endswitch"]
  | case => ["break", "endswitch"]
  | default => ["break", "endswitch"]
  | foreach => ["endforeach"]
  | .for => ["endfor"]
  | .while => ["endwhile"]
  | .section => ["endsection", "show", "stop", "overwrite", "append"]
  | block => ["endblock"]
  | php => ["endphp"]
  | register => ["endregister"]
  | wrapper => ["endwrapper"]
  | empty => ["endempty"]
  | isset => ["endisset"]
  | guard g => g.closers
  | follow => ["endfollow", "endwatch"]

/-- All kinds of blocks. -/
def all : List FrameKind :=
  [conditional, switch, case, default, foreach, .for, .while, .section, block, php, register,
   wrapper, empty, isset, guard .auth, guard .guest, guard .can, guard .cannot, guard .error,
   guard .hasSection, guard .negated, follow]

theorem mem_all (kind : FrameKind) : kind ∈ all := by
  cases kind with
  | guard g => cases g <;> decide
  | _ => decide

end FrameKind

namespace Directive

/-- The arguments of a directive as the machine reads them. -/
def arguments (d : Directive) : Text := Text.trim (d.args.getD [])

/-- What a directive asks for. -/
def keyword (d : Directive) : Keyword := Keyword.ofName d.name

/-- Whether a directive closes blocks of a kind. -/
def closes (d : Directive) (kind : FrameKind) : Bool :=
  kind.closers.any fun closer => closer.toList == d.name

/-- The directive closes some kind of block. -/
def IsClosing (d : Directive) : Prop := ∃ kind, d.closes kind = true

end Directive

namespace Keyword

/-- The kinds of blocks that a keyword closes when one is innermost. -/
def accepts : Keyword → FrameKind → Bool
  | closeIf, kind => kind == .conditional || kind == .guard .hasSection
  | closeIsset, kind => kind == .isset
  | closeEmpty, kind => kind == .empty
  | leaveCase, kind => kind.isBranch
  | closeSwitch, kind => kind.isSwitchGroup
  | closeForeach, kind => kind == .foreach
  | closeFor, kind => kind == .for
  | closeWhile, kind => kind == .while
  | closeSection, kind => kind == .section
  | closeBlock, kind => kind == .block
  | closeFollow, kind => kind == .follow
  | closePhp, kind => kind == .php
  | closeRegister, kind => kind == .register
  | closeWrapper, kind => kind == .wrapper
  | closeGuard name, kind => Machine.isGuardClosedBy name kind
  | _, _ => false

theorem eq_closeRegister_of_accepts {keyword : Keyword}
    (h : keyword.accepts .register = true) : keyword = closeRegister := by
  cases keyword with
  | closeRegister => rfl
  | _ => cases h

theorem eq_closeSwitch_of_accepts {keyword : Keyword} (h : keyword.accepts .switch = true) :
    keyword = closeSwitch := by
  cases keyword with
  | closeSwitch => rfl
  | _ => cases h

/-- Keywords that do nothing but close a block. -/
def isCloser : Keyword → Bool
  | closeIf | closeIsset | closeEmpty | leaveCase | closeSwitch | closeForeach | closeFor
  | closeWhile | closeSection | closeBlock | closeFollow | closePhp | closeRegister
  | closeWrapper | closeGuard _ => true
  | _ => false

/-- The names in the table of closing directives are read as keywords that close just the kinds
that list them. -/
theorem ofName_closer : ∀ kind ∈ FrameKind.all, ∀ closer ∈ kind.closers,
    (ofName closer.toList).isCloser = true ∧ ∀ other ∈ FrameKind.all,
      (ofName closer.toList).accepts other
        = other.closers.any fun name => name.toList == closer.toList := by
  decide +kernel

end Keyword

/-- Only the end of a register block is read as such. -/
theorem Keyword.eq_of_ofName_eq_closeRegister {name : Text} (h : ofName name = closeRegister) :
    name = "endregister".toList := by
  have hnames : ∀ entry ∈ names, entry.2 = closeRegister → entry.1 = "endregister" := by decide
  unfold ofName at h
  split at h
  case h_1 entry hfind =>
    have hname : entry.1.toList = name := by simpa using List.find?_some hfind
    rw [← hname, hnames entry (List.mem_of_find?_eq_some hfind) h]
  case h_2 => split at h <;> cases h

theorem Directive.keyword_ne_closeRegister {d : Directive} (h : d.closes .register = false) :
    d.keyword ≠ .closeRegister := by
  intro hkeyword
  have hname : d.name = "endregister".toList := Keyword.eq_of_ofName_eq_closeRegister hkeyword
  simp [Directive.closes, FrameKind.closers, hname] at h

theorem Directive.IsClosing.keyword {d : Directive} (h : d.IsClosing) :
    d.keyword.isCloser = true ∧ ∀ kind, d.keyword.accepts kind = d.closes kind := by
  obtain ⟨kind, hkind⟩ := h
  obtain ⟨closer, hmem, hname⟩ := List.any_eq_true.mp hkind
  have hname : closer.toList = d.name := by simpa using hname
  have hall := Keyword.ofName_closer kind kind.mem_all closer hmem
  rw [hname] at hall
  exact ⟨hall.1, fun other => hall.2 other other.mem_all⟩

namespace Machine

/-- Outside a register block a directive does what its keyword asks for. -/
theorem feed_directive (hm : m.stack.top? ≠ some .register) (d : Directive) :
    m.feed (.directive d) = m.apply d.raw d.arguments d.keyword := by
  have hin : m.isIn (· == .register) = false := by
    cases htop : m.stack.top? with
    | none => simp [isIn, htop]
    | some kind =>
      have hkind : kind ≠ .register := fun heq => hm (by rw [htop, heq])
      simp [isIn, htop, hkind]
  simp [feed, directive, hin, Directive.arguments, Directive.keyword]

/-- Inside a register block only its end is read. -/
theorem feed_in_register (hm : m.stack.top? = some .register) {d : Directive}
    (hd : d.keyword ≠ .closeRegister) : m.feed (.directive d) = m := by
  have hin : m.isIn (· == .register) = true := by simp [isIn, hm]
  have hkeyword : Keyword.ofName d.name ≠ .closeRegister := hd
  simp [feed, directive, hin, hkeyword]

theorem popIf_eq_none {s : FrameStack} {accept : FrameKind → Bool}
    (h : ∀ kind, s.top? = some kind → accept kind = false) : s.popIf accept = none := by
  cases s with
  | nil => rfl
  | cons frame outer =>
    have hframe : accept frame.kind = false := h frame.kind (by simp [FrameStack.top?])
    simp [FrameStack.popIf, hframe]

theorem closes_eq_self {accept : FrameKind → Bool}
    (h : ∀ kind, m.stack.top? = some kind → accept kind = false) (last : List Text) :
    m.closes accept last = m := by
  simp only [closes, popIf_eq_none h]

theorem closeLoop_eq_self {loop : FrameKind}
    (h : ∀ kind, m.stack.top? = some kind → (kind == loop) = false) (output : Text) :
    m.closeLoop loop output = m := by
  have hpop : m.stack.popIf (· == loop) = none := popIf_eq_none h
  simp only [closeLoop, hpop]

theorem closeSection_eq_self (h : ∀ kind, m.stack.top? = some kind → (kind == .section) = false) :
    m.closeSection = m := by
  have hpop : m.stack.popIf (· == .section) = none := popIf_eq_none h
  simp only [closeSection, hpop]

/-- A closing keyword that the innermost block does not accept does nothing. -/
theorem apply_eq_self {keyword : Keyword} (hcloser : keyword.isCloser = true)
    (h : ∀ kind, m.stack.top? = some kind → keyword.accepts kind = false) (raw args : Text) :
    m.apply raw args keyword = m := by
  cases keyword with
  | closeSwitch =>
    have hbranch : m.closes isBranch [closeCase] = m :=
      closes_eq_self (fun kind htop => by
        have hgroup := h kind htop
        cases kind <;> simp_all [Keyword.accepts, isBranch, isSwitchGroup]) _
    have hswitch : m.closes (· == .switch) [Fragment.closeSwitch] = m :=
      closes_eq_self (fun kind htop => by
        have hgroup := h kind htop
        cases kind <;> simp_all [Keyword.accepts, isSwitchGroup]) _
    simp only [apply, Machine.closeSwitch, hbranch, hswitch]
  | closeFor => exact closeLoop_eq_self h _
  | closeWhile => exact closeLoop_eq_self h _
  | closeSection => exact closeSection_eq_self h
  | closeIf | closeIsset | closeEmpty | leaveCase | closeForeach | closeBlock | closeFollow
  | closePhp | closeRegister | closeWrapper | closeGuard => exact closes_eq_self h _
  | _ => cases hcloser

/-- A closing directive that the innermost block does not accept does nothing. -/
theorem feed_closing_eq_self (m : Machine) {d : Directive} (hd : d.IsClosing)
    (h : ∀ kind, m.stack.top? = some kind → d.closes kind = false) :
    m.feed (.directive d) = m := by
  obtain ⟨hcloser, haccepts⟩ := hd.keyword
  by_cases hm : m.stack.top? = some .register
  · have hkeyword : d.keyword ≠ .closeRegister := by
      intro heq
      have hclosed := haccepts .register
      rw [h _ hm, heq] at hclosed
      exact absurd hclosed (by decide)
    exact feed_in_register hm hkeyword
  · rw [feed_directive hm]
    refine apply_eq_self hcloser (fun kind htop => ?_) _ _
    rw [haccepts, h kind htop]

end Machine

/-! ## Opening directives -/

/-- The kind of block that a directive opens. A section with a value, code on the directive's own
line, and a loop with a malformed header open none. -/
def Directive.opens? (d : Directive) : Option FrameKind :=
  match d.keyword with
  | .openIf => some .conditional
  | .openIsset => some .isset
  | .openEmpty => some .empty
  | .openGuard g => some (.guard g)
  | .openSwitch => some .switch
  | .openForeach => if (ForeachHeader.read? d.arguments).isSome then some .foreach else none
  | .openFor => some .for
  | .openWhile => some .while
  | .openSection =>
    if (TopLevel.split d.arguments).length = 1 then some .section else none
  | .openBlock => some .block
  | .openFollow => some .follow
  | .openPhp => if d.arguments.isEmpty then some .php else none
  | .openRegister => some .register
  | .openWrapper => some .wrapper
  | _ => none

/-- The lines of a closed block after its first one. -/
def FrameKind.finish : FrameKind → List Text → List Text
  | conditional, body | empty, body | isset, body | guard _, body =>
    body ++ Fragment.closeConditional
  | .for, body =>
    collect forOutput (body.filter fun line => !Text.isEmptyOrBlank line)
      ++ [Fragment.closeLoop forOutput]
  | .while, body =>
    collect whileOutput (body.filter fun line => !Text.isEmptyOrBlank line)
      ++ [Fragment.closeLoop whileOutput]
  | foreach, body | block, body | follow, body => body ++ [Fragment.closeBody]
  | .section, body => body ++ [Fragment.closeSection]
  | php, body => body ++ Fragment.closeCode
  | wrapper, body => body ++ [Fragment.closeWrapper]
  | switch, body | case, body | default, body | register, body => body

theorem FrameKind.finish_conditional {kind : FrameKind} (h : kind.isConditional = true) :
    kind ≠ .section ∧ kind.finish body = body ++ Fragment.closeConditional := by
  cases kind with
  | conditional | isset | empty | guard => exact ⟨by rintro ⟨⟩, rfl⟩
  | _ => cases h

/-- Directives that stand for themselves: another branch of a condition, the marks of a wrapped
view, and the forms of sections, code and loops that open no block. -/
def Directive.IsSingle (d : Directive) : Prop :=
  d.keyword ∈ [Keyword.elseIf, .otherwise, .configureWrap, .endWrap] ∨
    d.keyword ∈ [Keyword.openSection, .openPhp, .openForeach] ∧ d.opens? = none

/-- No directive opens a block that is a branch of a switch. -/
theorem Directive.isSwitchGroup_of_opens? {d : Directive} {kind : FrameKind}
    (h : d.opens? = some kind) (hkind : kind ≠ .switch) : kind.isSwitchGroup = false := by
  unfold opens? at h
  cases kind <;> simp_all [isSwitchGroup] <;> split at h <;> simp_all

namespace Machine

/-- A directive that opens a block puts its frame on the stack and one line out. -/
theorem opened_of_opens? (hm : m.stack.top? ≠ some .register) {d : Directive} {kind : FrameKind}
    (hd : d.opens? = some kind) (hkind : kind ≠ .register) :
    ∃ names line, Opened m (m.feed (.directive d)) kind names [line] ∧
      (kind = .section → ∃ name, names = [name]) ∧ (kind ≠ .section → names = []) := by
  rw [feed_directive hm]
  unfold Directive.opens? at hd
  cases hkeyword : d.keyword <;> simp only [hkeyword, reduceCtorEq, Option.some.injEq] at hd
  case openForeach =>
    obtain ⟨hheader, hd⟩ := Option.ite_none_right_eq_some.1 hd
    obtain ⟨header, hread⟩ := Option.isSome_iff_exists.mp hheader
    cases hd
    simp only [apply, openForeach, hread]
    exact ⟨[], _, Opened.opens _ _ _, by simp, by simp⟩
  case openSection =>
    obtain ⟨hsplit, hd⟩ := Option.ite_none_right_eq_some.1 hd
    obtain ⟨first, hfirst⟩ := List.length_eq_one_iff.mp hsplit
    cases hd
    simp only [apply, openSection, hfirst]
    exact ⟨[_], _, ⟨rfl, rfl, rfl, rfl, rfl⟩, by simp, by simp⟩
  case openPhp =>
    obtain ⟨hempty, hd⟩ := Option.ite_none_right_eq_some.1 hd
    cases hd
    simp only [apply, openCode, hempty, if_true]
    exact ⟨[], _, Opened.opens _ _ _, by simp, by simp⟩
  case openRegister => exact absurd hd.symm hkind
  all_goals
    subst hd
    exact ⟨[], _, Opened.opens _ _ _, by simp, by simp⟩

theorem adds_of_closes {kind : FrameKind} {line : Text} (hopened : Opened m m₁ kind names [line])
    (hbody : Adds m₁ m₂ body) (hother : kind ≠ .section → names = []) {accept : FrameKind → Bool}
    (haccept : accept kind = true) (last : List Text)
    (hlast : kind ≠ .section ∧ kind.finish body = body ++ last) :
    Adds m (m₂.closes accept last) (line :: kind.finish body) := by
  cases hother hlast.1
  rw [hlast.2]
  simpa using hopened.closes hbody haccept last

/-- A closing keyword that the block accepts turns the block into an addition. A switch and its
branches are left to `InSwitch`. -/
theorem adds_of_accepts {kind : FrameKind} {line : Text} (hopened : Opened m m₁ kind names [line])
    (hbody : Adds m₁ m₂ body) (hsection : kind = .section → ∃ name, names = [name])
    (hother : kind ≠ .section → names = []) (hkind : kind.isSwitchGroup = false)
    {keyword : Keyword} (haccepts : keyword.accepts kind = true) (raw args : Text) :
    Adds m (m₂.apply raw args keyword) (line :: kind.finish body) := by
  cases keyword with
  | closeSection =>
    obtain rfl := eq_of_beq haccepts
    obtain ⟨name, rfl⟩ := hsection rfl
    simpa [apply, FrameKind.finish] using hopened.closeSection hbody
  | closeFor =>
    obtain rfl := eq_of_beq haccepts
    cases hother (by decide)
    simpa [apply, FrameKind.finish] using hopened.closeLoop hbody forOutput
  | closeWhile =>
    obtain rfl := eq_of_beq haccepts
    cases hother (by decide)
    simpa [apply, FrameKind.finish] using hopened.closeLoop hbody whileOutput
  | leaveCase => cases kind <;> simp_all [Keyword.accepts, isBranch,
      isSwitchGroup]
  | closeSwitch => simp [Keyword.accepts, hkind] at haccepts
  | closeIf | closeIsset | closeEmpty | closeGuard =>
    have hconditional : kind.isConditional = true := by
      cases kind with
      | conditional | isset | empty | guard => rfl
      | _ => cases haccepts
    exact adds_of_closes hopened hbody hother haccepts _ (FrameKind.finish_conditional hconditional)
  | closeForeach | closeBlock | closeFollow | closePhp | closeWrapper =>
    obtain rfl := eq_of_beq haccepts
    exact adds_of_closes hopened hbody hother haccepts _ ⟨by decide, rfl⟩
  | closeRegister =>
    obtain rfl := eq_of_beq haccepts
    exact adds_of_closes hopened hbody hother haccepts _ ⟨by decide, (List.append_nil body).symm⟩
  | _ => cases haccepts

/-- A block whose body only adds something only adds something: its first line, and what its kind
makes of the body. -/
theorem adds_block (hm : m.stack.top? ≠ some .register) {opener closer : Directive}
    {kind : FrameKind} (hopens : opener.opens? = some kind) (hswitch : kind ≠ .switch)
    (hregister : kind ≠ .register) (hcloses : closer.closes kind = true) {body : List Token}
    {inside : List Text}
    (hinside : Adds (m.feed (.directive opener)) ((m.feed (.directive opener)).feedAll body)
      inside) :
    ∃ line, (m.feed (.directive opener)).lines = m.lines ++ [line] ∧
      Adds m (m.feedAll (.directive opener :: (body ++ [.directive closer])))
        (line :: kind.finish inside) := by
  obtain ⟨names, line, hopened, hsection, hother⟩ := opened_of_opens? hm hopens hregister
  have htop : (m.feed (.directive opener)).stack.top? ≠ some .register := by
    rw [hopened.top]
    exact fun heq => hregister (Option.some.inj heq)
  obtain ⟨-, haccepts⟩ := Directive.IsClosing.keyword ⟨kind, hcloses⟩
  refine ⟨line, hopened.lines, ?_⟩
  rw [feedAll_cons, feedAll_append, feedAll_cons, feedAll_nil,
    feed_directive (by rw [hinside.stack]; exact htop)]
  exact adds_of_accepts hopened hinside hsection hother
    (Directive.isSwitchGroup_of_opens? hopens hswitch) ((haccepts kind).trans hcloses) _ _

/-- A directive that stands for itself only adds to the output and the sections. -/
theorem adds_of_isSingle (hm : m.stack.top? ≠ some .register) {d : Directive} (hd : d.IsSingle) :
    ∃ new, Adds m (m.feed (.directive d)) new := by
  have hbranch : ∀ line, ∃ new, Adds m (m.branch line) new := by
    intro line
    unfold branch
    split
    · exact ⟨_, Adds.emit m _⟩
    · exact ⟨_, Adds.refl m⟩
  rw [feed_directive hm]
  rcases hd with hmem | ⟨hmem, hnone⟩
  · simp only [List.mem_cons, List.not_mem_nil, or_false] at hmem
    rcases hmem with hk | hk | hk | hk <;> simp only [hk, apply]
    · exact hbranch _
    · exact hbranch _
    · exact ⟨_, Adds.emit m _⟩
    · exact ⟨_, Adds.emit m _⟩
  · simp only [List.mem_cons, List.not_mem_nil, or_false] at hmem
    rcases hmem with hk | hk | hk <;> simp only [Directive.opens?, hk, apply] at hnone ⊢
    · unfold openSection
      split
      · exact ⟨_, Adds.text m _⟩
      next first heq => simp [heq] at hnone
      · exact ⟨_, ⟨rfl, rfl, rfl, rfl, List.prefix_append _ _⟩⟩
    · have hargs : d.arguments.isEmpty = false := by simpa using hnone
      simp only [openCode, hargs, Bool.false_eq_true, if_false]
      exact ⟨_, Adds.emit m _⟩
    · have hheader : ForeachHeader.read? d.arguments = none := by simpa using hnone
      simp only [openForeach, hheader]
      exact ⟨_, Adds.text m _⟩

end Machine

/-! ## Balanced stretches -/

/-- A branch of a switch: the directive that opens it, its body, and maybe a break with what comes
after it. -/
structure SwitchBranch where
  head : Directive
  body : List Token
  leave : Option Directive
  gap : List Token := []

namespace SwitchBranch

/-- The tokens of a branch. -/
def tokens (b : SwitchBranch) : List Token :=
  .directive b.head :: (b.body ++
    match b.leave with
    | some d => .directive d :: b.gap
    | none => [])

/-- The directives of a branch are what they should be. -/
def IsWellFormed (b : SwitchBranch) : Prop :=
  b.head.keyword ∈ [Keyword.openCase, .openDefault] ∧ ∀ d ∈ b.leave, d.keyword = .leaveCase

end SwitchBranch

/-- The stretches of tokens in which every block is closed by a directive for its kind. -/
inductive Balanced : List Token → Prop
  | nil : Balanced []
  | text (t : Text) : Balanced [.text t]
  | single {d : Directive} : d.IsSingle → Balanced [.directive d]
  | append {tokens more : List Token} : Balanced tokens → Balanced more →
      Balanced (tokens ++ more)
  | block {opener closer : Directive} {kind : FrameKind} {body : List Token} :
      opener.opens? = some kind → kind ≠ .switch → kind ≠ .register → Balanced body →
      closer.closes kind = true → Balanced (.directive opener :: (body ++ [.directive closer]))
  | register {opener closer : Directive} {body : List Token} :
      opener.opens? = some .register → (∀ d, .directive d ∈ body → d.closes .register = false) →
      closer.closes .register = true →
      Balanced (.directive opener :: (body ++ [.directive closer]))
  | switch {opener closer : Directive} {gap : List Token} {branches : List SwitchBranch} :
      opener.opens? = some .switch → Balanced gap → (∀ b ∈ branches, b.IsWellFormed) →
      (∀ b ∈ branches, Balanced b.body) → (∀ b ∈ branches, Balanced b.gap) →
      closer.closes .switch = true →
      Balanced (.directive opener :: (gap ++ branches.flatMap SwitchBranch.tokens
        ++ [.directive closer]))

namespace Machine

/-- The line of a branch comes after the end of the branch before it. -/
theorem InSwitch.feed_head (h : InSwitch m₁ m' new isOpen) (htop : m₁.stack.top? = some .switch)
    {d : Directive} (hd : d.keyword ∈ [Keyword.openCase, .openDefault]) :
    ∃ line ∈ [Fragment.openCase (m'.convert d.arguments), Fragment.openDefault],
      InSwitch m₁ (m'.feed (.directive d))
        (new ++ (if isOpen then [closeCase] else []) ++ [line]) true := by
  rw [feed_directive (h.top_ne htop)]
  simp only [List.mem_cons, List.not_mem_nil, or_false] at hd
  rcases hd with hk | hk <;> rw [hk]
  · exact ⟨_, by simp, h.openBranch htop rfl _⟩
  · exact ⟨_, by simp, h.openBranch htop rfl _⟩

/-- A break closes the open branch. -/
theorem InSwitch.feed_leave (h : InSwitch m₁ m' new isOpen) (htop : m₁.stack.top? = some .switch)
    {d : Directive} (hd : d.keyword = .leaveCase) :
    Adds m₁ (m'.feed (.directive d)) (new ++ if isOpen then [Fragment.leaveCase] else []) := by
  rw [feed_directive (h.top_ne htop), hd]
  exact h.closes htop [Fragment.leaveCase]

theorem InSwitch.feed_closer {first : List Text} (h : InSwitch m₁ m' new isOpen)
    (hopened : Opened m m₁ .switch [] first) {closer : Directive}
    (hcloses : closer.closes .switch = true) :
    Adds m (m'.feed (.directive closer))
      (first ++ (new ++ if isOpen then [closeCase] else [])
        ++ [Fragment.closeSwitch]) := by
  obtain ⟨-, haccepts⟩ := Directive.IsClosing.keyword ⟨.switch, hcloses⟩
  have hend : closer.keyword = .closeSwitch :=
    Keyword.eq_closeSwitch_of_accepts ((haccepts .switch).trans hcloses)
  rw [feed_directive (h.top_ne hopened.top), hend]
  exact h.closeSwitch hopened

/-- One branch of a switch. What comes after its body depends on whether a break closes it. -/
theorem InSwitch.feed_branch {B G : List Text → Prop} (h : InSwitch m₁ m' new isOpen)
    (htop : m₁.stack.top? = some .switch) {b : SwitchBranch} (hb : b.IsWellFormed)
    (hbody : ∀ m : Machine, m.isIn isBranch = true →
      ∃ body, Adds m (m.feedAll b.body) body ∧ B body)
    (hgap : ∀ m : Machine, m.stack.top? = some .switch →
      ∃ gap, Adds m (m.feedAll b.gap) gap ∧ G gap) :
    ∃ line ∈ [Fragment.openCase (m'.convert b.head.arguments), Fragment.openDefault],
      ∃ body ending isOpen', B body ∧
        (isOpen' = true ∧ ending = [] ∨
          isOpen' = false ∧ ∃ gap, G gap ∧ ending = Fragment.leaveCase :: gap) ∧
        InSwitch m₁ (m'.feedAll b.tokens)
          (new ++ (if isOpen then [closeCase] else []) ++ [line] ++ body ++ ending)
          isOpen' := by
  obtain ⟨line, hline, hopened⟩ := h.feed_head htop hb.1
  obtain ⟨body, hadds, hB⟩ := hbody _ hopened.isIn_branch
  have hinside := hopened.adds hadds
  refine ⟨line, hline, body, ?_⟩
  cases hl : b.leave with
  | none => exact ⟨[], true, hB, .inl ⟨rfl, rfl⟩, by simpa [SwitchBranch.tokens, hl] using hinside⟩
  | some d =>
    have hleft := hinside.feed_leave htop (hb.2 d hl)
    obtain ⟨gap, hafter, hG⟩ := hgap _ (hleft.stack ▸ htop)
    have hbetween := InSwitch.between (hleft.trans hafter)
    exact ⟨_, false, hB, .inr ⟨rfl, gap, hG, rfl⟩,
      by simpa [SwitchBranch.tokens, hl] using hbetween⟩

/-- What every stretch of some tokens keeps is kept by all of them together. -/
theorem feedAll_flatMap {α : Type} {Q : Machine → Prop} {f : α → List Token} {parts : List α}
    (hstep : ∀ part ∈ parts, ∀ m, Q m → Q (m.feedAll (f part))) (hm : Q m) :
    Q (m.feedAll (parts.flatMap f)) := by
  induction parts generalizing m with
  | nil => exact hm
  | cons part parts ih =>
    rw [List.flatMap_cons, feedAll_append]
    exact ih (fun later hlater => hstep later (List.mem_cons_of_mem _ hlater))
      (hstep part List.mem_cons_self m hm)

/-- The branches of a switch stay inside it. -/
theorem inSwitch_branches (htop : m₁.stack.top? = some .switch) {branches : List SwitchBranch}
    (hwell : ∀ b ∈ branches, b.IsWellFormed)
    (hbody : ∀ b ∈ branches, ∀ m : Machine, m.stack.top? ≠ some .register →
      ∃ new, Adds m (m.feedAll b.body) new)
    (hgap : ∀ b ∈ branches, ∀ m : Machine, m.stack.top? ≠ some .register →
      ∃ new, Adds m (m.feedAll b.gap) new) (h : InSwitch m₁ m' new isOpen) :
    ∃ new' isOpen',
      InSwitch m₁ (m'.feedAll (branches.flatMap SwitchBranch.tokens)) new' isOpen' := by
  refine feedAll_flatMap (Q := fun m' => ∃ new isOpen, InSwitch m₁ m' new isOpen) ?_ ⟨_, _, h⟩
  rintro b hb m' ⟨new, isOpen, h⟩
  obtain ⟨_, -, _, _, isOpen', -, -, hinside⟩ :=
    h.feed_branch (B := fun _ => True) (G := fun _ => True) htop (hwell b hb)
      (fun m hm => (hbody b hb m fun heq => by simp [isIn, heq, isBranch] at hm).imp
        fun _ hadds => ⟨hadds, trivial⟩)
      (fun m hm => (hgap b hb m (by simp [hm])).imp fun _ hadds => ⟨hadds, trivial⟩)
  exact ⟨_, isOpen', hinside⟩

/-- Inside a register block everything but its end is left out. -/
theorem feedAll_in_register (hm : m.stack.top? = some .register) {tokens : List Token}
    (h : ∀ d, .directive d ∈ tokens → d.keyword ≠ .closeRegister) :
    m.feedAll tokens = m := by
  induction tokens with
  | nil => rfl
  | cons token tokens ih =>
    have hfeed : m.feed token = m := by
      cases token with
      | text t => simp [feed, Machine.text, hm, textLines, emit]
      | directive d => exact feed_in_register hm (h d (by simp))
    rw [feedAll_cons, hfeed]
    exact ih fun d hd => h d (by simp [hd])

/-- A balanced stretch of tokens only adds to the output and the sections. -/
theorem adds_of_balanced {tokens : List Token} (h : Balanced tokens)
    (hm : m.stack.top? ≠ some .register) : ∃ new, Adds m (m.feedAll tokens) new := by
  induction h generalizing m with
  | nil => exact ⟨[], Adds.refl m⟩
  | text t => exact ⟨_, Adds.text m t⟩
  | single hd => exact adds_of_isSingle hm hd
  | append _ _ ih ih' =>
    obtain ⟨new, hnew⟩ := ih hm
    obtain ⟨more, hmore⟩ := ih' (by rw [hnew.stack]; exact hm)
    exact ⟨new ++ more, by simpa using hnew.trans hmore⟩
  | @block opener closer kind body hopens hswitch hregister _ hcloses ih =>
    obtain ⟨names, first, hopened, -, -⟩ := opened_of_opens? hm hopens hregister
    obtain ⟨inside, hinside⟩ := ih (m := m.feed (.directive opener)) (by
      rw [hopened.top]
      exact fun heq => hregister (Option.some.inj heq))
    obtain ⟨line, -, hadds⟩ := adds_block hm hopens hswitch hregister hcloses hinside
    exact ⟨_, hadds⟩
  | @register opener closer body hopens hbody hcloses =>
    have hkeyword : opener.keyword = .openRegister := by
      unfold Directive.opens? at hopens
      split at hopens <;> simp_all
    have hopened : Opened m (m.feed (.directive opener)) .register [] [] := by
      rw [feed_directive hm, hkeyword]
      exact ⟨rfl, rfl, rfl, by simp [apply], rfl⟩
    have hskip : (m.feed (.directive opener)).feedAll body = m.feed (.directive opener) :=
      feedAll_in_register hopened.top fun d hd => d.keyword_ne_closeRegister (hbody d hd)
    obtain ⟨-, haccepts⟩ := Directive.IsClosing.keyword ⟨.register, hcloses⟩
    have hname : Keyword.ofName closer.name = .closeRegister :=
      Keyword.eq_closeRegister_of_accepts ((haccepts .register).trans hcloses)
    rw [feedAll_cons, feedAll_append, hskip]
    have hclosed : Adds m ((m.feed (.directive opener)).closes (· == .register) []) [] :=
      hopened.closes (Adds.refl _) rfl []
    refine ⟨[], ?_⟩
    simpa [feed, directive, hname, apply] using hclosed
  | @switch opener closer gap branches hopens _ hwell _ _ hcloses ihgap ihbody ihgaps =>
    obtain ⟨names, line, hopened, -, hother⟩ := opened_of_opens? hm hopens (by decide)
    cases hother (by decide)
    obtain ⟨before, hbefore⟩ := ihgap (m := m.feed (.directive opener)) (by simp [hopened.top])
    obtain ⟨new, isOpen, hinside⟩ := inSwitch_branches hopened.top hwell
      (fun b hb m hm => ihbody b hb hm) (fun b hb m hm => ihgaps b hb hm)
      (InSwitch.between hbefore)
    rw [feedAll_cons, feedAll_append, feedAll_append, feedAll_cons, feedAll_nil]
    exact ⟨_, hinside.feed_closer hopened hcloses⟩

/-- **The discipline of the frame stack**, from any state of the machine. A balanced stretch that
does not start inside a register block leaves the open blocks and the open sections as they were,
and the lines and sections from before it stay where they are. So nothing is left open at the end
of a balanced body. A closing directive that does not fit the innermost block does nothing. -/
theorem stack_discipline (m : Machine) :
    (∀ tokens, Balanced tokens → m.stack.top? ≠ some .register →
      (m.feedAll tokens).stack = m.stack ∧ (m.feedAll tokens).openSections = m.openSections ∧
        m.lines <+: (m.feedAll tokens).lines ∧ m.sections <+: (m.feedAll tokens).sections) ∧
    (∀ tokens, Balanced tokens → (run m.bindings tokens).stack.length = 0) ∧
    (∀ d : Directive, d.IsClosing →
      (∀ kind, m.stack.top? = some kind → d.closes kind = false) → m.feed (.directive d) = m) := by
  refine ⟨fun tokens h hm => ?_, fun tokens h => ?_, fun d hd h => feed_closing_eq_self m hd h⟩
  · obtain ⟨new, hadds⟩ := adds_of_balanced h hm
    exact ⟨hadds.stack, hadds.openSections, hadds.lines ▸ List.prefix_append _ _, hadds.sections⟩
  · obtain ⟨new, hadds⟩ := adds_of_balanced h (m := start m.bindings) (by simp [start,
      FrameStack.top?])
    rw [run_eq_feedAll, hadds.stack]
    rfl

/-- A switch in a condition is balanced; inside the condition the end of a loop does nothing. -/
theorem stack_discipline_switch_in_condition :
    let condition : Directive := ⟨"if", some "$a", "@if($a)"⟩
    let choice : SwitchBranch :=
      ⟨⟨"case", some "'b'", "@case('b')"⟩, [.text "c"], some ⟨"break", none, "@break"⟩, []⟩
    let inside : List Token := [.directive ⟨"switch", some "$x", "@switch($x)"⟩] ++
      choice.tokens ++ [.directive ⟨"endswitch", none, "@endswitch"⟩]
    let tokens : List Token :=
      [.directive condition] ++ inside ++ [.directive ⟨"endif", none, "@endif"⟩]
    let m := start Bindings.empty
    let opened := m.feed (.directive condition)
    (m.feedAll tokens).stack = m.stack ∧ (run m.bindings tokens).stack.length = 0 ∧
      opened.feed (.directive ⟨"endfor", none, "@endfor"⟩) = opened := by
  intro condition choice inside tokens m opened
  have hinside : Balanced inside := by
    have hbranch : ∀ b ∈ [choice], b.IsWellFormed ∧ Balanced b.body ∧ Balanced b.gap := by
      simp only [List.mem_singleton, forall_eq]
      exact ⟨⟨by decide, by rintro d ⟨⟩; rfl⟩, .text "c", .nil⟩
    exact @Balanced.switch _ _ [] [choice] rfl .nil (fun b hb => (hbranch b hb).1)
      (fun b hb => (hbranch b hb).2.1) (fun b hb => (hbranch b hb).2.2) rfl
  have htokens : Balanced tokens :=
    @Balanced.block condition _ .conditional inside rfl (by decide) (by decide) hinside rfl
  refine ⟨((stack_discipline m).1 tokens htokens (by decide)).1,
    (stack_discipline m).2.1 tokens htokens, (stack_discipline opened).2.2 _ ⟨.for, rfl⟩ ?_⟩
  intro kind hkind
  obtain rfl : FrameKind.conditional = kind := Option.some.inj hkind
  rfl

end Machine
end BladeView
