import BladeView.Proofs.Block.Move
import Mathlib.Data.List.Induction

/-!
# The open blocks of a run

Tokens may come in any order: blocks may stay open, and directives may close nothing. Whatever the
tokens are, the frames on the stack and the names of the open sections are those of blocks that were
opened one after another, and the line that opened a block still stands where it was put out. So
the lines that a closing loop or section takes are the lines since it was opened, and the name of a
section is the one it was opened with.

`Holds` says what the machine remembers of some open blocks. A token keeps some of the outer blocks
(`Shrinks`), and may open one more (`Opens`); nothing else is used of the machine.
-/
namespace BladeView

open FrameStack (popIf popIf_eq_some)
open List (getElem?_append_left map_cons mem_cons suffix_cons suffix_rfl)

/-- An open block: its frame, the line that opened it, and the name of a section. A register block
is opened without a line. -/
structure OpenBlock where
  frame : Frame
  line : Text
  name : Option Text
  isSome_name : name.isSome = (frame.kind == .section)

namespace OpenBlock

/-- How a block lies inside the blocks around it: it was opened after all of them, none of them is a
register block, and a branch lies directly inside a switch. -/
structure Inside (block : OpenBlock) (outer : List OpenBlock) : Prop where
  later : ∀ around ∈ outer, around.frame.opened < block.frame.opened
  noRegister : ∀ around ∈ outer, around.frame.kind ≠ .register
  inSwitch : block.frame.kind.isBranch = true →
    FrameStack.top? (outer.map (·.frame)) = some .switch

end OpenBlock

namespace Machine

/-- The machine remembers these open blocks, the innermost first. -/
structure Holds (m : Machine) (blocks : List OpenBlock) : Prop where
  stack : m.stack = blocks.map (·.frame)
  names : m.openSections = blocks.filterMap (·.name)
  inside : ∀ block outer, block :: outer <:+ blocks → block.Inside outer
  standing : ∀ block ∈ blocks, block.frame.kind ≠ .register →
    m.lines[block.frame.opened]? = some block.line

theorem holds_start (b : Bindings) : (start b).Holds [] where
  stack := rfl
  names := rfl
  inside := by simp
  standing := nofun

namespace Holds

variable {m m' : Machine} {blocks kept : List OpenBlock}

theorem top (h : m.Holds blocks) : m.stack.top? = blocks.head?.map (·.frame.kind) := by
  rw [h.stack]
  cases blocks <;> rfl

theorem opened_lt (h : m.Holds blocks) {block : OpenBlock} (hmem : block ∈ blocks)
    (hkind : block.frame.kind ≠ .register) : block.frame.opened < m.lines.length :=
  (List.getElem?_eq_some_iff.mp (h.standing block hmem hkind)).1

/-- The outer blocks are still there if the lines that opened them are. -/
theorem keep (h : m.Holds blocks) (hkept : kept <:+ blocks)
    (hstack : m'.stack = kept.map (·.frame)) (hnames : m'.openSections = kept.filterMap (·.name))
    (hlines : ∀ block ∈ kept, block.frame.opened < m.lines.length →
      m'.lines[block.frame.opened]? = m.lines[block.frame.opened]?) : m'.Holds kept where
  stack := hstack
  names := hnames
  inside := fun block outer hsuffix => h.inside block outer (hsuffix.trans hkept)
  standing := by
    intro block hmem hkind
    have hmem' : block ∈ blocks := hkept.subset hmem
    rw [hlines block hmem (h.opened_lt hmem' hkind)]
    exact h.standing block hmem' hkind

/-- The frame on top belongs to the innermost block. -/
theorem eq_cons (h : m.Holds blocks) {frame : Frame} {outer : FrameStack}
    (hstack : m.stack = frame :: outer) :
    ∃ block rest, blocks = block :: rest ∧ block.frame = frame ∧ rest.map (·.frame) = outer := by
  cases blocks with
  | nil => simp [h.stack] at hstack
  | cons block rest =>
    have heq := h.stack.symm.trans hstack
    simp only [map_cons, List.cons.injEq] at heq
    exact ⟨block, rest, rfl, heq.1, heq.2⟩

/-- Only the innermost block may be a register block. -/
theorem ne_register (h : m.Holds blocks) (hm : m.stack.top? ≠ some .register) :
    ∀ block ∈ blocks, block.frame.kind ≠ .register := by
  cases blocks with
  | nil => nofun
  | cons first rest =>
    intro block hmem
    rcases mem_cons.mp hmem with rfl | hmem
    · exact fun heq => hm (by simp [h.top, heq])
    · exact (h.inside first rest suffix_rfl).noRegister block hmem

/-- A new block lies inside all the others. -/
theorem push (h : m.Holds blocks) (hm : m.stack.top? ≠ some .register) (block : OpenBlock)
    {new : List Text} (hopened : Opened m m' block.frame.kind block.name.toList new)
    (hframe : block.frame.opened = m.lines.length)
    (hline : block.frame.kind ≠ .register → new.head? = some block.line)
    (hbranch : block.frame.kind.isBranch = true → m.stack.top? = some .switch) :
    m'.Holds (block :: blocks) := by
  have hregister := h.ne_register hm
  refine ⟨?_, ?_, ?_, ?_⟩
  · rw [hopened.stack, ← hframe, h.stack]
    rfl
  · rw [hopened.openSections, h.names]
    cases hname : block.name <;> simp [hname]
  · intro inner outer hsuffix
    rcases List.suffix_cons_iff.mp hsuffix with heq | hsuffix
    · obtain ⟨rfl, rfl⟩ := List.cons.inj heq
      refine ⟨fun around hmem => ?_, hregister, fun hkind => ?_⟩
      · rw [hframe]
        exact h.opened_lt hmem (hregister around hmem)
      · rw [← h.stack]
        exact hbranch hkind
    · exact h.inside inner outer hsuffix
  · intro inner hmem hkind
    rw [hopened.lines]
    rcases mem_cons.mp hmem with rfl | hmem
    · rw [hframe, List.getElem?_append_right (Nat.le_refl _), Nat.sub_self,
        ← List.head?_eq_getElem?]
      exact hline hkind
    · rw [getElem?_append_left (h.opened_lt hmem hkind)]
      exact h.standing inner hmem hkind

end Holds

/-! ## Steps that open no block -/

/-- The blocks of `m'` are the outer ones of `m`. -/
def Shrinks (m m' : Machine) : Prop :=
  ∀ blocks, m.Holds blocks → ∃ kept, kept <:+ blocks ∧ m'.Holds kept

namespace Shrinks

variable {m m₁ m₂ : Machine}

theorem refl (m : Machine) : Shrinks m m := fun blocks h => ⟨blocks, suffix_rfl, h⟩

theorem trans (h : Shrinks m m₁) (h' : Shrinks m₁ m₂) : Shrinks m m₂ := by
  intro blocks hblocks
  obtain ⟨kept, hkept, hholds⟩ := h blocks hblocks
  obtain ⟨kept', hkept', hholds'⟩ := h' kept hholds
  exact ⟨kept', hkept'.trans hkept, hholds'⟩

/-- What only adds to the output keeps all blocks. -/
theorem of_adds {new : List Text} (h : Adds m m₁ new) : Shrinks m m₁ := by
  intro blocks hblocks
  refine ⟨blocks, suffix_rfl, hblocks.keep suffix_rfl ?_ ?_ fun block _ hlt => ?_⟩
  · rw [h.stack, hblocks.stack]
  · rw [h.openSections, hblocks.names]
  · rw [h.lines, getElem?_append_left hlt]

/-- The innermost block is closed, and no line before the one that opened it is changed. -/
theorem of_pop {accept : FrameKind → Bool} {frame : Frame} {outer : FrameStack}
    (hpop : m.stack.popIf accept = some (frame, outer)) (hstack : m₁.stack = outer)
    (hnames : m₁.openSections =
      if frame.kind = .section then m.openSections.tail else m.openSections)
    (hlines : ∀ n < frame.opened, n < m.lines.length → m₁.lines[n]? = m.lines[n]?) :
    Shrinks m m₁ := by
  intro blocks hblocks
  obtain ⟨block, rest, rfl, rfl, rfl⟩ := hblocks.eq_cons (popIf_eq_some hpop).1
  refine ⟨rest, suffix_cons _ _, hblocks.keep (suffix_cons _ _) hstack ?_ ?_⟩
  · have hname := block.isSome_name
    rw [hnames, hblocks.names]
    split
    case isTrue hkind =>
      rw [hkind, beq_self_eq_true, Option.isSome_iff_exists] at hname
      obtain ⟨name, hname⟩ := hname
      simp [hname]
    case isFalse hkind =>
      rw [beq_false_of_ne hkind, Option.isSome_eq_false_iff, Option.isNone_iff_eq_none] at hname
      simp [hname]
  · exact fun around hmem =>
      hlines _ ((hblocks.inside block rest suffix_rfl).later around hmem)

theorem closes {accept : FrameKind → Bool} (haccept : accept .section = false)
    (last : List Text) : Shrinks m (m.closes accept last) := by
  unfold Machine.closes
  cases hpop : m.stack.popIf accept with
  | none => exact refl m
  | some popped =>
    have hsection : popped.1.kind ≠ .section := by
      intro heq
      have hkind := (popIf_eq_some hpop).2
      rw [heq, haccept] at hkind
      cases hkind
    exact of_pop hpop rfl (if_neg hsection).symm fun _ _ hlt => getElem?_append_left hlt

/-- A loop takes lines that come after those that opened the blocks around it. -/
theorem closeLoop {kind : FrameKind} (hkind : kind ≠ .section) (output : Text) :
    Shrinks m (m.closeLoop kind output) := by
  unfold Machine.closeLoop
  cases hpop : m.stack.popIf (· == kind) with
  | none => exact refl m
  | some popped =>
    have hloop : popped.1.kind = kind := eq_of_beq (popIf_eq_some hpop).2
    refine of_pop hpop rfl (if_neg (hloop ▸ hkind)).symm fun n hn hlt => ?_
    have htake : n < (m.lines.take (popped.1.opened + 1)).length := by
      rw [List.length_take]
      omega
    simp only [List.append_assoc]
    rw [getElem?_append_left htake, List.getElem?_take_of_lt (by omega)]

theorem closeSection : Shrinks m m.closeSection := by
  unfold Machine.closeSection
  cases hpop : m.stack.popIf (· == .section) with
  | none => exact refl m
  | some popped =>
    have hkind : popped.1.kind = .section := eq_of_beq (popIf_eq_some hpop).2
    exact of_pop hpop rfl (if_pos hkind).symm fun _ _ hlt => getElem?_append_left hlt

theorem of_endsBranch (h : EndsBranch m m₁) : Shrinks m m₁ := by
  rcases h with rfl | rfl
  · exact refl m₁
  · exact closes rfl _

end Shrinks

/-! ## Steps that open a block -/

/-- `m'` has kept outer blocks of `m` and opened one more, with the last line that it put out. -/
structure Opens (m m' : Machine) (block : OpenBlock) : Prop where
  fresh : m.lines.length ≤ block.frame.opened
  emitted : block.frame.kind ≠ .register →
    ∃ earlier, m'.lines = earlier ++ [block.line] ∧ earlier.length = block.frame.opened
  holds : ∀ blocks, m.Holds blocks → ∃ kept, kept <:+ blocks ∧ m'.Holds (block :: kept)

namespace Opens

variable {m m₁ m' : Machine} {kind : FrameKind} {line : Text}

theorem of_opened {name : Option Text} (hshrinks : Shrinks m m₁)
    (hlength : m.lines.length ≤ m₁.lines.length) (hm : m₁.stack.top? ≠ some .register)
    (hopened : Opened m₁ m' kind name.toList [line]) (hname : name.isSome = (kind == .section))
    (hbranch : kind.isBranch = true → m₁.stack.top? = some .switch) :
    Opens m m' ⟨⟨kind, m₁.lines.length⟩, line, name, hname⟩ where
  fresh := hlength
  emitted := fun _ => ⟨m₁.lines, hopened.lines, rfl⟩
  holds := by
    intro blocks hblocks
    obtain ⟨kept, hkept, hholds⟩ := hshrinks blocks hblocks
    exact ⟨kept, hkept, hholds.push hm _ hopened rfl (fun _ => rfl) hbranch⟩

theorem register (hm : m.stack.top? ≠ some .register) :
    Opens m { m with stack := m.stack.push .register m.lines.length }
      ⟨⟨.register, m.lines.length⟩, [], none, rfl⟩ where
  fresh := Nat.le_refl _
  emitted := fun hkind => absurd rfl hkind
  holds := by
    intro blocks hblocks
    exact ⟨blocks, suffix_rfl,
      hblocks.push hm _ (opened_register m) rfl (fun hkind => absurd rfl hkind) nofun⟩

end Opens

/-- A section was opened with the line and the name that its directive's arguments ask for. -/
def GivesName (m : Machine) (args : Text) (block : OpenBlock) : Prop :=
  block.frame.kind = .section → ∃ first, TopLevel.split args = [first] ∧
    block.name = some (m.sectionName first).1 ∧
    block.line = Fragment.openSection (m.sectionName first).2

/-- **What a token does to the open blocks**: it opens one, or it keeps some of the outer ones. Only
the directive of sections opens a section. -/
theorem feed_cases (m : Machine) (token : Token) :
    Shrinks m (m.feed token) ∨
      ∃ d block, token = .directive d ∧ Opens m (m.feed token) block ∧
        m.GivesName d.arguments block ∧
        (block.frame.kind = .section → d.keyword = .openSection) := by
  have hmove := feed_move m token
  generalize m.feed token = m' at hmove ⊢
  cases hmove with
  | puts new => exact .inl (.of_adds (Adds.emit m new))
  | short => exact .inl (.of_adds ⟨rfl, rfl, rfl, rfl, List.prefix_append _ _⟩)
  | @long d first hm hd hsplit =>
    exact .inr ⟨d, _, rfl, @Opens.of_opened m m _ _ _ (some (m.sectionName first).1) (.refl m)
      (Nat.le_refl _) hm (opened_openLong m first) rfl nofun,
      fun _ => ⟨first, hsplit, rfl, rfl⟩, fun _ => hd⟩
  | register hm => exact .inr ⟨_, _, rfl, .register hm, nofun, nofun⟩
  | @opens d m₁ kind line hends hm hsection hbranch =>
    exact .inr ⟨d, _, rfl, @Opens.of_opened m m₁ _ _ _ none (.of_endsBranch hends) hends.length_le
      hm (Opened.opens m₁ kind line) (beq_false_of_ne hsection).symm hbranch,
      fun h => absurd h hsection, fun h => absurd h hsection⟩
  | closes hends haccept =>
    exact .inl ((Shrinks.of_endsBranch hends).trans (.closes (haccept _ (by simp)) _))
  | closesLoop hkind =>
    refine .inl (.closeLoop ?_ _)
    rintro rfl
    cases hkind
  | closesSection => exact .inl .closeSection

/-! ## Runs -/

theorem run_concat (b : Bindings) (tokens : List Token) (token : Token) :
    run b (tokens ++ [token]) = (run b tokens).feed token := by
  simp [run, List.foldl_append]

/-- `opener`, read after `before`, opened a block: it put out the line, last of all its lines, and
gave the section its name. While `inside` was read the block stayed open. -/
structure OpenedBy (b : Bindings) (block : OpenBlock) (before : List Token) (opener : Directive)
    (inside : List Token) : Prop where
  fresh : (run b before).lines.length ≤ block.frame.opened
  emitted : block.frame.kind ≠ .register →
    ∃ earlier, (run b (before ++ [.directive opener])).lines = earlier ++ [block.line] ∧
      earlier.length = block.frame.opened
  named : (run b before).GivesName opener.arguments block
  stays : ∀ part, part <+: inside →
    block.frame ∈ (run b (before ++ .directive opener :: part)).stack

/-- Some token of a run opened the block, which has been open since. -/
def WasOpened (b : Bindings) (tokens : List Token) (block : OpenBlock) : Prop :=
  ∃ before opener inside, tokens = before ++ .directive opener :: inside ∧
    OpenedBy b block before opener inside

/-- A block that stays open was opened by the same token. -/
theorem WasOpened.concat {b : Bindings} {tokens : List Token} {block : OpenBlock} {token : Token}
    (h : WasOpened b tokens block) (hstack : block.frame ∈ (run b (tokens ++ [token])).stack) :
    WasOpened b (tokens ++ [token]) block := by
  obtain ⟨before, opener, inside, rfl, hopened⟩ := h
  refine ⟨before, opener, inside ++ [token], by simp, hopened.fresh, hopened.emitted,
    hopened.named, fun part hpart => ?_⟩
  rcases List.prefix_concat_iff.mp hpart with rfl | hpart
  · simpa using hstack
  · exact hopened.stays part hpart

theorem Opens.wasOpened {b : Bindings} {tokens : List Token} {d : Directive} {block : OpenBlock}
    (h : Opens (run b tokens) ((run b tokens).feed (.directive d)) block)
    (hname : (run b tokens).GivesName d.arguments block)
    (hstack : block.frame ∈ (run b (tokens ++ [.directive d])).stack) :
    WasOpened b (tokens ++ [.directive d]) block := by
  refine ⟨tokens, d, [], rfl, h.fresh, ?_, hname, fun part hpart => ?_⟩
  · rw [run_concat]
    exact h.emitted
  · obtain rfl : part = [] := List.prefix_nil.mp hpart
    exact hstack

/-- **The open blocks of a run.** The machine remembers blocks that tokens of the run opened. -/
theorem exists_holds_run (b : Bindings) (tokens : List Token) :
    ∃ blocks, (run b tokens).Holds blocks ∧ ∀ block ∈ blocks, WasOpened b tokens block := by
  induction tokens using List.reverseRecOn with
  | nil => exact ⟨[], holds_start b, nofun⟩
  | append_singleton tokens token ih =>
    obtain ⟨blocks, hholds, hopened⟩ := ih
    -- Outer blocks that are kept were opened before the token, and are on the stack after it.
    have hkeep : ∀ {kept after : List OpenBlock}, kept <:+ blocks → kept <:+ after →
        (run b (tokens ++ [token])).Holds after →
        ∀ block ∈ kept, WasOpened b (tokens ++ [token]) block := by
      intro kept after hkept hafter hholds' block hmem
      refine (hopened block (hkept.subset hmem)).concat ?_
      rw [hholds'.stack]
      exact List.mem_map_of_mem (hafter.subset hmem)
    rcases feed_cases (run b tokens) token with
      hshrinks | ⟨d, block, rfl, hopens, hname, -⟩
    · obtain ⟨kept, hkept, hholds'⟩ := hshrinks blocks hholds
      rw [← run_concat] at hholds'
      exact ⟨kept, hholds', hkeep hkept suffix_rfl hholds'⟩
    · obtain ⟨kept, hkept, hholds'⟩ := hopens.holds blocks hholds
      rw [← run_concat] at hholds'
      refine ⟨block :: kept, hholds', fun other hmem => ?_⟩
      rcases mem_cons.mp hmem with rfl | hmem
      · refine hopens.wasOpened hname ?_
        rw [hholds'.stack]
        exact List.mem_cons_self
      · exact hkeep hkept (suffix_cons _ _) hholds' other hmem

/-- A section was opened by the directive of sections. -/
theorem OpenedBy.keyword_eq {b : Bindings} {block : OpenBlock} {before : List Token}
    {opener : Directive} {inside : List Token} (h : OpenedBy b block before opener inside)
    (hkind : block.frame.kind = .section) : opener.keyword = .openSection := by
  obtain ⟨blocks, hholds, -⟩ := exists_holds_run b before
  have hstack := h.stays [] List.nil_prefix
  rw [run_concat] at hstack
  -- the blocks that were there before were opened with earlier lines
  have hnot : ∀ kept, kept <:+ blocks → block.frame ∉ kept.map (·.frame) := by
    intro kept hkept hmem
    obtain ⟨other, hother, heq⟩ := List.mem_map.mp hmem
    have hlt := hholds.opened_lt (hkept.subset hother) (by simp [heq, hkind])
    have hle := h.fresh
    rw [heq] at hlt
    omega
  rcases feed_cases (run b before) (.directive opener) with
    hshrinks | ⟨d, opened, hd, hopens, -, hkeyword⟩
  · obtain ⟨kept, hkept, hholds'⟩ := hshrinks blocks hholds
    rw [hholds'.stack] at hstack
    exact absurd hstack (hnot kept hkept)
  · obtain ⟨kept, hkept, hholds'⟩ := hopens.holds blocks hholds
    rw [hholds'.stack] at hstack
    cases hd
    rcases mem_cons.mp hstack with heq | hmem
    · exact hkeyword ((congrArg Frame.kind heq).symm.trans hkind)
    · exact absurd hmem (hnot kept hkept)

/-! ## What the open blocks are used for -/

namespace Holds

variable {m : Machine} {block : OpenBlock} {blocks : List OpenBlock}

theorem pairwise (h : m.Holds blocks) :
    m.stack.Pairwise fun inner outer => outer.opened < inner.opened := by
  have hpairwise : ∀ {inside : List OpenBlock}, inside <:+ blocks →
      (inside.map (·.frame)).Pairwise fun inner outer => outer.opened < inner.opened := by
    intro inside hinside
    induction inside with
    | nil => exact .nil
    | cons block outer ih =>
      refine .cons ?_ (ih ((suffix_cons _ _).trans hinside))
      simpa using (h.inside block outer hinside).later
  rw [h.stack]
  exact hpairwise suffix_rfl

/-- A frame and those around it belong to a block and the blocks around it. -/
theorem exists_of_suffix (h : m.Holds blocks) {frame : Frame} {outer : FrameStack}
    (hsuffix : frame :: outer <:+ m.stack) :
    ∃ block rest, block :: rest <:+ blocks ∧ block.frame = frame ∧
      rest.map (·.frame) = outer := by
  rw [h.stack] at hsuffix
  obtain ⟨inner, hinner⟩ := hsuffix
  obtain ⟨inside, around, rfl, -, hmap⟩ := List.map_eq_append_iff.mp hinner.symm
  obtain ⟨block, rest, rfl, hframe, hrest⟩ := List.map_eq_cons_iff.mp hmap
  exact ⟨block, rest, List.suffix_append _ _, hframe, hrest⟩

/-- A section that is closed gets the name it was opened with, and the lines since then. -/
theorem closeSection_sections (h : m.Holds (block :: blocks)) {name : Text}
    (hkind : block.frame.kind = .section) (hname : block.name = some name) :
    m.closeSection.sections = m.sections ++
      [{ name, kind := .long
         content := Text.join "\n" (m.lines.drop (block.frame.opened + 1))
         fragment := Text.join "\n" (block.line ::
           (m.lines.drop (block.frame.opened + 1) ++ [Fragment.closeSection])) }] := by
  have hpop : m.stack.popIf (· == .section) = some (block.frame, blocks.map (·.frame)) := by
    simp [h.stack, popIf, hkind]
  have hnames : m.openSections.headD [] = name := by simp [h.names, hname]
  obtain ⟨hlt, hget⟩ :=
    List.getElem?_eq_some_iff.mp (h.standing block (by simp) (by simp [hkind]))
  have hdrop : (m.lines ++ [Fragment.closeSection]).drop block.frame.opened =
      block.line :: (m.lines.drop (block.frame.opened + 1) ++ [Fragment.closeSection]) := by
    rw [List.drop_append_of_le_length (Nat.le_of_lt hlt), List.drop_eq_getElem_cons hlt, hget,
      List.cons_append]
  simp only [closeSection, hpop, hnames, hdrop]

end Holds

/-- The names of the open sections go with the frames of sections, one by one. -/
theorem forall₂_names {P : OpenBlock → Prop} {blocks : List OpenBlock}
    (h : ∀ block ∈ blocks, P block) :
    List.Forall₂ (fun frame name => ∃ block, block.frame = frame ∧ block.name = some name ∧ P block)
      ((blocks.map (·.frame)).filter fun frame => frame.kind == .section)
      (blocks.filterMap (·.name)) := by
  induction blocks with
  | nil => exact .nil
  | cons block blocks ih =>
    have hrest := ih fun other hmem => h other (List.mem_cons_of_mem _ hmem)
    cases hname : block.name with
    | none =>
      have hkind : (block.frame.kind == .section) = false := by
        rw [← block.isSome_name, hname]
        rfl
      simpa [hname, hkind] using hrest
    | some name =>
      have hkind : (block.frame.kind == .section) = true := by
        rw [← block.isSome_name, hname]
        rfl
      simp only [map_cons, List.filter_cons, hkind, if_true, List.filterMap_cons, hname]
      exact .cons ⟨block, rfl, hname, h block List.mem_cons_self⟩ hrest

theorem feed_eq_closeSection {m : Machine} (htop : m.stack.top? = some .section) {d : Directive}
    (hd : d.closes .section = true) : m.feed (.directive d) = m.closeSection := by
  obtain ⟨-, haccepts⟩ := Directive.IsClosing.keyword ⟨.section, hd⟩
  have hkeyword : d.keyword = .closeSection := by
    have haccepts : d.keyword.accepts .section = true := (haccepts .section).trans hd
    cases hkeyword : d.keyword with
    | closeSection => rfl
    | _ => simp [hkeyword, Keyword.accepts, FrameKind.isBranch, FrameKind.isSwitchGroup,
        isGuardClosedBy] at haccepts
  rw [feed_directive (by simp [htop]), hkeyword]
  rfl

/-- **The open blocks of a run**, for tokens in any order. The frames were opened one after another,
each with a line that still stands, so that the lines since then can always be taken; a branch lies
directly in a switch; only the innermost block can be a register block; and the names of the open
sections are those that the open sections were given, in the same order. So a section that is closed
has the name that it was opened with. -/
theorem open_blocks_invariant (b : Bindings) (tokens : List Token) :
    let m := run b tokens
    (m.stack.Pairwise fun inner outer => outer.opened < inner.opened) ∧
    (∀ frame ∈ m.stack, frame.kind ≠ .register → frame.opened < m.lines.length ∧
      ∃ block, block.frame = frame ∧ WasOpened b tokens block ∧
        m.lines[frame.opened]? = some block.line) ∧
    (∀ frame outer, frame :: outer <:+ m.stack → frame.kind.isBranch = true →
      FrameStack.top? outer = some .switch) ∧
    (∀ frame ∈ m.stack.tail, frame.kind ≠ .register) ∧
    List.Forall₂ (fun frame name =>
        ∃ block, block.frame = frame ∧ block.name = some name ∧ WasOpened b tokens block)
      (m.stack.filter fun frame => frame.kind == .section) m.openSections ∧
    ∀ d : Directive, d.closes .section = true → m.stack.top? = some .section →
      ∃ block name, m.stack.head? = some block.frame ∧ WasOpened b tokens block ∧
        block.name = some name ∧ block.frame.opened + 1 ≤ m.lines.length ∧
        (m.feed (.directive d)).sections = m.sections ++
          [{ name, kind := .long
             content := Text.join "\n" (m.lines.drop (block.frame.opened + 1))
             fragment := Text.join "\n" (block.line ::
               (m.lines.drop (block.frame.opened + 1) ++ [Fragment.closeSection])) }] := by
  intro m
  obtain ⟨blocks, hholds, hopened⟩ := exists_holds_run b tokens
  refine ⟨hholds.pairwise, fun frame hmem hkind => ?_, fun frame outer hsuffix hbranch => ?_,
    fun frame hmem => ?_, ?_, fun d hd htop => ?_⟩
  · have hmem : frame ∈ blocks.map (·.frame) := hholds.stack ▸ hmem
    obtain ⟨block, hblock, rfl⟩ := List.mem_map.mp hmem
    exact ⟨hholds.opened_lt hblock hkind, block, rfl, hopened block hblock,
      hholds.standing block hblock hkind⟩
  · obtain ⟨block, rest, hblocks, rfl, rfl⟩ := hholds.exists_of_suffix hsuffix
    exact (hholds.inside block rest hblocks).inSwitch hbranch
  · have hmem : frame ∈ (blocks.map (·.frame)).tail := hholds.stack ▸ hmem
    cases blocks with
    | nil => cases hmem
    | cons block rest =>
      obtain ⟨around, haround, rfl⟩ := List.mem_map.mp hmem
      exact (hholds.inside block rest List.suffix_rfl).noRegister around haround
  · rw [hholds.names, hholds.stack]
    exact forall₂_names hopened
  · cases blocks with
    | nil => simp [m, hholds.top] at htop
    | cons block rest =>
      have hkind : block.frame.kind = .section := by simpa [m, hholds.top] using htop
      obtain ⟨name, hname⟩ : ∃ name, block.name = some name :=
        Option.isSome_iff_exists.mp (block.isSome_name.trans (by simp [hkind]))
      refine ⟨block, name, by simp [m, hholds.stack], hopened block List.mem_cons_self, hname,
        hholds.opened_lt List.mem_cons_self (by simp [hkind]), ?_⟩
      rw [feed_eq_closeSection htop hd]
      exact hholds.closeSection_sections hkind hname

/-- A section in a loop, with the end of another block before its own end. -/
def sectionInLoop : List Token :=
  [.directive ⟨"while", some "$a", "@while($a)"⟩,
    .directive ⟨"section", some "'side'", "@section('side')"⟩, .text "x",
    .directive ⟨"endif", none, "@endif"⟩]

/-- The end of the section finds its name and its line. -/
theorem open_blocks_invariant_section_in_loop :
    (run Bindings.empty sectionInLoop).stack.top? = some .section ∧
      ∃ block name, WasOpened Bindings.empty sectionInLoop block ∧ block.name = some name ∧
        ((run Bindings.empty sectionInLoop).feed
          (.directive ⟨"endsection", none, "@endsection"⟩)).sections.map (·.name) = [name] := by
  have htop : (run Bindings.empty sectionInLoop).stack.top? = some .section := by decide +kernel
  obtain ⟨block, name, -, hopened, hname, -, hsections⟩ :=
    (open_blocks_invariant Bindings.empty sectionInLoop).2.2.2.2.2
      ⟨"endsection", none, "@endsection"⟩ rfl htop
  have hnone : (run Bindings.empty sectionInLoop).sections = [] := by decide +kernel
  refine ⟨htop, block, name, hopened, hname, ?_⟩
  rw [hsections, hnone]
  rfl

end Machine
end BladeView
