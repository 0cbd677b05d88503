import BladeView.Proofs.Block.OpenBlocks

/-!
# What a token does to the output

Lines of output are put out at the end, and only the end of a loop that collects its output takes
lines back: it joins all lines since it was opened into one, without those that are blank. So a
token either grows the output, and then no collecting loop is closed, or it closes the innermost
loop and collects its lines. All that is proved of where lines go rests on these two cases.
-/
namespace BladeView.Machine

/-- The lines that are not blank. -/
def nonblank (lines : List Text) : List Text := lines.filter fun line => !Text.isEmptyOrBlank line

/-- `m'` has the lines of `m` and maybe more. Its open blocks were open before or begin with a new
line, and all loops that collect their output are still open. -/
structure Grows (m m' : Machine) : Prop where
  lines : m.lines <+: m'.lines
  stack : ∀ frame ∈ m'.stack, frame ∈ m.stack ∨ m.lines.length ≤ frame.opened
  loops : ∀ frame ∈ m.stack, frame.kind.accumulates = true → frame ∈ m'.stack

/-- `m'` has closed the innermost loop of `m`, and has collected the lines since it was opened. -/
structure Collects (m m' : Machine) (loop : Frame) (output : Text) : Prop where
  accumulates : loop.kind.accumulates = true
  output_mem : output ∈ [Fragment.forOutput, Fragment.whileOutput]
  stack : m.stack = loop :: m'.stack
  lines : m'.lines = m.lines.take (loop.opened + 1) ++
    Fragment.collect output (nonblank (m.lines.drop (loop.opened + 1))) ++
    [Fragment.closeLoop output]

namespace Grows

variable {m m₁ m₂ : Machine}

theorem refl (m : Machine) : Grows m m := ⟨List.prefix_rfl, fun _ => .inl, fun _ h _ => h⟩

theorem trans (h : Grows m m₁) (h' : Grows m₁ m₂) : Grows m m₂ where
  lines := h.lines.trans h'.lines
  stack := by
    intro frame hframe
    rcases h'.stack frame hframe with hframe | hlate
    · exact h.stack frame hframe
    · exact .inr (Nat.le_trans h.lines.length_le hlate)
  loops := fun frame hframe hloop => h'.loops frame (h.loops frame hframe hloop) hloop

theorem of_adds {new : List Text} (h : Adds m m₁ new) : Grows m m₁ where
  lines := h.lines ▸ List.prefix_append _ _
  stack := fun _ hframe => .inl (h.stack ▸ hframe)
  loops := fun _ hframe _ => h.stack ▸ hframe

theorem of_opened {kind : FrameKind} {names new : List Text} (h : Opened m m₁ kind names new) :
    Grows m m₁ where
  lines := h.lines ▸ List.prefix_append _ _
  stack := by
    intro frame hframe
    rw [h.stack] at hframe
    rcases List.mem_cons.mp hframe with rfl | hframe
    · exact .inr (Nat.le_refl _)
    · exact .inl hframe
  loops := fun frame hframe _ => h.stack ▸ List.mem_cons_of_mem _ hframe

/-- A block that collects nothing is closed. -/
theorem of_pop {accept : FrameKind → Bool} {frame : Frame} {outer : FrameStack} {new : List Text}
    (hpop : m.stack.popIf accept = some (frame, outer)) (hfor : accept .for = false)
    (hwhile : accept .while = false) (hstack : m₁.stack = outer)
    (hlines : m₁.lines = m.lines ++ new) : Grows m m₁ := by
  obtain ⟨hframes, hkind⟩ := FrameStack.popIf_eq_some hpop
  have hplain : frame.kind.accumulates = false := by
    cases hloop : frame.kind with
    | «for» => simp [hloop, hfor] at hkind
    | «while» => simp [hloop, hwhile] at hkind
    | _ => rfl
  refine ⟨hlines ▸ List.prefix_append _ _, fun f hf => .inl ?_, fun f hf hloop => ?_⟩
  · rw [hframes]
    exact List.mem_cons_of_mem _ (hstack ▸ hf)
  · rw [hframes] at hf
    rcases List.mem_cons.mp hf with rfl | hf
    · rw [hplain] at hloop
      cases hloop
    · exact hstack ▸ hf

theorem closes {accept : FrameKind → Bool} (hfor : accept .for = false)
    (hwhile : accept .while = false) (last : List Text) : Grows m (m.closes accept last) := by
  unfold Machine.closes
  cases hpop : m.stack.popIf accept with
  | none => exact refl m
  | some popped => exact of_pop hpop hfor hwhile rfl rfl

theorem closeSection : Grows m m.closeSection := by
  unfold Machine.closeSection
  cases hpop : m.stack.popIf (· == .section) with
  | none => exact refl m
  | some popped => exact of_pop hpop rfl rfl rfl rfl

theorem of_endsBranch (h : EndsBranch m m₁) : Grows m m₁ := by
  rcases h with rfl | rfl
  · exact refl m₁
  · exact closes rfl rfl _

end Grows

theorem closeLoop_grows_or_collects (m : Machine) {kind : FrameKind}
    (hkind : kind.accumulates = true) {output : Text}
    (houtput : output ∈ [Fragment.forOutput, Fragment.whileOutput]) :
    Grows m (m.closeLoop kind output) ∨
      ∃ loop, Collects m (m.closeLoop kind output) loop output := by
  unfold Machine.closeLoop
  cases hpop : m.stack.popIf (· == kind) with
  | none => exact .inl (.refl m)
  | some popped =>
    obtain ⟨loop, outer⟩ := popped
    obtain ⟨hstack, hloop⟩ := FrameStack.popIf_eq_some hpop
    exact .inr ⟨loop, by rw [beq_iff_eq.mp hloop, hkind], houtput, hstack, rfl⟩

/-- **What a token does to the output**: it adds lines, or it ends a loop and collects its lines. -/
theorem feed_grows_or_collects (m : Machine) (token : Token) :
    Grows m (m.feed token) ∨ ∃ loop output, Collects m (m.feed token) loop output := by
  have hmove := feed_move m token
  generalize m.feed token = m' at hmove ⊢
  cases hmove with
  | puts new => exact .inl (.of_adds (Adds.emit m new))
  | short => exact .inl (.of_adds ⟨rfl, rfl, rfl, rfl, List.prefix_append _ _⟩)
  | long => exact .inl (.of_opened (opened_openLong m _))
  | register => exact .inl (.of_opened (opened_register m))
  | opens hends =>
    exact .inl ((Grows.of_endsBranch hends).trans (.of_opened (Opened.opens _ _ _)))
  | closes hends haccept =>
    exact .inl ((Grows.of_endsBranch hends).trans
      (.closes (haccept _ (by simp)) (haccept _ (by simp)) _))
  | closesLoop hkind houtput =>
    exact (closeLoop_grows_or_collects m hkind houtput).imp_right
      (Exists.imp fun loop hcollects => ⟨_, hcollects⟩)
  | closesSection => exact .inl .closeSection

end BladeView.Machine
