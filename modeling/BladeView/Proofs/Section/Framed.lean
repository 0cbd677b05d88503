import BladeView.Proofs.Block.OpenBlocks
import BladeView.Proofs.Text.Basic

/-!
# The fragments of sections

Every section that the machine completes has its content in its fragment, between a call that names
the section and the end of that call. The content of a long section is cut from the output when the
section is closed, so this rests on the invariant of the open blocks: the line that opened a section
stays where it was put, whatever the blocks inside do to the lines after it.
-/
namespace BladeView

namespace SectionKind

/-- What stands before the content of a section. The name is code. -/
def opening : SectionKind → Text → Text
  | short, name => "$\x7bApp.View.section(" ++ name ++ ", "
  | long, name => Fragment.openSection name ++ ['\n']

/-- What stands after the content of a section. -/
def closing : SectionKind → Text
  | short => ", 'string')\x7d"
  | long => Fragment.closeSection

end SectionKind

/-- The fragment of a section is its content between the two ends of a call. The last line of a long
section is a line of its own. -/
structure Section.IsFramed (s : Section) (name closing : Text) : Prop where
  closing_eq : closing = s.kind.closing ∨ s.kind = .long ∧ closing = '\n' :: s.kind.closing
  fragment_eq : s.fragment = s.kind.opening name ++ s.content ++ closing

namespace Section

theorem isFramed_of_short {s : Section} {name : Text} (hkind : s.kind = .short)
    (h : s.fragment = Fragment.shortSection name s.content) : s.IsFramed name s.kind.closing where
  closing_eq := .inl rfl
  fragment_eq := by
    rw [h, hkind]
    rfl

private theorem join_pair (first last : Text) :
    Text.join "\n" [first, last] = first ++ ['\n'] ++ [] ++ last := by
  simp [Text.join]

theorem isFramed_of_long {s : Section} {name : Text} {body : List Text} (hkind : s.kind = .long)
    (hcontent : s.content = Text.join "\n" body)
    (h : s.fragment
      = Text.join "\n" (Fragment.openSection name :: (body ++ [Fragment.closeSection]))) :
    ∃ closing, s.IsFramed name closing := by
  cases body with
  | nil =>
    refine ⟨_, .inl rfl, ?_⟩
    rw [h, hcontent, hkind]
    exact join_pair _ _
  | cons line body =>
    refine ⟨_, .inr ⟨hkind, rfl⟩, ?_⟩
    rw [h, hcontent, hkind]
    exact Text.join_between (by simp) _ _

end Section

namespace Machine

/-! ## Tokens that complete a section -/

theorem sections_closes (m : Machine) (accept : FrameKind → Bool) (last : List Text) :
    (m.closes accept last).sections = m.sections := by
  unfold closes
  split <;> rfl

theorem EndsBranch.sections {m m₁ : Machine} (h : EndsBranch m m₁) : m₁.sections = m.sections := by
  rcases h with rfl | rfl
  · rfl
  · exact sections_closes ..

theorem sections_closeLoop (m : Machine) (kind : FrameKind) (output : Text) :
    (m.closeLoop kind output).sections = m.sections := by
  unfold closeLoop
  split <;> rfl

/-- **The tokens that complete a section**: a short one is put out, or a long one is closed. -/
theorem feed_sections_cases {m : Machine} {blocks : List OpenBlock} (h : m.Holds blocks)
    (token : Token) :
    (m.feed token).sections = m.sections ∨
      (m.stack.top? ≠ some .register ∧ ∃ d first second rest, token = .directive d ∧
        d.keyword = .openSection ∧ TopLevel.split d.arguments = first :: second :: rest ∧
        m.feed token = m.putShort (m.shortSection first second)) ∨
      (m.feed token = m.closeSection ∧
        ∃ block outer, blocks = block :: outer ∧ block.frame.kind = .section) := by
  have hmove := feed_move m token
  generalize m.feed token = m' at hmove ⊢
  cases hmove with
  | puts | long | register => exact .inl rfl
  | @short d first second rest hm hd hsplit =>
    exact .inr (.inl ⟨hm, d, first, second, rest, rfl, hd, hsplit, rfl⟩)
  | opens hends => exact .inl hends.sections
  | closes hends => exact .inl ((sections_closes ..).trans hends.sections)
  | closesLoop => exact .inl (sections_closeLoop ..)
  | closesSection =>
    by_cases htop : m.stack.top? = some .section
    · cases blocks with
      | nil => simp [h.top] at htop
      | cons block blocks =>
        exact .inr (.inr ⟨rfl, block, blocks, rfl, by simpa [h.top] using htop⟩)
    · refine .inl (congrArg sections (closeSection_eq_self fun kind hkind => ?_))
      refine beq_false_of_ne ?_
      rintro rfl
      exact htop hkind

/-- The line that opened a section names it. -/
theorem WasOpened.line_eq {b : Bindings} {tokens : List Token} {block : OpenBlock}
    (h : WasOpened b tokens block) (hkind : block.frame.kind = .section) :
    ∃ script, block.line = Fragment.openSection script := by
  obtain ⟨before, opener, inside, -, hopened⟩ := h
  obtain ⟨first, -, -, hline⟩ := hopened.named hkind
  exact ⟨_, hline⟩

/-- A directive asked for the section: it gives the name, and the fragment begins with it. -/
def NamedBy (m : Machine) (d : Directive) (s : Section) : Prop :=
  d.keyword = .openSection ∧ ∃ first, (TopLevel.split d.arguments).head? = some first ∧
    s.name = (m.sectionName first).1 ∧ ∃ closing, s.IsFramed (m.sectionName first).2 closing

/-- **The sections of a run** were asked for by its directives, and have no script. -/
theorem named_of_mem_run {b : Bindings} {tokens : List Token} {s : Section}
    (h : s ∈ (run b tokens).sections) :
    (∃ m d, .directive d ∈ tokens ∧ NamedBy m d s) ∧ s.script = none := by
  induction tokens using List.reverseRecOn with
  | nil => cases h
  | append_singleton tokens token ih =>
    obtain ⟨blocks, hholds, hopened⟩ := exists_holds_run b tokens
    have hearlier (hs : s ∈ (run b tokens).sections) :
        (∃ m d, .directive d ∈ tokens ++ [token] ∧ NamedBy m d s) ∧ s.script = none := by
      obtain ⟨⟨m, d, hd, hnamed⟩, hscript⟩ := ih hs
      exact ⟨⟨m, d, List.mem_append_left _ hd, hnamed⟩, hscript⟩
    rw [run_concat] at h
    rcases feed_sections_cases hholds token with
      hsame | ⟨-, d, first, second, rest, rfl, hd, hsplit, hfeed⟩ |
      ⟨hfeed, block, outer, rfl, hkind⟩
    · exact hearlier (hsame ▸ h)
    · rw [hfeed, putShort, List.mem_append, List.mem_singleton] at h
      rcases h with h | rfl
      · exact hearlier h
      · exact ⟨⟨_, d, by simp, hd, first, by rw [hsplit]; rfl, rfl, _,
          Section.isFramed_of_short rfl rfl⟩, rfl⟩
    · obtain ⟨before, opener, inside, rfl, hopener⟩ := hopened block List.mem_cons_self
      obtain ⟨first, hsplit, hname, hline⟩ := hopener.named hkind
      rw [hfeed, hholds.closeSection_sections hkind hname, List.mem_append, List.mem_singleton,
        hline] at h
      rcases h with h | rfl
      · exact hearlier h
      · exact ⟨⟨_, opener, by simp, hopener.keyword_eq hkind, first, by rw [hsplit]; rfl, rfl,
          Section.isFramed_of_long rfl rfl rfl⟩, rfl⟩

theorem framed_of_mem_run {b : Bindings} {tokens : List Token} {s : Section}
    (h : s ∈ (run b tokens).sections) : ∃ name closing, s.IsFramed name closing := by
  obtain ⟨m, d, -, -, first, -, -, hframed⟩ := (named_of_mem_run h).1
  exact ⟨_, hframed⟩

end Machine
end BladeView
