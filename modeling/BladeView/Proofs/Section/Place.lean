import BladeView.Proofs.Block.Output
import BladeView.Proofs.Section.Framed

/-!
# Where the fragment of a section stands

The fragment of a section is cut from the output when the section is completed. Later tokens leave
those lines where they are, until the end of a loop around the section collects them: then they are
joined with the other lines of the loop into one, and blank lines are dropped. The fragment that was
cut before still has them. So a fragment stands in the template unless it has a blank line and a
collecting loop around the section is closed.

## Main statements

* `Machine.fragment_stands_iff`: the fragments that stand in the template.
-/
namespace BladeView

open Machine (nonblank)
open List (append_assoc cons_append cons_ne_nil length_append mem_cons mem_cons_self mem_filter
  mem_map mem_singleton)

variable {blocks : List OpenBlock} {m : Machine}

namespace Text

/-- A piece stands at no more than one place of a text. -/
def StandsOnce (piece t : Text) : Prop :=
  ∀ front rest front' rest', t = front ++ (piece ++ rest) → t = front' ++ (piece ++ rest') →
    front = front'

/-! ## Blank lines -/

/-- How many blanks a text starts with. -/
def lead (t : Text) : Nat := (t.takeWhile isBlank).length

theorem lead_le_lead {s t : Text} (h : s <+: t) : lead s ≤ lead t := by
  obtain ⟨rest, rfl⟩ := h
  rw [lead, lead, List.takeWhile_append]
  split
  case isTrue hall =>
    rw [length_append]
    omega
  case isFalse => exact Nat.le_refl _

theorem lead_append_of_blank {s : Text} (h : isEmptyOrBlank s = true) (t : Text) :
    lead (s ++ t) = s.length + lead t := by
  rw [lead, List.takeWhile_append_of_pos (List.all_eq_true.mp h), length_append, lead]

theorem lead_append_of_not_blank {s : Text} (h : isEmptyOrBlank s = false) (t : Text) :
    lead (s ++ t) = lead s := by
  rw [lead, List.takeWhile_append]
  split
  case isTrue hall =>
    have hprefix := List.takeWhile_prefix (l := s) isBlank
    have hself := hprefix.eq_of_length hall
    have hblank : isEmptyOrBlank s = true := by
      rw [isEmptyOrBlank, ← hself]
      exact List.all_takeWhile
    rw [h] at hblank
    cases hblank
  case isFalse => rfl

theorem isEmptyOrBlank_append {s t : Text} :
    isEmptyOrBlank (s ++ t) = (isEmptyOrBlank s && isEmptyOrBlank t) :=
  List.all_append

/-- A text that holds one that is not blank is not blank. -/
theorem isEmptyOrBlank_of_isInfix {s t : Text} (h : s <:+: t) (hs : isEmptyOrBlank s = false) :
    isEmptyOrBlank t = false := by
  obtain ⟨front, rest, rfl⟩ := h
  rw [isEmptyOrBlank_append, isEmptyOrBlank_append, hs, Bool.and_false, Bool.false_and]

section Lines

variable {line : Text} {lines : List Text}

theorem nonblank_cons_of_blank (h : isEmptyOrBlank line = true) :
    nonblank (line :: lines) = nonblank lines := by
  simp [nonblank, h]

theorem nonblank_cons_of_not_blank (h : isEmptyOrBlank line = false) :
    nonblank (line :: lines) = line :: nonblank lines := by
  simp [nonblank, h]

theorem nonblank_ne_nil (h : line ∈ lines) (hline : isEmptyOrBlank line = false) :
    nonblank lines ≠ [] := by
  refine List.ne_nil_of_mem (a := line) (mem_filter.mpr ⟨h, ?_⟩)
  rw [hline]
  rfl

theorem exists_join_cons (line : Text) (lines : List Text) :
    ∃ rest, join "\n" (line :: lines) = line ++ rest := by
  cases lines with
  | nil => exact ⟨[], by rw [join_singleton, List.append_nil]⟩
  | cons next lines => exact ⟨_, (join_cons_cons ..).trans (append_assoc ..)⟩

theorem join_cons_eq (line : Text) (h : lines ≠ []) :
    join "\n" (line :: lines) = line ++ '\n' :: join "\n" lines := by
  rw [join_cons_of_ne_nil _ _ h, append_assoc]
  rfl

theorem lead_join_cons_of_blank (hline : isEmptyOrBlank line = true) (h : lines ≠ []) :
    lead (join "\n" lines) < lead (join "\n" (line :: lines)) := by
  have hbreak := lead_append_of_blank (s := ['\n']) rfl (join "\n" lines)
  rw [List.singleton_append, List.length_singleton] at hbreak
  rw [join_cons_eq line h, lead_append_of_blank hline, hbreak]
  omega

/-- Lines that are joined start with at least as many blanks as without the blank lines. -/
theorem lead_join_nonblank_le (h : nonblank lines ≠ []) (t : Text) :
    lead (join "\n" (nonblank lines) ++ t) ≤ lead (join "\n" lines) := by
  induction lines with
  | nil => exact absurd rfl h
  | cons line lines ih =>
    cases hline : isEmptyOrBlank line with
    | false =>
      obtain ⟨u, hu⟩ := exists_join_cons line (nonblank lines)
      obtain ⟨v, hv⟩ := exists_join_cons line lines
      refine Nat.le_of_eq ?_
      rw [nonblank_cons_of_not_blank hline, hu, hv, append_assoc,
        lead_append_of_not_blank hline, lead_append_of_not_blank hline]
    | true =>
      rw [nonblank_cons_of_blank hline] at h ⊢
      have hne : lines ≠ [] := by
        rintro rfl
        exact h rfl
      exact Nat.le_trans (ih h) (Nat.le_of_lt (lead_join_cons_of_blank hline hne))

/-- **Lines of which one is blank are not where they were without it**, whatever follows, if the
last of them is not blank. -/
theorem not_prefix_of_blank (hblank : ∃ line ∈ lines, isEmptyOrBlank line = true)
    (hlast : lines.getLast?.any isEmptyOrBlank = false) (t : Text) :
    ¬ join "\n" lines <+: join "\n" (nonblank lines) ++ t := by
  induction lines with
  | nil =>
    obtain ⟨_, hmem, _⟩ := hblank
    cases hmem
  | cons line lines ih =>
    have hne : lines ≠ [] := by
      rintro rfl
      obtain ⟨other, hmem, hother⟩ := hblank
      obtain rfl := mem_singleton.mp hmem
      simp [hother] at hlast
    have hlast' : lines.getLast?.any isEmptyOrBlank = false := by
      rwa [List.getLast?_cons_of_ne_nil hne] at hlast
    have hsome : nonblank lines ≠ [] := by
      obtain ⟨last, hget⟩ := Option.ne_none_iff_exists'.mp (mt List.getLast?_eq_none_iff.mp hne)
      exact nonblank_ne_nil (List.mem_of_getLast? hget) (by simpa [hget] using hlast')
    cases hline : isEmptyOrBlank line with
    | false =>
      have hrest : ∃ line ∈ lines, isEmptyOrBlank line = true := by
        obtain ⟨other, hmem, hother⟩ := hblank
        rcases mem_cons.mp hmem with rfl | hmem
        · rw [hline] at hother
          cases hother
        · exact ⟨other, hmem, hother⟩
      rw [nonblank_cons_of_not_blank hline, join_cons_eq line hne, join_cons_eq line hsome,
        append_assoc, List.prefix_append_right_inj, cons_append, List.prefix_cons_inj]
      exact ih hrest hlast'
    | true =>
      intro hprefix
      rw [nonblank_cons_of_blank hline] at hprefix
      have hle := Nat.le_trans (lead_le_lead hprefix) (lead_join_nonblank_le hsome t)
      have hlt := lead_join_cons_of_blank hline hne
      omega

theorem length_join_lt (h : lines ≠ []) {before : List Text} (hbefore : before ≠ []) :
    (join "\n" lines).length < (join "\n" (before ++ lines)).length := by
  rw [join_append _ hbefore h, length_append, length_append]
  change _ < _ + 1 + _
  omega

/-- The last lines of a text are told by what they are joined to. -/
theorem eq_of_join_eq {all more : List Text} (hlines : lines <:+ all) (hmore : more <:+ all)
    (hne : lines ≠ []) (hne' : more ≠ []) (h : join "\n" lines = join "\n" more) :
    lines = more := by
  have hlength := congrArg List.length h
  rcases List.suffix_or_suffix_of_suffix hlines hmore with ⟨before, rfl⟩ | ⟨before, rfl⟩
  · by_cases hbefore : before = []
    · rw [hbefore, List.nil_append]
    · have hlt := length_join_lt hne hbefore
      omega
  · by_cases hbefore : before = []
    · rw [hbefore, List.nil_append]
    · have hlt := length_join_lt hne' hbefore
      omega

theorem isEmptyOrBlank_join_nonblank (h : nonblank lines ≠ []) :
    isEmptyOrBlank (join "\n" (nonblank lines)) = false := by
  obtain ⟨line, hline⟩ := List.exists_mem_of_ne_nil _ h
  refine isEmptyOrBlank_of_isInfix (isInfix_join _ hline) ?_
  simpa using (mem_filter.mp hline).2

theorem nonblank_eq_self (h : ∀ line ∈ lines, isEmptyOrBlank line = false) :
    nonblank lines = lines := by
  refine List.filter_eq_self.mpr fun line hline => ?_
  rw [h line hline]
  rfl

end Lines

end Text

namespace Machine

/-! ## Completing a section -/

/-- `m'` has completed a section, which was put out last, in some lines of its own. The blocks that
are still open began before them. -/
structure CompletesSection (m m' : Machine) (s : Section) (outer own : List Text) : Prop where
  sections : m'.sections = m.sections ++ [s]
  lines : m'.lines = outer ++ own
  fragment : s.fragment = Text.join "\n" own
  around : ∀ frame ∈ m'.stack, frame.opened < outer.length
  first : own.head?.any Text.isEmptyOrBlank = false
  last : own.getLast?.any Text.isEmptyOrBlank = false
  ne_nil : own ≠ []

theorem isEmptyOrBlank_of_dollar (t : Text) : Text.isEmptyOrBlank ('$' :: t) = false := rfl

/-- A short section is put out in one line. -/
theorem completes_short (h : m.Holds blocks) (hm : m.stack.top? ≠ some .register)
    (first second : Text) :
    CompletesSection m (m.putShort (m.shortSection first second)) (m.shortSection first second)
      m.lines [(m.shortSection first second).fragment] where
  sections := rfl
  lines := rfl
  fragment := (Text.join_singleton ..).symm
  around := by
    intro frame hframe
    have hmem : frame ∈ blocks.map (·.frame) := h.stack ▸ hframe
    obtain ⟨block, hblock, rfl⟩ := mem_map.mp hmem
    exact h.opened_lt hblock (h.ne_register hm block hblock)
  first := isEmptyOrBlank_of_dollar _
  last := isEmptyOrBlank_of_dollar _
  ne_nil := cons_ne_nil _ _

/-- A long section is put out in the lines since it was opened. -/
theorem completes_long {block : OpenBlock} (h : m.Holds (block :: blocks))
    (hkind : block.frame.kind = .section)
    (hline : ∃ script, block.line = Fragment.openSection script) :
    ∃ s, CompletesSection m m.closeSection s (m.lines.take block.frame.opened)
      (block.line :: (m.lines.drop (block.frame.opened + 1) ++ [Fragment.closeSection])) := by
  obtain ⟨name, hname⟩ : ∃ name, block.name = some name :=
    Option.isSome_iff_exists.mp (block.isSome_name.trans (by simp [hkind]))
  have hstanding := h.standing block mem_cons_self (by simp [hkind])
  obtain ⟨hlt, hget⟩ := List.getElem?_eq_some_iff.mp hstanding
  have hpop : m.stack.popIf (· == .section) = some (block.frame, blocks.map (·.frame)) := by
    simp [h.stack, FrameStack.popIf, hkind]
  refine ⟨_, h.closeSection_sections hkind hname, ?_, rfl, ?_, ?_, ?_, cons_ne_nil _ _⟩
  · have hlines : m.closeSection.lines = m.lines ++ [Fragment.closeSection] := by
      simp only [closeSection, hpop]
    rw [hlines, ← cons_append, ← append_assoc, ← hget, ← List.drop_eq_getElem_cons hlt,
      List.take_append_drop]
  · intro frame hframe
    have hstack : m.closeSection.stack = blocks.map (·.frame) := by
      simp only [closeSection, hpop]
    rw [hstack] at hframe
    obtain ⟨around, haround, rfl⟩ := mem_map.mp hframe
    have hlater := (h.inside block blocks List.suffix_rfl).later around haround
    rw [List.length_take]
    omega
  · obtain ⟨script, hscript⟩ := hline
    rw [hscript]
    rfl
  · rw [← cons_append, List.getLast?_concat]
    rfl

/-- **A token that changes the sections completes one.** -/
theorem feed_completes (b : Bindings) (tokens : List Token) (token : Token) :
    ((run b tokens).feed token).sections = (run b tokens).sections ∨
      ∃ s outer own, CompletesSection (run b tokens) ((run b tokens).feed token) s outer own := by
  obtain ⟨blocks, h, hopened⟩ := exists_holds_run b tokens
  rcases feed_sections_cases h token with
    hsame | ⟨hm, d, first, second, rest, -, -, -, hfeed⟩ | ⟨hfeed, block, outer, rfl, hkind⟩
  · exact .inl hsame
  · rw [hfeed]
    exact .inr ⟨_, _, _, completes_short h hm first second⟩
  · rw [hfeed]
    obtain ⟨s, hs⟩ := completes_long h hkind ((hopened block mem_cons_self).line_eq hkind)
    exact .inr ⟨s, _, _, hs⟩

/-! ## The lines of a section -/

/-- Lines that are still where they were put out. No block began among them, and the collecting
loops that were around them still are. -/
structure Standing (m : Machine) (around : List Frame) (outer own : List Text) : Prop where
  lines : outer ++ own <+: m.lines
  stack : ∀ frame ∈ m.stack, frame ∈ around ∨ (outer ++ own).length ≤ frame.opened
  loops : ∀ frame ∈ around, frame.kind.accumulates = true → frame ∈ m.stack

/-- Lines that were collected, without the blank ones. -/
def Collected (m : Machine) (own : List Text) : Prop :=
  ∃ line ∈ m.lines, Text.isEmptyOrBlank line = false ∧ Text.join "\n" (nonblank own) <:+: line

theorem nonblank_append (lines more : List Text) :
    nonblank (lines ++ more) = nonblank lines ++ nonblank more :=
  List.filter_append ..

/-- The line that a loop collects holds all the lines that it took. -/
theorem exists_mem_collect {output : Text} {lines : List Text} {piece : Text} (hne : lines ≠ [])
    (h : piece <:+: Text.join "\n" lines) :
    ∃ line ∈ Fragment.collect output lines, piece <:+: line := by
  cases lines with
  | nil => exact absurd rfl hne
  | cons first rest =>
    refine ⟨_, mem_singleton.mpr rfl, h.trans ?_⟩
    exact List.infix_append ..

theorem Collected.feed {own : List Text} (h : m.Collected own) (token : Token) :
    (m.feed token).Collected own := by
  obtain ⟨line, hmem, hline, hown⟩ := h
  rcases feed_grows_or_collects m token with hgrows | ⟨loop, output, hcollects⟩
  · exact ⟨line, hgrows.lines.subset hmem, hline, hown⟩
  · rw [← List.take_append_drop (loop.opened + 1) m.lines, List.mem_append] at hmem
    rw [Collected, hcollects.lines]
    rcases hmem with hmem | hmem
    · exact ⟨line, by simp [hmem], hline, hown⟩
    · have hbody : line ∈ nonblank (m.lines.drop (loop.opened + 1)) :=
        mem_filter.mpr ⟨hmem, by rw [hline]; rfl⟩
      obtain ⟨collected, hcollected, hinfix⟩ :=
        @exists_mem_collect output _ line (List.ne_nil_of_mem hbody) (Text.isInfix_join _ hbody)
      exact ⟨collected, by simp [hcollected], Text.isEmptyOrBlank_of_isInfix hinfix hline,
        hown.trans hinfix⟩

/-- **What a token does to lines that stand**: they still stand, or the end of a loop around them
collects them. -/
theorem Standing.feed {around : List Frame} {outer own : List Text}
    (h : m.Standing around outer own) (hearlier : ∀ frame ∈ around, frame.opened < outer.length)
    (hpairwise : m.stack.Pairwise fun inner outer => outer.opened < inner.opened)
    (hown : nonblank own ≠ []) (token : Token) :
    (m.feed token).Standing around outer own ∨ (m.feed token).Collected own ∧
      ∃ loop ∈ around, loop.kind.accumulates = true ∧ loop ∉ (m.feed token).stack := by
  have hlength := h.lines.length_le
  rcases feed_grows_or_collects m token with hgrows | ⟨loop, output, hcollects⟩
  · refine .inl ⟨h.lines.trans hgrows.lines, fun frame hframe => ?_, fun frame hframe hloop => ?_⟩
    · rcases hgrows.stack frame hframe with hframe | hlate
      · exact h.stack frame hframe
      · exact .inr (Nat.le_trans hlength hlate)
    · exact hgrows.loops frame (h.loops frame hframe hloop) hloop
  have hmem {frame : Frame} (hframe : frame ∈ (m.feed token).stack) : frame ∈ m.stack := by
    rw [hcollects.stack]
    exact List.mem_cons_of_mem _ hframe
  rcases h.stack loop (by rw [hcollects.stack]; exact mem_cons_self) with hin | hlate
  · right
    obtain ⟨more, hmore⟩ := h.lines
    have hbody : m.lines.drop (loop.opened + 1) = outer.drop (loop.opened + 1) ++ own ++ more := by
      rw [← hmore, append_assoc, append_assoc, List.drop_append_of_le_length (hearlier loop hin)]
    constructor
    · have hne : nonblank (m.lines.drop (loop.opened + 1)) ≠ [] := by
        rw [hbody, nonblank_append, nonblank_append]
        simp [hown]
      have hinfix : Text.join "\n" (nonblank own) <:+:
          Text.join "\n" (nonblank (m.lines.drop (loop.opened + 1))) := by
        rw [hbody, nonblank_append, nonblank_append]
        exact Text.isInfix_join_append ..
      obtain ⟨line, hline, hjoin⟩ := @exists_mem_collect output _ _ hne hinfix
      rw [Collected, hcollects.lines]
      exact ⟨line, by simp [hline],
        Text.isEmptyOrBlank_of_isInfix hjoin (Text.isEmptyOrBlank_join_nonblank hown), hjoin⟩
    · refine ⟨loop, hin, hcollects.accumulates, fun hloop => ?_⟩
      rw [hcollects.stack] at hpairwise
      exact Nat.lt_irrefl _ ((List.pairwise_cons.mp hpairwise).1 loop hloop)
  · refine .inl ⟨?_, fun frame hframe => h.stack frame (hmem hframe), fun frame hframe hloop => ?_⟩
    · rw [hcollects.lines, append_assoc]
      refine List.IsPrefix.trans ?_ (List.prefix_append _ _)
      exact List.prefix_take_iff.mpr ⟨h.lines, Nat.le_succ_of_le hlate⟩
    · have hframes := h.loops frame hframe hloop
      rw [hcollects.stack] at hframes
      refine (mem_cons.mp hframes).resolve_left ?_
      rintro rfl
      have hlt := hearlier frame hframe
      rw [length_append] at hlate
      omega

/-! ## Runs -/

/-- The token of a run that completed a section, and the lines that the section was put out in. -/
structure Completion (b : Bindings) (tokens : List Token) (s : Section) where
  before : List Token
  token : Token
  after : List Token
  own : List Text
  tokens_eq : tokens = before ++ token :: after
  sections_eq : (run b (before ++ [token])).sections = (run b before).sections ++ [s]
  own_suffix : own <:+ (run b (before ++ [token])).lines
  own_ne_nil : own ≠ []
  fragment_eq : s.fragment = Text.join "\n" own

namespace Completion

variable {b : Bindings} {tokens : List Token} {s : Section} (c : Completion b tokens s)

/-- The blocks around the section. -/
def around : FrameStack := (run b (c.before ++ [c.token])).stack

/-- The machine some tokens after the section was completed. -/
def machineAfter (part : List Token) : Machine := run b (c.before ++ c.token :: part)

/-- The loops around the section that collect their output stay open to the end. -/
def StaysInLoops : Prop :=
  ∀ loop ∈ c.around, loop.kind.accumulates = true →
    ∀ part, part <+: c.after → loop ∈ (c.machineAfter part).stack

/-- No line of the section is dropped: no loop collects it, or none of its lines is blank. -/
def IsKept : Prop := c.StaysInLoops ∨ ∀ line ∈ c.own, Text.isEmptyOrBlank line = false

theorem machineAfter_concat (part : List Token) (token : Token) :
    c.machineAfter (part ++ [token]) = (c.machineAfter part).feed token := by
  rw [machineAfter, machineAfter, ← run_concat]
  simp

theorem machineAfter_after : c.machineAfter c.after = run b tokens := by
  rw [machineAfter, ← c.tokens_eq]

/-- The token did complete the section, with the lines that are said to be its own. -/
theorem completes : ∃ outer,
    CompletesSection (run b c.before) (run b (c.before ++ [c.token])) s outer c.own := by
  have hsections := c.sections_eq
  rw [run_concat] at hsections ⊢
  rcases feed_completes b c.before c.token with hsame | ⟨s', outer, own, h⟩
  · rw [hsame] at hsections
    simp at hsections
  · have hs : s' = s := by simpa using h.sections.symm.trans hsections
    subst hs
    have hown : own = c.own := by
      have hsuffix := c.own_suffix
      rw [run_concat] at hsuffix
      refine Text.eq_of_join_eq ?_ hsuffix h.ne_nil c.own_ne_nil
        (h.fragment.symm.trans c.fragment_eq)
      exact h.lines ▸ List.suffix_append _ _
    exact ⟨outer, hown ▸ h⟩

/-- The line that opens the section. -/
def opening : Text := c.own.headD []

theorem opening_prefix : ∃ more, c.own = c.opening :: more ∧
    nonblank c.own = c.opening :: nonblank more := by
  obtain ⟨outer, h⟩ := c.completes
  obtain ⟨line, more, hown⟩ := List.exists_cons_of_ne_nil h.ne_nil
  have hfirst := h.first
  rw [opening]
  rw [hown] at hfirst ⊢
  exact ⟨more, rfl, Text.nonblank_cons_of_not_blank hfirst⟩

theorem nonblank_own_ne_nil : nonblank c.own ≠ [] := by
  obtain ⟨more, -, hnonblank⟩ := c.opening_prefix
  rw [hnonblank]
  exact cons_ne_nil _ _

/-- **What has become of the lines of a section**: they stand if the loops around it stayed open,
and were collected if one was closed. -/
theorem place :
    (c.StaysInLoops ∧ ∃ outer, (run b tokens).Standing c.around outer c.own) ∨
      (¬ c.StaysInLoops ∧ (run b tokens).Collected c.own) := by
  obtain ⟨outer, h⟩ := c.completes
  have hpart (part : List Token) :
      ((∀ loop ∈ c.around, loop.kind.accumulates = true →
          ∀ q, q <+: part → loop ∈ (c.machineAfter q).stack) ∧
        (c.machineAfter part).Standing c.around outer c.own) ∨
      ((∃ loop ∈ c.around, loop.kind.accumulates = true ∧
          ∃ q, q <+: part ∧ loop ∉ (c.machineAfter q).stack) ∧
        (c.machineAfter part).Collected c.own) := by
    induction part using List.reverseRecOn with
    | nil =>
      refine .inl ⟨fun loop hloop _ q hq => ?_, ?_, fun frame hframe => .inl hframe,
        fun frame hframe _ => hframe⟩
      · rw [List.prefix_nil.mp hq]
        exact hloop
      · exact h.lines ▸ List.prefix_rfl
    | append_singleton part token ih =>
      rw [machineAfter_concat]
      rcases ih with ⟨hstays, hstanding⟩ | ⟨⟨loop, hloop, hkind, q, hq, hclosed⟩, hcollected⟩
      · obtain ⟨blocks, hholds, -⟩ := exists_holds_run b (c.before ++ c.token :: part)
        rcases hstanding.feed h.around hholds.pairwise c.nonblank_own_ne_nil token with
          hstanding' | ⟨hcollected, loop, hloop, hkind, hclosed⟩
        · refine .inl ⟨fun loop hloop hkind q hq => ?_, hstanding'⟩
          rcases List.prefix_concat_iff.mp hq with rfl | hq
          · rw [machineAfter_concat]
            exact hstanding'.loops loop hloop hkind
          · exact hstays loop hloop hkind q hq
        · rw [← machineAfter_concat] at hclosed
          exact .inr ⟨⟨loop, hloop, hkind, _, List.prefix_rfl, hclosed⟩, hcollected⟩
      · exact .inr ⟨⟨loop, hloop, hkind, q, hq.trans (List.prefix_append _ _), hclosed⟩,
          hcollected.feed token⟩
  rcases hpart c.after with ⟨hstays, hstanding⟩ | ⟨⟨loop, hloop, hkind, q, hq, hclosed⟩, hcollected⟩
  · rw [machineAfter_after] at hstanding
    exact .inl ⟨hstays, outer, hstanding⟩
  · rw [machineAfter_after] at hcollected
    exact .inr ⟨fun hstays => hclosed (hstays loop hloop hkind q hq), hcollected⟩

end Completion

/-- Every section of a run was completed by one of its tokens. -/
theorem exists_completion {b : Bindings} {tokens : List Token} {s : Section}
    (h : s ∈ (run b tokens).sections) : Nonempty (Completion b tokens s) := by
  induction tokens using List.reverseRecOn with
  | nil => cases h
  | append_singleton tokens token ih =>
    have hearlier (hs : s ∈ (run b tokens).sections) :
        Nonempty (Completion b (tokens ++ [token]) s) := by
      obtain ⟨c⟩ := ih hs
      exact ⟨{ c with after := c.after ++ [token], tokens_eq := by simp [c.tokens_eq] }⟩
    rw [run_concat] at h
    rcases feed_completes b tokens token with hsame | ⟨s', outer, own, hc⟩
    · exact hearlier (hsame ▸ h)
    · rw [hc.sections, List.mem_append, mem_singleton] at h
      rcases h with h | rfl
      · exact hearlier h
      · exact ⟨{ before := tokens, token, after := [], own, tokens_eq := rfl
                 sections_eq := by rw [run_concat]; exact hc.sections
                 own_suffix := by rw [run_concat, hc.lines]; exact List.suffix_append _ _
                 own_ne_nil := hc.ne_nil
                 fragment_eq := hc.fragment }⟩

namespace Completion

variable {b : Bindings} {tokens : List Token} {s : Section} (c : Completion b tokens s)

/-- The line that opens a section is never dropped. -/
theorem opening_isInfix : c.opening <:+: (run b tokens).template := by
  obtain ⟨more, hown, hnonblank⟩ := c.opening_prefix
  rcases c.place with ⟨-, outer, hstanding⟩ | ⟨-, line, hline, -, hcollected⟩
  · have hmem : c.opening ∈ (run b tokens).lines := by
      refine hstanding.lines.subset (List.mem_append_right _ ?_)
      rw [hown]
      exact mem_cons_self
    exact Text.isInfix_join _ hmem
  · refine List.IsInfix.trans ?_ (hcollected.trans (Text.isInfix_join _ hline))
    refine Text.isInfix_join _ ?_
    rw [hnonblank]
    exact mem_cons_self

theorem fragment_isInfix (h : c.IsKept) : s.fragment <:+: (run b tokens).template := by
  rw [c.fragment_eq]
  rcases c.place with ⟨-, outer, hstanding⟩ | ⟨hclosed, line, hline, -, hown⟩
  · obtain ⟨more, hmore⟩ := hstanding.lines
    rw [template, ← hmore]
    exact Text.isInfix_join_append ..
  · rw [Text.nonblank_eq_self (h.resolve_left hclosed)] at hown
    exact hown.trans (Text.isInfix_join _ hline)

/-- Where the section was collected with blank lines, its fragment does not stand. -/
theorem exists_collected (h : ¬ c.IsKept) : ∃ front rest,
    (run b tokens).template = front ++ (Text.join "\n" (nonblank c.own) ++ rest) ∧
      ¬ s.fragment <+: Text.join "\n" (nonblank c.own) ++ rest := by
  obtain ⟨hclosed, hblank⟩ := not_or.mp h
  rcases c.place with ⟨hstays, -⟩ | ⟨-, line, hline, -, hown⟩
  · exact absurd hstays hclosed
  · obtain ⟨front, rest, hsplit⟩ := hown.trans (Text.isInfix_join "\n" hline)
    refine ⟨front, rest, by rw [template, ← hsplit, append_assoc], ?_⟩
    obtain ⟨outer, hc⟩ := c.completes
    rw [c.fragment_eq]
    exact Text.not_prefix_of_blank (by simpa using hblank) hc.last rest

end Completion

/-- **The fragments that stand in the template.** Every section of a run was completed by one of its
tokens. Its fragment is a piece of the template if no collecting loop around it is closed later, or
if none of its lines is blank. Otherwise its lines without the blank ones are there, and at that
place the fragment does not stand. So if the line that opens the section stands at one place only,
the fragment is in the template exactly if none of its lines is dropped. -/
theorem fragment_stands_iff (b : Bindings) (tokens : List Token) {s : Section}
    (hs : s ∈ (run b tokens).sections) :
    Nonempty (Completion b tokens s) ∧ ∀ c : Completion b tokens s,
      (c.IsKept → s.fragment <:+: (run b tokens).template) ∧
      (¬ c.IsKept → ∃ front rest,
        (run b tokens).template = front ++ (Text.join "\n" (nonblank c.own) ++ rest) ∧
          ¬ s.fragment <+: Text.join "\n" (nonblank c.own) ++ rest) ∧
      (Text.StandsOnce c.opening (run b tokens).template →
        (s.fragment <:+: (run b tokens).template ↔ c.IsKept)) := by
  refine ⟨exists_completion hs, fun c => ⟨c.fragment_isInfix, c.exists_collected, fun honce => ?_⟩⟩
  refine ⟨fun hinfix => ?_, c.fragment_isInfix⟩
  by_contra hnot
  obtain ⟨front, rest, htemplate, hother⟩ := c.exists_collected hnot
  obtain ⟨front', rest', hstands⟩ := hinfix
  obtain ⟨more, hown, hnonblank⟩ := c.opening_prefix
  obtain ⟨u, hu⟩ := Text.exists_join_cons c.opening more
  obtain ⟨v, hv⟩ := Text.exists_join_cons c.opening (nonblank more)
  have hfragment : s.fragment = c.opening ++ u := by rw [c.fragment_eq, ← hu, ← hown]
  have hplace : front' = front := by
    refine honce front' (u ++ rest') front (v ++ rest) ?_ ?_
    · rw [← hstands, hfragment]
      simp only [List.append_assoc]
    · rw [htemplate, hnonblank, hv, List.append_assoc]
  -- at the one place where the section opens, the template goes on without the blank lines
  have hrest : s.fragment ++ rest' = Text.join "\n" (nonblank c.own) ++ rest := by
    rw [hplace, htemplate, List.append_assoc] at hstands
    exact List.append_cancel_left hstands
  exact hother ⟨rest', hrest⟩

/-- A section with a blank line, in a loop. -/
def blankLineInLoop : List Token :=
  [.directive ⟨"while", some "$a", "@while($a)"⟩,
    .directive ⟨"section", some "'s'", "@section('s')"⟩, .text "x\n\ny",
    .directive ⟨"endsection", none, "@endsection"⟩, .directive ⟨"endwhile", none, "@endwhile"⟩]

/-- The end of the loop drops the blank line, which the fragment still has. -/
theorem fragment_stands_iff_blankLineInLoop :
    ∃ s ∈ (run {} blankLineInLoop).sections,
      ¬ s.fragment <:+: (run {} blankLineInLoop).template ∧
      ∃ c : Completion {} blankLineInLoop s, ¬ c.IsKept ∧
        Text.join "\n" (nonblank c.own) <:+: (run {} blankLineInLoop).template := by
  have hone : ∃ s ∈ (run {} blankLineInLoop).sections,
      ¬ s.fragment <:+: (run {} blankLineInLoop).template := by decide +kernel
  obtain ⟨s, hs, hnot⟩ := hone
  obtain ⟨⟨c⟩, hplace⟩ := fragment_stands_iff {} blankLineInLoop hs
  have hkept : ¬ c.IsKept := fun hkept => hnot ((hplace c).1 hkept)
  obtain ⟨front, rest, htemplate, -⟩ := (hplace c).2.1 hkept
  refine ⟨s, hs, hnot, c, hkept, front, rest, ?_⟩
  rw [htemplate, List.append_assoc]

end Machine
end BladeView
