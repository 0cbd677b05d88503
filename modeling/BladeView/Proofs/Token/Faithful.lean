import BladeView.Proofs.Token.Lines
import Mathlib.Data.List.Infix

/-!
# Reading tokens loses nothing

The tokens of a body hold its text in order, up to blanks: indentation, line breaks and blanks at
the ends of lines go, and nothing else does. Regions for one side are the exception, since their
markers are dropped, and so the statement is about bodies in which no region starts.

## Main statements

* `Token.ofBody_keeps_text`: the tokens of a body.
-/
namespace BladeView

open List (all_eq_true flatMap_cons mem_cons nil_append)

variable {t : Text} {d : Directive} {place : Place}

namespace Text

/-- A text without its blanks. -/
def visible (t : Text) : Text := t.filter fun c => !isBlank c

@[simp] theorem visible_nil : visible [] = [] := rfl

@[simp] theorem visible_append (t u : Text) : visible (t ++ u) = visible t ++ visible u :=
  List.filter_append t u

theorem visible_blanks (h : ∀ c ∈ t, isBlank c = true) : visible t = [] := by
  rw [visible, List.filter_eq_nil_iff]
  intro c hc
  simp [h c hc]

theorem visible_trimEnd (t : Text) : visible (trimEnd t) = visible t := by
  obtain ⟨dropped, hsplit, hblank⟩ := dropEndWhile_append isBlank t
  calc
    visible (trimEnd t) = visible (trimEnd t) ++ visible dropped := by
      rw [visible_blanks hblank, List.append_nil]
    _ = visible (trimEnd t ++ dropped) := (visible_append ..).symm
    _ = visible t := congrArg visible hsplit.symm

theorem visible_trim (t : Text) : visible (trim t) = visible t := by
  have hstart : visible (t.takeWhile isBlank) = [] :=
    visible_blanks (all_eq_true.1 List.all_takeWhile)
  calc
    visible (trim t) = visible (trimStart t) := visible_trimEnd _
    _ = visible (t.takeWhile isBlank) ++ visible (trimStart t) := by rw [hstart, nil_append]
    _ = visible t := by
      rw [← visible_append, trimStart, List.takeWhile_append_dropWhile]

end Text

namespace Token

open Text (visible)

/-! ## Texts of tokens -/

/-- The text that a token stands for. -/
def source : Token → Text
  | text t => t
  | directive d => d.raw

/-- The text that a line or a directive stands for. -/
def Item.source : Item → Text
  | line t => t
  | directive d => d.raw

/-- Joining lines adds line breaks only. -/
theorem visible_ofItems (read : List Item) :
    visible ((ofItems read).flatMap source) = visible (read.flatMap Item.source) := by
  induction read with
  | nil => rfl
  | cons item read ih =>
    cases item with
    | directive d =>
      rw [ofItems, flatMap_cons, flatMap_cons, Text.visible_append, Text.visible_append, ih]
      rfl
    | line t =>
      rw [flatMap_cons, Text.visible_append, ← ih, ofItems]
      split
      case h_1 u tokens htokens =>
        have hbreak : visible "\n" = [] := by decide
        rw [htokens, flatMap_cons, flatMap_cons, Text.visible_append, Text.visible_append]
        simp only [source, Item.source, Text.visible_append, hbreak, nil_append, List.append_assoc]
      case h_2 => rw [flatMap_cons, Text.visible_append]; rfl

theorem mem_of_mem_ofItems {read : List Item} (h : .directive d ∈ ofItems read) :
    .directive d ∈ read := by
  induction read with
  | nil => cases h
  | cons item read ih =>
    cases item with
    | directive e =>
      rw [ofItems, mem_cons] at h
      rcases h with heq | h
      · obtain rfl := Token.directive.inj heq
        exact List.mem_cons_self
      · exact List.mem_cons_of_mem _ (ih h)
    | line t =>
      refine List.mem_cons_of_mem _ (ih ?_)
      rw [ofItems] at h
      split at h
      case h_1 u tokens htokens =>
        rw [htokens]
        exact List.mem_cons_of_mem _ ((mem_cons.1 h).resolve_left nofun)
      case h_2 => exact (mem_cons.1 h).resolve_left nofun

/-- Neighbouring lines are joined. -/
theorem ofItems_ne (read : List Item) (before after : List Token) (a b : Text) :
    ofItems read ≠ before ++ .text a :: .text b :: after := by
  induction read generalizing before a with
  | nil => simp [ofItems]
  | cons item read ih =>
    cases item with
    | directive d =>
      rw [ofItems]
      cases before with
      | nil => simp
      | cons first before => exact fun h => ih before a (List.cons.inj h).2
    | line t =>
      rw [ofItems]
      split
      case h_1 u tokens htokens =>
        cases before with
        | nil =>
          intro h
          exact ih [] u (htokens.trans (congrArg (Token.text u :: ·) (List.cons.inj h).2))
        | cons first before =>
          intro h
          exact ih (.text u :: before) a
            (htokens.trans (congrArg (Token.text u :: ·) (List.cons.inj h).2))
      case h_2 hother =>
        cases before with
        | nil => exact fun h => hother b after (List.cons.inj h).2
        | cons first before => exact fun h => ih before a (List.cons.inj h).2

/-! ## Where regions start -/

/-- What follows each at sign of a text has a property. -/
def AtSigns (P : Text → Prop) (t : Text) : Prop :=
  ∀ before after, t = before ++ '@' :: after → P after

theorem AtSigns.suffix {P : Text → Prop} {s : Text} (h : AtSigns P t) (hsuffix : s <:+ t) :
    AtSigns P s := by
  obtain ⟨front, rfl⟩ := hsuffix
  rintro before after rfl
  exact h (front ++ before) after (by simp)

theorem atSigns_iff {P : Text → Prop} :
    AtSigns P t ↔ ∀ s ∈ t.tails, s.head? = some '@' → P s.tail := by
  constructor
  · intro h s hs hhead
    obtain ⟨before, rfl⟩ := (List.mem_tails ..).1 hs
    obtain ⟨after, rfl⟩ := List.head?_eq_some_iff.1 hhead
    exact h before after rfl
  · rintro h before after rfl
    exact h ('@' :: after) ((List.mem_tails ..).2 (List.suffix_append ..)) rfl

instance (P : Text → Prop) [DecidablePred P] (t : Text) : Decidable (AtSigns P t) :=
  decidable_of_iff _ atSigns_iff.symm

/-- No at sign is followed by a word that starts a region. -/
def HasNoStart (t : Text) : Prop :=
  AtSigns (fun after => Text.word after ∉ serverStarts ∧ Text.word after ∉ clientStarts) t

instance (t : Text) : Decidable (HasNoStart t) := inferInstanceAs (Decidable (AtSigns _ t))

/-- The word at the head of the first line follows an at sign of the text. -/
theorem exists_of_headWord? {word : Text} (h : headWord? (firstLine t) = some word) :
    ∃ before after, t = before ++ '@' :: after ∧ Text.word after = word := by
  obtain ⟨blanks, rest, -, hline, rfl⟩ := headWord?_eq_some h
  rcases firstLine_cases t with ⟨htext, -⟩ | htext
  · exact ⟨blanks, rest, htext.trans hline, rfl⟩
  · refine ⟨blanks, rest ++ '\n' :: afterLine t, ?_, Text.takeWhile_append_cons (by decide) ..⟩
    calc
      t = firstLine t ++ '\n' :: afterLine t := htext
      _ = _ := by rw [hline, List.append_assoc, List.cons_append]

theorem HasNoStart.startsRegion (h : HasNoStart t) : startsRegion t = false := by
  have hnames (names : List Text)
      (hno : ∀ before after, t = before ++ '@' :: after → Text.word after ∉ names) :
      startsWithAny names (firstLine t) = false := by
    rw [Bool.eq_false_iff]
    intro hstart
    obtain ⟨word, hword, hmem⟩ := (Option.any_eq_true ..).1 hstart
    obtain ⟨before, after, htext, rfl⟩ := exists_of_headWord? hword
    exact hno before after htext (by simpa using hmem)
  rw [Token.startsRegion, hnames serverStarts fun before after ht => (h before after ht).1,
    hnames clientStarts fun before after ht => (h before after ht).2]
  rfl

/-! ## Runs -/

theorem visible_lineText (preformatted : Bool) (line : Text) :
    visible (lineText preformatted line) = visible line := by
  cases preformatted
  · exact Text.visible_trim line
  · exact Text.visible_trimEnd line

theorem visible_afterLine (t : Text) :
    visible (firstLine t) ++ visible (afterLine t) = visible t := by
  have hbreak : visible ['\n'] = [] := by decide
  rcases firstLine_cases t with ⟨htext, hafter⟩ | htext
  · rw [hafter, Text.visible_nil, List.append_nil, ← htext]
  · calc
      visible (firstLine t) ++ visible (afterLine t) =
          visible (firstLine t) ++ (visible ['\n'] ++ visible (afterLine t)) := by
        rw [hbreak, nil_append]
      _ = visible (firstLine t ++ '\n' :: afterLine t) := by
        rw [← Text.visible_append, ← Text.visible_append, List.singleton_append]
      _ = visible t := congrArg visible htext.symm

theorem visible_afterDirective (rest : Text) :
    visible (afterDirective rest) = visible rest := by
  unfold afterDirective
  split
  case isTrue hblank =>
    rw [← visible_afterLine rest, Text.visible_blanks (all_eq_true.1 hblank), nil_append]
  case isFalse => rfl

theorem afterDirective_suffix (rest : Text) : afterDirective rest <:+ rest := by
  unfold afterDirective
  split
  · exact afterLine_suffix rest
  · exact List.suffix_rfl

/-- Reading goes on behind a directive. -/
theorem afterDirective_of_drop {rest : Text} {n : Nat} (hd : d.IsWritten)
    (h : t.drop n = d.raw ++ rest) :
    afterDirective rest <:+ t ∧ (afterDirective rest).length < t.length := by
  have hrest : rest <:+ t := (h ▸ List.suffix_append d.raw rest).trans (List.drop_suffix n t)
  refine ⟨(afterDirective_suffix rest).trans hrest, ?_⟩
  calc
    (afterDirective rest).length ≤ rest.length := (afterDirective_suffix rest).length_le
    _ < (d.raw ++ rest).length := by
      rw [List.length_append]
      exact Nat.lt_add_of_pos_left hd.raw_pos
    _ = (t.drop n).length := by rw [h]
    _ ≤ t.length := (List.drop_suffix n t).length_le

/-- The blanks before the first word of a line, and what follows them. -/
theorem lineIndent_append (t : Text) :
    (∀ c ∈ lineIndent t, isBlank c = true) ∧ t = lineIndent t ++ t.drop (lineIndent t).length := by
  refine ⟨all_eq_true.1 List.all_takeWhile, ?_⟩
  have hprefix : lineIndent t <+: t := (List.takeWhile_prefix _).trans (List.takeWhile_prefix _)
  exact (List.prefix_iff_eq_append.1 hprefix).symm

/-- One step gives only directives that are well written. -/
theorem isWritten_of_mem_readLine (h : .directive d ∈ (readLine place t).1) : d.IsWritten := by
  unfold readLine at h
  dsimp only at h
  split at h
  case h_1 => cases h
  case h_2 => split at h <;> simp [droppedLine, textLine] at h
  case h_3 =>
    split at h
    case isTrue => cases h
    case isFalse =>
      split at h
      case isTrue => cases h
      case isFalse =>
        split at h
        case h_1 => simp [textLine] at h
        case h_2 e he =>
          obtain rfl := Item.directive.inj (List.mem_singleton.1 h)
          exact (directive?_eq_some he).2

/-- What is read outside of regions is the text, up to blanks. -/
theorem visible_items (hside : place.side = .both) (hno : HasNoStart t) :
    visible ((items place t).flatMap Item.source) = visible t := by
  -- by induction on what is left to read: each step drops blanks only
  induction hn : t.length using Nat.strong_induction_on generalizing place t with
  | _ n ih =>
    by_cases ht : t = []
    · rw [ht]
      rfl
    have hstart := hno.startsRegion
    obtain ⟨hblank, hindent⟩ := lineIndent_append t
    cases hdirective : directive? (t.drop (lineIndent t).length) with
    | none =>
      have hlength : (afterLine t).length < n := hn ▸ length_afterLine_lt ht
      have hlater (preformatted : Bool) :
          visible ((items { place with preformatted } (afterLine t)).flatMap Item.source) =
            visible (afterLine t) :=
        ih _ hlength hside (AtSigns.suffix hno (afterLine_suffix t)) rfl
      rw [items_text hside ht hstart hdirective, flatMap_cons, Text.visible_append, hlater,
        Item.source, visible_lineText, visible_afterLine]
    | some d =>
      obtain ⟨⟨rest, hrest⟩, hwritten⟩ := directive?_eq_some hdirective
      obtain ⟨hsuffix, hlength⟩ := afterDirective_of_drop hwritten hrest
      rw [items_directive hside hstart hdirective hrest, flatMap_cons, Text.visible_append,
        ih _ (hn ▸ hlength) hside (AtSigns.suffix hno hsuffix) rfl, visible_afterDirective,
        Item.source]
      calc
        visible d.raw ++ visible rest =
            visible (lineIndent t) ++ (visible d.raw ++ visible rest) := by
          rw [Text.visible_blanks hblank, nil_append]
        _ = visible (lineIndent t ++ t.drop (lineIndent t).length) := by
          rw [hrest, Text.visible_append, Text.visible_append]
        _ = visible t := congrArg visible hindent.symm

/-- Every directive of a text is well written, within regions or out of them. -/
theorem isWritten_of_mem_items (h : .directive d ∈ items place t) : d.IsWritten := by
  induction hn : t.length using Nat.strong_induction_on generalizing place t with
  | _ n ih =>
    by_cases ht : t = []
    · rw [ht, items_nil] at h
      cases h
    rw [items_eq ht, List.mem_append] at h
    rcases h with hstep | hlater
    · exact isWritten_of_mem_readLine hstep
    · refine ih _ ?_ hlater rfl
      have hpos := List.length_pos_iff.2 ht
      rw [List.length_drop]
      omega

/-! ## Bodies -/

/-- The tokens of a body hold its text, in order and up to blanks, if no region starts in it. In
every body the directives are well written, and text is not cut into neighbouring pieces. -/
theorem ofBody_keeps_text (body : Text) :
    (HasNoStart body → Text.visible ((ofBody body).flatMap source) = Text.visible body) ∧
      (∀ d, .directive d ∈ ofBody body → d.IsWritten) ∧
      ∀ before a b after, ofBody body ≠ before ++ .text a :: .text b :: after := by
  rw [ofBody_eq]
  refine ⟨fun hno => ?_, fun d hd => ?_, fun before a b after => ofItems_ne _ before after a b⟩
  · rw [visible_ofItems, visible_items rfl hno]
  · exact isWritten_of_mem_items (mem_of_mem_ofItems hd)

/-- An argument list over two lines, text behind it, and three at signs that start no directive. -/
theorem ofBody_keeps_text_two_lines :
    HasNoStart " @if ($a ||\n f(')'))  x\n@ssrs\n@foreach\n @if($b\n  @endif y" ∧
      Text.visible ((ofBody
        " @if ($a ||\n f(')'))  x\n@ssrs\n@foreach\n @if($b\n  @endif y").flatMap source) =
        Text.visible " @if ($a ||\n f(')'))  x\n@ssrs\n@foreach\n @if($b\n  @endif y" ∧
      Directive.IsWritten ⟨"if", some "$a ||\n f(')')", "@if ($a ||\n f(')'))"⟩ := by
  have hno : HasNoStart " @if ($a ||\n f(')'))  x\n@ssrs\n@foreach\n @if($b\n  @endif y" := by
    decide +kernel
  refine ⟨hno, (ofBody_keeps_text _).1 hno, (ofBody_keeps_text
    " @if ($a ||\n f(')'))  x\n@ssrs\n@foreach\n @if($b\n  @endif y").2.1 _ ?_⟩
  decide +kernel

end Token
end BladeView
