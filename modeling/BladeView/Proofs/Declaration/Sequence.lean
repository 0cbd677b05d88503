import BladeView.Proofs.Declaration.Visit
import BladeView.Proofs.Source.Varies

/-!
# Declarations of a sequence of segments

A template that is a sequence of plain texts and declaring directives declares what its directives
declare, one after the other. The reading starts anew behind each closed argument list, so nothing
that stands in one list hides or repeats a part of what follows, whatever quotes, brackets and
commas it has.

## Main statements

* `Declarations.read_segments`: the declarations of a sequence are those of its directives alone.
-/
namespace BladeView

theorem Declaration.directive?_eq_none {c : Char} (hc : c ≠ '@') (cs : Text) :
    directive? (c :: cs) = none := by
  have hnames : ∀ entry ∈ directives, entry.1.head? = some '@' := by decide
  rw [directive?_eq, List.findSome?_eq_none_iff]
  intro entry hentry
  obtain ⟨name, kind⟩ := entry
  obtain ⟨word, rfl⟩ : ∃ word, name = '@' :: word :=
    ⟨_, List.eq_cons_of_mem_head? (hnames _ hentry)⟩
  simp [named?, Text.after?, hc.symm]

namespace Declarations

/-- A stretch of a template: a text without at signs and tags, or a declaring directive with a
closed argument list that has none of them either. -/
inductive Segment where
  | plain (content : Text) (sign_notMem : '@' ∉ content) (tag_notMem : '<' ∉ content)
  | directive (kind : DeclarationKind) (blanks args : Text)
      (blanks_isBlank : ∀ c ∈ blanks, isBlank c = true)
      (closed : Group.read? ('(' :: (args ++ [')'])) = some (args, []))
      (sign_notMem : '@' ∉ args) (tag_notMem : '<' ∉ args)

namespace Segment

/-- The text of a directive after its at sign. -/
def list (kind : DeclarationKind) (blanks args : Text) : Text :=
  kind.word ++ (blanks ++ '(' :: (args ++ [')']))

def text : Segment → Text
  | plain content _ _ => content
  | directive kind blanks args _ _ _ _ => '@' :: list kind blanks args

def isDirective : Segment → Bool
  | plain .. => false
  | directive .. => true

/-- What the argument list of a segment declares. -/
def declared : Segment → Declarations
  | plain .. => []
  | directive kind _ args _ _ _ _ => Declaration.ofArgs kind args

theorem notMem_list {kind : DeclarationKind} {blanks args : Text}
    (hblanks : ∀ c ∈ blanks, isBlank c = true) {c : Char} (hc : c = '@' ∨ c = '<')
    (hargs : c ∉ args) : c ∉ list kind blanks args := by
  have hword : c ∉ kind.word := by rcases hc with rfl | rfl <;> cases kind <;> decide
  have hblank : c ∉ blanks := fun hmem => by
    have := hblanks c hmem
    rcases hc with rfl | rfl <;> cases this
  have hparens : c ≠ '(' ∧ c ≠ ')' := by rcases hc with rfl | rfl <;> decide
  simp [list, hword, hblank, hargs, hparens]

end Segment

/-- No region without declarations starts in a text: it has no tags, and every at sign in it is that
of a declaring directive. -/
def Clear (t : Text) : Prop :=
  ∀ c cs, c :: cs <:+ t → c ≠ '<' ∧ (c = '@' → ∃ (kind : DeclarationKind) (rest : Text),
    cs = kind.word ++ rest)

theorem Clear.opaqueRegion?_eq_none {t : Text} (h : Clear t) {c : Char} {cs : Text}
    (hsuffix : c :: cs <:+ t) : opaqueRegion? (c :: cs) = none := by
  obtain ⟨htag, hsign⟩ := h c cs hsuffix
  have hscript : Text.afterFold? "<script" (c :: cs) = none :=
    Text.afterFold?_eq_none rfl htag _ _
  have hverbatim : Text.afterFold? "@verbatim" (c :: cs) = none := by
    by_cases hc : c = '@'
    · obtain ⟨kind, rest, rfl⟩ := hsign hc
      subst hc
      exact Text.afterFold?_eq_none_of_clashes (s := '@' :: kind.word)
        (by cases kind <;> decide) rest
    · exact Text.afterFold?_eq_none rfl hc _ _
  have hnamed := (Region.ledBy_named? "verbatim").eq_none hverbatim
  rw [opaqueRegion?, Region.script?, Text.afterFoldWord?, hscript, hnamed]
  rfl

theorem Clear.opaqueMask_eq {t : Text} (h : Clear t) : opaqueMask t = t.map fun _ => false := by
  refine Text.sweep_eq_map (fun before c cs hsuffix => ?_) none
  rw [h.opaqueRegion?_eq_none hsuffix]

theorem clear_segments (segments : List Segment) : Clear (segments.flatMap Segment.text) := by
  induction segments with
  | nil =>
    intro c cs hsuffix
    exact absurd (List.suffix_nil.mp hsuffix) (List.cons_ne_nil c cs)
  | cons segment segments ih =>
    intro c cs hsuffix
    rw [List.flatMap_cons] at hsuffix
    obtain hlater | ⟨piece, hne, hpiece, heq⟩ := Text.suffix_append_cases hsuffix
    · exact ih c cs hlater
    obtain ⟨d, piece, rfl⟩ := List.exists_cons_of_ne_nil hne
    obtain ⟨rfl, rfl⟩ := List.cons.inj heq
    cases segment with
    | plain content hsign htag =>
      have hmem : c ∈ content := hpiece.subset List.mem_cons_self
      exact ⟨fun h => htag (h ▸ hmem), fun h => absurd (h ▸ hmem) hsign⟩
    | directive kind blanks args hblanks _ hsign htag =>
      rcases List.suffix_cons_iff.mp hpiece with heq | hinside
      · obtain ⟨rfl, rfl⟩ := List.cons.inj heq
        refine ⟨by decide, fun _ => ⟨kind, _, List.append_assoc ..⟩⟩
      · -- Behind the at sign of a directive there is neither a tag nor another at sign.
        have hmem := hinside.subset List.mem_cons_self
        exact ⟨fun h => Segment.notMem_list hblanks (.inr h) (h ▸ htag) hmem,
          fun h => absurd hmem (Segment.notMem_list hblanks (.inl h) (h ▸ hsign))⟩

/-! ## Reading -/

/-- Nothing is declared by a text without at signs. -/
theorem readFrom_plain {u : Text} (hu : '@' ∉ u) (before : Option Char) (t : Text) :
    readFrom before 0 ((u ++ t).map fun _ => false) (u ++ t) =
      readFrom (u.getLast?.or before) 0 (t.map fun _ => false) t := by
  induction u generalizing before with
  | nil => rfl
  | cons c u ih =>
    obtain ⟨hc, hu⟩ := not_or.mp (mt List.mem_cons.mpr hu)
    have hdirective := Declaration.directive?_eq_none (Ne.symm hc) (u ++ t)
    rw [Text.getLast?_cons_or, ← ih hu (some c), List.cons_append, List.map_cons, readFrom]
    simp [hdirective]

/-- What has been read already is passed over. -/
theorem readFrom_jump (u : Text) (before : Option Char) (t : Text) :
    readFrom before u.length ((u ++ t).map fun _ => false) (u ++ t) =
      readFrom (u.getLast?.or before) 0 (t.map fun _ => false) t := by
  induction u generalizing before with
  | nil => rfl
  | cons c u ih =>
    rw [Text.getLast?_cons_or, ← ih (some c)]
    rfl

/-- A directive declares what its argument list declares, and the reading goes on behind it. -/
theorem readFrom_directive (kind : DeclarationKind) {blanks args : Text}
    (hblanks : ∀ c ∈ blanks, isBlank c = true)
    (hclosed : Group.read? ('(' :: (args ++ [')'])) = some (args, [])) {before : Option Char}
    (hbefore : before ≠ some '@') (t : Text) :
    readFrom before 0 (('@' :: (Segment.list kind blanks args ++ t)).map fun _ => false)
        ('@' :: (Segment.list kind blanks args ++ t)) =
      Declaration.ofArgs kind args ++ readFrom (some ')') 0 (t.map fun _ => false) t := by
  have hlist : Segment.list kind blanks args ++ t =
      kind.word ++ (blanks ++ '(' :: (args ++ ')' :: t)) := by simp [Segment.list]
  have hdirective := Declaration.directive?_word kind hblanks (args ++ ')' :: t)
  have hread : Group.read? ('(' :: (args ++ ')' :: t)) = some (args, t) := by
    simpa using Group.read?_append_right hclosed t
  have hbeyond : Text.readBeyond ('@' :: (Segment.list kind blanks args ++ t)) t =
      (Segment.list kind blanks args).length := by
    simp only [Text.readBeyond, List.length_cons, List.length_append]
    omega
  have hlast : (Segment.list kind blanks args).getLast?.or (some '@') = some ')' := by
    have hconcat :
        Segment.list kind blanks args = (kind.word ++ (blanks ++ '(' :: args)) ++ [')'] := by
      simp [Segment.list]
    rw [hconcat, List.getLast?_concat, Option.some_or]
  have hjump := readFrom_jump (Segment.list kind blanks args) (some '@') t
  rw [← hlist] at hdirective
  rw [List.map_cons, readFrom]
  simp only [List.headD_cons, Bool.false_or, beq_iff_eq, hbefore, if_false, hdirective,
    Option.bind_some, hread, Option.map_some, hbeyond, List.tail_cons, hjump, hlast]

/-- **Reading a sequence of segments**, from any place where an at sign does not stand before it. -/
theorem readFrom_segments (segments : List Segment) {before : Option Char}
    (hbefore : before ≠ some '@') :
    readFrom before 0 ((segments.flatMap Segment.text).map fun _ => false)
        (segments.flatMap Segment.text) = segments.flatMap Segment.declared := by
  induction segments generalizing before with
  | nil => rfl
  | cons segment segments ih =>
    rw [List.flatMap_cons, List.flatMap_cons]
    cases segment with
    | plain content hsign htag =>
      have hlast : content.getLast?.or before ≠ some '@' := by
        cases hcontent : content.getLast? with
        | none => exact hbefore
        | some c =>
          intro h
          cases h
          exact hsign (List.mem_of_getLast? hcontent)
      rw [Segment.text, readFrom_plain hsign, ih hlast]
      rfl
    | directive kind blanks args hblanks hclosed hsign htag =>
      rw [Segment.text, List.cons_append, readFrom_directive kind hblanks hclosed hbefore,
        ih (by decide)]
      rfl

theorem read_eq_declared (segments : List Segment) :
    read (segments.flatMap Segment.text) = segments.flatMap Segment.declared := by
  rw [read, (clear_segments segments).opaqueMask_eq]
  exact readFrom_segments segments nofun

theorem Segment.read_text (s : Segment) : read s.text = s.declared := by
  simpa using read_eq_declared [s]

/-- **The declarations of a sequence of segments are those of its directives alone**, in order: none
is lost, repeated or moved. Each directive alone declares what its argument list does. -/
theorem read_segments (segments : List Segment) :
    read (segments.flatMap Segment.text) =
      (segments.filter Segment.isDirective).flatMap (fun s => read s.text) ∧
    ∀ s ∈ segments, read s.text = s.declared := by
  refine ⟨?_, fun s _ => s.read_text⟩
  rw [read_eq_declared]
  induction segments with
  | nil => rfl
  | cons s segments ih =>
    rw [List.flatMap_cons, ih]
    cases s with
    | plain => rfl
    | directive kind blanks args hblanks hclosed hsign htag =>
      rw [List.filter_cons_of_pos rfl, List.flatMap_cons, Segment.read_text]

/-- Two directives; the first has a parenthesis and a comma in quotes, its list in a new line. -/
theorem read_segments_hiddenParenthesis :
    ∃ segments : List Segment,
      segments.map Segment.text =
        ["a) (b ".toList, "@let\n($x = f('),', [1, 2]))".toList, "'".toList,
          "@useState(0, 'k')".toList] ∧
      segments.map Segment.isDirective = [false, true, false, true] ∧
      (read (segments.flatMap Segment.text)).map (·.names) =
        [["x".toList], ["k".toList, "setK".toList]] := by
  refine ⟨[.plain "a) (b " (by decide) (by decide),
    .directive .let ['\n'] "$x = f('),', [1, 2])" (List.forall_mem_singleton.mpr rfl)
      (by decide +kernel) (by decide) (by decide),
    .plain "'" (by decide) (by decide),
    .directive .useState [] "0, 'k'" (by simp) (by decide +kernel) (by decide) (by decide)],
    by decide, rfl, ?_⟩
  rw [(read_segments _).1]
  decide +kernel

end Declarations
end BladeView
