import BladeView.Source.Body
import BladeView.Proofs.Declaration.Visit
import BladeView.Proofs.Source.Verbatim
import BladeView.Proofs.Text.Keyword
import BladeView.Proofs.Text.Word

/-!
# What the removal of directives looks at

Before the declaring directives are removed, other passes go over the source: verbatim regions are
protected, backticks are escaped, and regions and directives that configure the view are removed. A
declaring directive comes out of them with its name, its blanks and its opening parenthesis, or it
has lost its at sign to something that began before it. What is inside of its argument list may have
changed.
-/
namespace BladeView

open Text (replacing)
open Traced (chars chars_ofText ofText substitute sweep)

variable {needsArgs : Bool} {names : List Text} {reader : Option Char → Text → Option (Text × Text)}

namespace Body

/-! ## The passes -/

/-- The passes between the protection of verbatim regions and the removal of the declaring
directives. -/
def passes : List (Option Char → Text → Option (Text × Text)) :=
  [replacing "\\`" Quoted.backtickMark, replacing "`" "\\`", replacing Quoted.backtickMark "\\`",
    removing setupScript?, removing viewRegion?, removing dontSubscribe?,
    removingDirectives markers false]

/-- The text that the removal of the declaring directives looks at. -/
def rendered (t : Text) : Traced :=
  passes.foldl (fun r reader => Traced.substitute reader r)
    (Traced.sweep (fun _ => Verbatim.protectStep) none 0 0 (Traced.ofText 0 t))

theorem chars_foldl (readers : List (Option Char → Text → Option (Text × Text))) (r : Traced) :
    chars (readers.foldl (fun r reader => substitute reader r) r) =
      readers.foldl (fun t reader => Text.substitute reader t) (chars r) := by
  induction readers generalizing r with
  | nil => rfl
  | cons reader readers ih => rw [List.foldl_cons, List.foldl_cons, ih, Traced.chars_substitute]

/-- **The body of a template is what the removal makes of the rendered text.** -/
theorem text_eq_rendered (t : Text) : (ofTemplate t).text =
    removeStandaloneSubscribe (removeDirectives settings true (chars (rendered t))) := by
  rw [rendered, chars_foldl, Traced.chars_sweep, chars_ofText]
  rfl

/-! ## Readers that leave a piece alone -/

/-- A reader that begins only with a certain character. -/
def BeginsWith (k : Char) (reader : Option Char → Text → Option (Text × Text)) : Prop :=
  ∀ before c t, c ≠ k → reader before (c :: t) = none

theorem BeginsWith.leaves {k : Char} (h : BeginsWith k reader) {piece : Text} (hk : k ∉ piece) :
    Traced.Leaves reader piece := by
  intro before c t rest hsuffix
  refine h before c (t ++ rest) ?_
  rintro rfl
  exact hk (hsuffix.subset List.mem_cons_self)

theorem beginsWith_replacing (k : Char) (old new : Text) :
    BeginsWith k (replacing (k :: old) new) := by
  intro before c t hc
  have hafter : Text.after? (k :: old) (c :: t) = none := if_neg (by simpa using hc.symm)
  rw [replacing, hafter]
  rfl

theorem beginsWith_setupScript? : BeginsWith '<' (removing setupScript?) := by
  intro before c t hc
  have hword : Text.afterFoldWord? "<script" (c :: t) = none := by
    rw [Text.afterFoldWord?, show "<script".toList = '<' :: "script".toList from rfl,
      Text.afterFold?_eq_none rfl hc]
    rfl
  rw [removing, setupScript?, Region.script?, hword]
  rfl

theorem beginsWith_viewRegion? : BeginsWith '@' (removing viewRegion?) := by
  intro before c t hc
  have hnamed : ∀ name, Region.named? name (c :: t) = none := by
    intro name
    have hword : Text.afterFold? ("@".toList ++ name) (c :: t) = none :=
      Text.afterFold?_eq_none rfl hc name t
    rw [Region.named?, Text.afterFoldWord?, hword]
    rfl
  have hregion : viewRegion? (c :: t) = none := by
    rw [viewRegion?, Option.map_eq_none_iff, List.findSome?_eq_none_iff]
    exact fun name _ => hnamed name
  rw [removing, hregion]
  rfl

theorem beginsWith_dontSubscribe? : BeginsWith '@' (removing dontSubscribe?) := by
  intro before c t hc
  have hword : dontSubscribe? (c :: t) = none := by
    rw [dontSubscribe?, Text.afterFoldWord?,
      show "@dontsubscribe".toList = '@' :: "dontsubscribe".toList from rfl,
      Text.afterFold?_eq_none rfl hc]
    rfl
  rw [removing, hword]
  rfl

/-- A directive is removed only from its at sign on, or from the blanks at the start of its line. -/
theorem removingDirectives_eq_none {t : Text}
    (hsign : ∀ before, directive? names needsArgs before t = none)
    (hline : ∀ before, directive? names needsArgs before
      (t.dropWhile fun c => isBlank c && c != '\n') = none) (before : Option Char) :
    removingDirectives names needsArgs before t = none := by
  have hwhole : wholeLine? (directive? names needsArgs none) t = none := by
    rw [wholeLine?, hline]
    rfl
  rw [removingDirectives, hwhole, hsign]
  simp

theorem directive?_eq_none {before : Option Char} {c : Char} (hc : c ≠ '@') (t : Text) :
    directive? names needsArgs before (c :: t) = none := by
  rw [directive?.eq_def]
  split
  · next heq => exact absurd (List.cons.inj heq).1 hc
  · rfl

end Body

/-! ## Declaring directives -/

namespace DeclarationKind

theorem word_isPlainChar (kind : DeclarationKind) : ∀ c ∈ kind.word, isPlainChar c = true := by
  cases kind <;> exact Text.forall_mem_of_all (by decide)

end DeclarationKind

namespace Declaration

/-- A character that is in no name and is neither a blank nor a parenthesis. -/
theorem notMem_opening (kind : DeclarationKind) {blanks : Text}
    (hblanks : ∀ c ∈ blanks, isBlank c = true) {k : Char}
    (hk : isPlainChar k = false ∧ isBlank k = false ∧ k ≠ '(') :
    k ∉ kind.word ++ (blanks ++ ['(']) := by
  obtain ⟨hplain, hblank, hparen⟩ := hk
  simp only [List.mem_append, List.mem_singleton, not_or]
  refine ⟨?_, ?_, hparen⟩
  · intro hmem
    rw [kind.word_isPlainChar k hmem] at hplain
    cases hplain
  · intro hmem
    rw [hblanks k hmem] at hblank
    cases hblank

variable {kind : DeclarationKind} {blanks : Text}

/-- The name of a directive ends before its blanks. -/
theorem word_append (kind : DeclarationKind) (hblanks : ∀ c ∈ blanks, isBlank c = true) (rest : Text) :
    Text.word (kind.word ++ (blanks ++ '(' :: rest)) = kind.word := by
  have hend : (blanks ++ '(' :: rest).takeWhile isPlainChar = [] := by
    cases blanks with
    | nil => rfl
    | cons c blanks =>
      have hc : isPlainChar c = false := by
        have hname := isNameChar_eq_false_of_isBlank (hblanks c List.mem_cons_self)
        simp only [isNameChar, Bool.or_eq_false_iff] at hname
        rw [isPlainChar, hname.1.1, hname.1.2]
        rfl
      simp [hc]
  rw [Text.word, List.takeWhile_append_of_pos kind.word_isPlainChar, hend, List.append_nil]

/-- A declaring directive is none of the others. -/
theorem directive?_other (hnames : names.contains kind.word = false)
    (hblanks : ∀ c ∈ blanks, isBlank c = true) (before : Option Char) (rest : Text) :
    Body.directive? names needsArgs before ('@' :: (kind.word ++ (blanks ++ '(' :: rest))) = none := by
  rw [Body.directive?, word_append kind hblanks]
  simp only [hnames, Bool.and_false, Bool.false_eq_true, if_false]

/-- A reader that begins with an at sign, but not with that of a declaring directive. -/
theorem leaves_of_beginsWith (h : Body.BeginsWith '@' reader)
    (hblanks : ∀ c ∈ blanks, isBlank c = true)
    (hsign : ∀ before rest, reader before ('@' :: (kind.word ++ rest)) = none) :
    Traced.Leaves reader ('@' :: (kind.word ++ (blanks ++ ['(']))) := by
  intro before c t rest hsuffix
  rcases List.suffix_cons_iff.1 hsuffix with heq | hsuffix
  · obtain ⟨rfl, rfl⟩ := List.cons.inj heq
    rw [List.cons_append, List.append_assoc]
    exact hsign before _
  · refine h before c (t ++ rest) ?_
    rintro rfl
    exact notMem_opening kind hblanks ⟨by decide, by decide, by decide⟩
      (hsuffix.subset List.mem_cons_self)

theorem leaves_removingDirectives (hnames : names.contains kind.word = false)
    (hblanks : ∀ c ∈ blanks, isBlank c = true) :
    Traced.Leaves (Body.removingDirectives names needsArgs)
      ('@' :: (kind.word ++ (blanks ++ ['(']))) := by
  intro before c t rest hsuffix
  rcases List.suffix_cons_iff.1 hsuffix with heq | hsuffix
  · obtain ⟨rfl, rfl⟩ := List.cons.inj heq
    have hnone : ∀ before, Body.directive? names needsArgs before
        ('@' :: (kind.word ++ (blanks ++ '(' :: rest))) = none :=
      fun before => directive?_other hnames hblanks before rest
    have hsplit : '@' :: (kind.word ++ (blanks ++ ['('])) ++ rest =
        '@' :: (kind.word ++ (blanks ++ '(' :: rest)) := by simp
    rw [hsplit]
    exact Body.removingDirectives_eq_none hnone hnone before
  · have hsign : ∀ d ∈ c :: t, d ≠ '@' := by
      rintro d hd rfl
      exact notMem_opening kind hblanks ⟨by decide, by decide, by decide⟩ (hsuffix.subset hd)
    -- The text goes on to the parenthesis, so there is no at sign after the blanks of its line.
    obtain ⟨s, hs⟩ : ∃ s, c :: t = s ++ ['('] := by
      obtain ⟨p, hp⟩ := hsuffix
      rw [← List.append_assoc kind.word] at hp
      rcases List.eq_nil_or_concat (c :: t) with hnil | ⟨s, d, hs⟩
      · cases hnil
      · rw [List.concat_eq_append] at hs
        rw [hs, ← List.append_assoc] at hp
        obtain ⟨-, hd⟩ := List.append_inj' hp rfl
        exact ⟨s, by rw [hs, hd]⟩
    refine Body.removingDirectives_eq_none (fun before => ?_) (fun before => ?_) before
    · exact Body.directive?_eq_none (hsign c List.mem_cons_self) _
    · rw [hs, List.append_assoc, List.singleton_append, Text.dropWhile_append_cons (by decide)]
      cases hdrop : s.dropWhile fun c => isBlank c && c != '\n' with
      | nil => exact Body.directive?_eq_none (by decide) _
      | cons d s' =>
        have hd : d ∈ c :: t := by
          rw [hs]
          have hmem : d ∈ s.dropWhile fun c => isBlank c && c != '\n' := by simp [hdrop]
          exact List.mem_append_left _ ((List.dropWhile_suffix _).subset hmem)
        exact Body.directive?_eq_none (hsign d hd) _

/-- **Every pass before the removal leaves the opening of a declaring directive alone.** -/
theorem leaves_of_mem_passes (kind : DeclarationKind) (hblanks : ∀ c ∈ blanks, isBlank c = true)
    (hreader : reader ∈ Body.passes) :
    Traced.Leaves reader ('@' :: (kind.word ++ (blanks ++ ['(']))) := by
  have hnot : ∀ k, isPlainChar k = false ∧ isBlank k = false ∧ k ≠ '(' → k ≠ '@' →
      k ∉ '@' :: (kind.word ++ (blanks ++ ['('])) := by
    intro k hk hsign hmem
    rcases List.mem_cons.1 hmem with rfl | hmem
    · exact hsign rfl
    · exact notMem_opening kind hblanks hk hmem
  simp only [Body.passes, List.mem_cons, List.not_mem_nil, or_false] at hreader
  rcases hreader with rfl | rfl | rfl | rfl | rfl | rfl | rfl
  · exact (Body.beginsWith_replacing '\\' ['\x60'] _).leaves (hnot _ (by decide) (by decide))
  · exact (Body.beginsWith_replacing '\x60' [] _).leaves (hnot _ (by decide) (by decide))
  · exact (Body.beginsWith_replacing '\x00' ['B', 'T', '\x00'] _).leaves
      (hnot _ (by decide) (by decide))
  · exact Body.beginsWith_setupScript?.leaves (hnot _ (by decide) (by decide))
  · refine leaves_of_beginsWith Body.beginsWith_viewRegion? hblanks fun before rest => ?_
    cases kind <;> rfl
  · refine leaves_of_beginsWith Body.beginsWith_dontSubscribe? hblanks fun before rest => ?_
    cases kind <;> rfl
  · exact leaves_removingDirectives (by cases kind <;> decide) hblanks

theorem copies_protectStep (kind : DeclarationKind) (hblanks : ∀ c ∈ blanks, isBlank c = true) :
    Traced.Copies (fun _ => Verbatim.protectStep) ('@' :: (kind.word ++ (blanks ++ ['(']))) := by
  intro before n c t rest hsuffix
  have hverbatim : Region.verbatim? (c :: t ++ rest) = none := by
    rcases List.suffix_cons_iff.1 hsuffix with heq | hsuffix
    · obtain ⟨rfl, rfl⟩ := List.cons.inj heq
      cases kind <;> rfl
    · refine Region.verbatim?_eq_none ?_ (t ++ rest)
      rintro rfl
      exact notMem_opening kind hblanks ⟨by decide, by decide, by decide⟩
        (hsuffix.subset List.mem_cons_self)
  simp only [Verbatim.protectStep, hverbatim]
  rfl

theorem Occurrence.chars_opening {t : Text} (o : Occurrence t) :
    chars (o.sign :: o.opening) = '@' :: (o.kind.word ++ (o.blanks ++ ['('])) := by
  rw [Traced.chars_cons, Occurrence.opening, chars_ofText]
  rfl

/-- **A declaring directive comes out of the passes with its opening, or without its at sign.** -/
theorem Occurrence.rendered_carries {t : Text} (o : Occurrence t) :
    Traced.Carries o.sign o.opening (Body.rendered t) := by
  have hsource : Traced.Carries o.sign o.opening (ofText 0 t) := by
    refine ⟨Traced.nodup_origins_ofText 0 t, fun _ => ?_⟩
    rw [o.ofText_eq, ← List.cons_append]
    exact ⟨_, _, (List.append_assoc ..)⟩
  have hprotected : Traced.Carries o.sign o.opening
      (sweep (fun _ => Verbatim.protectStep) none 0 0 (ofText 0 t)) := by
    refine hsource.sweep rfl ?_ none 0
    rw [o.chars_opening]
    exact copies_protectStep o.kind o.blanks_isBlank
  have hfold : ∀ readers r, readers ⊆ Body.passes → Traced.Carries o.sign o.opening r →
      Traced.Carries o.sign o.opening
        (readers.foldl (fun r reader => substitute reader r) r) := by
    intro readers
    induction readers with
    | nil => exact fun r _ hr => hr
    | cons reader readers ih =>
      intro r hsub hr
      refine ih _ (fun _ hmem => hsub (List.mem_cons_of_mem _ hmem)) ?_
      refine hr.sweep rfl ?_ none ()
      rw [o.chars_opening]
      exact (leaves_of_mem_passes o.kind o.blanks_isBlank (hsub List.mem_cons_self)).copies
  exact hfold Body.passes _ (List.Subset.refl _) hprotected

end Declaration
end BladeView
