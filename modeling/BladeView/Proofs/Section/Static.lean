import BladeView.Prerender
import BladeView.Proofs.Script.Lexer
import BladeView.Proofs.Section.Framed

/-!
# Static sections

A section without injected data is shown before the data has arrived. The analysis looks for the
injected names in the content of a section, and it is textual. This module compares it with the
variables of the section's fragment. A variable escapes the analysis in three ways: it stands in the
call around the content, such as in a computed name; it stands after dots that are not a property
access; or the braces around it, read as a group, end before it. The analysis is right about a
section exactly if no variable escapes or something else is noticed.
-/
namespace BladeView.Section

open Reference (IsWhole Covered)

variable {script closing before name after n : Text} {s : Section}

/-- A name is a variable of the section's fragment. -/
def RefersTo (s : Section) (name : Text) : Prop :=
  ∃ before after, s.fragment = before ++ name ++ after ∧ Template.IsVariable before name after

/-- The analysis counts a name: it stands in the content, as a whole and not after a dot, and in a
long section the braces of an interpolation lie around it. -/
def Notices (s : Section) (name : Text) : Prop :=
  name ≠ [] ∧ ∃ before after, s.content = before ++ name ++ after ∧ IsWhole before after ∧
    before.getLast? ≠ some '.' ∧ (s.kind = .long → Covered before name after)

theorem usesInjected_analyze_iff {injected : List Text} {deferred : Bool} :
    (s.analyze injected deferred).usesInjected = true ↔ ∃ name ∈ injected, s.Notices name := by
  cases hkind : s.kind with
  | short => simp [analyze, hkind, Reference.mentionsAny_iff, Reference.Mentioned, Notices]
  | long => simp [analyze, hkind, Reference.interpolatesAny_iff, Notices]

/-- The places of a fragment that the analysis does not see. The section's name is given as code. -/
inductive Escapes (s : Section) (script closing before name after : Text) : Prop
  | outside : before.length < (s.kind.opening script).length ∨ after.length < closing.length →
      s.Escapes script closing before name after
  | afterDots : ['.', '.'] <:+ before → s.Escapes script closing before name after
  | uncovered {u v : Text} : s.kind = .long → before = s.kind.opening script ++ u →
      after = v ++ closing → ¬Covered u name v → s.Escapes script closing before name after

/-- What stands between the two ends of a call is the content. -/
theorem IsFramed.content_eq {t : Text} (h : s.IsFramed script closing)
    (hfragment : s.fragment = s.kind.opening script ++ t ++ closing) : s.content = t := by
  have heq := h.fragment_eq.symm.trans hfragment
  exact List.append_cancel_left (List.append_cancel_right heq)

/-- What stands in a fragment, but not outside of the content, stands in the content. -/
theorem IsFramed.exists_content_eq (h : s.IsFramed script closing)
    (hfragment : s.fragment = before ++ name ++ after)
    (hbefore : (s.kind.opening script).length ≤ before.length)
    (hafter : closing.length ≤ after.length) :
    ∃ u v, before = s.kind.opening script ++ u ∧ after = v ++ closing ∧
      s.content = u ++ name ++ v := by
  have heq := h.fragment_eq.symm.trans hfragment
  obtain ⟨u, rfl⟩ : s.kind.opening script <+: before :=
    List.prefix_of_prefix_length_le ⟨s.content ++ closing, by simpa using heq⟩
      ⟨name ++ after, by simp⟩ hbefore
  obtain ⟨v, rfl⟩ : closing <:+ after :=
    List.suffix_of_suffix_length_le ⟨_, heq⟩ ⟨s.kind.opening script ++ u ++ name, rfl⟩ hafter
  exact ⟨u, v, rfl, rfl, h.content_eq (by simpa using hfragment)⟩

/-- **A variable that does not escape is noticed.** -/
theorem notices_of_not_escapes (h : s.IsFramed script closing)
    (hfragment : s.fragment = before ++ name ++ after)
    (hvariable : Template.IsVariable before name after)
    (hescapes : ¬s.Escapes script closing before name after) : s.Notices name := by
  have hinside : (s.kind.opening script).length ≤ before.length ∧
      closing.length ≤ after.length := by
    constructor
    · exact Nat.le_of_not_lt fun hlt => hescapes (.outside (.inl hlt))
    · exact Nat.le_of_not_lt fun hlt => hescapes (.outside (.inr hlt))
  obtain ⟨u, v, rfl, rfl, hcontent⟩ := h.exists_content_eq hfragment hinside.1 hinside.2
  refine ⟨?_, u, v, hcontent, ⟨fun c hc => hvariable.isWhole.before c ?_,
    fun c hc => hvariable.isWhole.after c ?_⟩, fun hdot => hescapes (.afterDots ?_), ?_⟩
  · rintro rfl
    cases hvariable.identifier
  · simp [List.getLast?_append, hc]
  · simp [List.head?_append, hc]
  · exact hvariable.notProperty (by simp [List.getLast?_append, hdot])
  · intro hkind
    exact Classical.not_not.mp fun hcovered => hescapes (.uncovered hkind rfl rfl hcovered)

/-! ## Sections with a fixed name -/

/-- The content is code or a template that the strict reader accepts. -/
def IsTidy (s : Section) : Prop :=
  match s.kind with
  | .short => Nesting.read? .code [] s.content = some []
  | .long => Template.IsTidy s.content

/-- How the lexer stands in the arguments of the call. -/
def inCall : Lexer := ⟨[.group '(', .interpolation], false⟩

/-- Where the lexer stands when the content begins. -/
def atContent : SectionKind → Lexer
  | .short => inCall
  | .long => ⟨.literal :: inCall.stack, false⟩

theorem read_opening (kind : SectionKind) (n : Text) :
    Lexer.read {} (kind.opening (Quoted.single n)) = atContent kind := by
  have happend : ∀ (l : Lexer) (t u v : Text),
      l.read (t ++ u ++ v) = ((l.read t).read u).read v := by
    simp [Lexer.read_append]
  have hname : inCall.read (Quoted.single n) = inCall := by
    have hsingle := Lexer.read_single [.interpolation] n []
    rwa [List.append_nil] at hsingle
  have hhead : Lexer.read {} "$\x7bApp.View.section(" = inCall := rfl
  cases kind with
  | short => exact (happend _ _ _ _).trans (by rw [hhead, hname]; rfl)
  | long =>
    refine (Lexer.read_append _ (Fragment.openSection (Quoted.single n)) _).trans ?_
    exact (congrArg (Lexer.read · ['\n']) (happend _ _ _ _)).trans (by rw [hhead, hname]; rfl)

/-- The last argument of the call is a string, whatever the content was. -/
theorem read_closing (h : s.IsFramed script closing) (htidy : s.IsTidy) :
    ∃ first delimiters word,
      closing = first :: (delimiters ++ '\x27' :: (word ++ "')\x7d".toList)) ∧
      (first :: delimiters).any isNameChar = false ∧ word.all isNameChar = true ∧
      (atContent s.kind).read (s.content ++ first :: (delimiters ++ ['\x27'])) =
        ⟨.string '\x27' :: inCall.stack, false⟩ := by
  cases hkind : s.kind with
  | short =>
    have hclosing : closing = SectionKind.closing .short := by
      rcases h.closing_eq with hclosing | ⟨hlong, -⟩
      · rwa [hkind] at hclosing
      · simp [hkind] at hlong
    have hread : inCall.read s.content = inCall := by
      have hcontent : Nesting.read? .code [] s.content = some [] := by
        simpa [IsTidy, hkind] using htidy
      exact Lexer.read_of_read? (Nesting.read?_append_piece (.of_isCode rfl) hcontent)
    refine ⟨',', [' '], "string", hclosing, by decide, by decide, ?_⟩
    rw [Lexer.read_append]
    exact congrArg (Lexer.read · _) hread
  | long =>
    have hcontent : Template.IsTidy s.content := by simpa [IsTidy, hkind] using htidy
    have hread : Lexer.InText inCall.stack ((atContent .long).read s.content) :=
      hcontent.read .literal nofun
    rcases h.closing_eq with hclosing | ⟨-, hclosing⟩ <;> rw [hkind] at hclosing
    · refine ⟨'\x60', ", ", "html", hclosing, by decide, by decide, ?_⟩
      rw [Lexer.read_append]
      generalize (atContent .long).read s.content = l at hread
      cases hread <;> rfl
    · refine ⟨'\n', "`, ", "html", hclosing, by decide, by decide, ?_⟩
      rw [Lexer.read_append]
      generalize (atContent .long).read s.content = l at hread
      cases hread <;> rfl

/-- The opening of a call with a fixed name uses no variable but one. -/
theorem eq_or_after_opening {kind : SectionKind} {rest : Text}
    (hvariable : Template.IsVariable before name after)
    (h : before ++ name ++ after = kind.opening (Quoted.single n) ++ rest) :
    name = "App" ∨
      ∃ u, before = kind.opening (Quoted.single n) ++ u ∧ u ++ name ++ after = rest := by
  have hne := hvariable.ne_nil
  have hname := hvariable.isNameChar
  obtain ⟨tail, htail, hopening⟩ : ∃ tail : Text, tail.any isNameChar = false ∧
      ∀ t, kind.opening (Quoted.single n) ++ t = "$\x7bApp.View.section('".toList ++
        (n.flatMap Quoted.singleChar ++ '\x27' :: (tail ++ t)) := by
    have happend : ∀ a b b' e t : Text, a ++ ("'".toList ++ e ++ "'".toList) ++ b ++ b' ++ t =
        (a ++ ['\x27']) ++ (e ++ '\x27' :: (b ++ b' ++ t)) := by simp
    cases kind with
    | short =>
      refine ⟨", ".toList ++ [], by decide, fun t => ?_⟩
      rw [← List.append_nil (SectionKind.opening _ _)]
      exact happend _ _ _ _ t
    | long => exact ⟨", `".toList ++ ['\n'], by decide, fun t => happend _ _ _ _ t⟩
  rw [hopening] at h
  -- The words of the opening, one after another.
  rcases @Reference.skip_word _ _ _ _ hne hname ['$'] '\x7b' hvariable.isWhole (by decide)
    (by decide) h
    with ⟨-, rfl⟩ | ⟨before₁, rfl, h₁, hwhole₁⟩
  · cases hvariable.identifier
  rcases @Reference.skip_word _ _ _ _ hne hname "App" '.' hwhole₁ (by decide) (by decide) h₁
    with ⟨-, happ⟩ | ⟨before₂, rfl, h₂, hwhole₂⟩
  · exact .inl happ
  rcases @Reference.skip_word _ _ _ _ hne hname "View" '.' hwhole₂ (by decide) (by decide) h₂
    with ⟨rfl, -⟩ | ⟨before₃, rfl, h₃, hwhole₃⟩
  · exact absurd (hvariable.notProperty rfl) (by decide)
  rcases @Reference.skip_word _ _ _ _ hne hname "section" '(' hwhole₃ (by decide) (by decide) h₃
    with ⟨rfl, -⟩ | ⟨before₄, rfl, h₄, -⟩
  · exact absurd (hvariable.notProperty rfl) (by decide)
  obtain ⟨before₅, rfl, h₅⟩ := @Reference.skip_delimiters _ _ _ _ hne hname ['\x27'] (by decide) h₄
  have hquote : '\x27' ∉ name := fun hmem => absurd (hname _ hmem) (by decide)
  rcases Reference.before_or_after hquote hne h₅ with ⟨more, hinside, -⟩ | ⟨before₆, rfl, h₆⟩
  · have hstack := @Lexer.read_quoted inCall.stack n before₅ (name ++ more)
      (by rw [hinside, List.append_assoc])
    have hcode : (Lexer.read ⟨.string '\x27' :: inCall.stack, false⟩ before₅).inCode = true :=
      hvariable.inCode
    rw [Lexer.inCode, hstack.1] at hcode
    cases hcode
  · obtain ⟨u, rfl, hu⟩ := Reference.skip_delimiters hne hname htail h₆.symm
    exact .inr ⟨u, (hopening u).symm, hu⟩

/-- In a section with a fixed name and tidy content, the call around the content uses no variable
but one. -/
theorem eq_of_outside (h : s.IsFramed (Quoted.single n) closing) (htidy : s.IsTidy)
    (hfragment : s.fragment = before ++ name ++ after)
    (hvariable : Template.IsVariable before name after)
    (houtside : before.length < (s.kind.opening (Quoted.single n)).length ∨
      after.length < closing.length) : name = "App" := by
  have hne := hvariable.ne_nil
  have hname := hvariable.isNameChar
  have heq : before ++ name ++ after
      = s.kind.opening (Quoted.single n) ++ (s.content ++ closing) := by
    rw [← hfragment, h.fragment_eq, List.append_assoc]
  rcases eq_or_after_opening hvariable heq with happ | ⟨u, rfl, hu⟩
  · exact happ
  · obtain ⟨first, delimiters, word, rfl, hdelimiters, hword, hread⟩ := read_closing h htidy
    have hmem : ∀ c, isNameChar c = false → c ∉ name := by
      intro c hc hmem
      simp [hname c hmem] at hc
    rw [List.any_cons, Bool.or_eq_false_iff] at hdelimiters
    rcases Reference.before_or_after (hmem first hdelimiters.1) hne hu with
      ⟨more, -, rfl⟩ | ⟨more, rfl, hmore⟩
    · simp only [List.length_append] at houtside
      omega
    · obtain ⟨more, rfl, hquote⟩ :=
        Reference.skip_delimiters hne hname hdelimiters.2 hmore.symm
      obtain ⟨more, rfl, hstring⟩ :=
        @Reference.skip_delimiters _ _ _ _ hne hname ['\x27'] (by decide) hquote
      rcases @Reference.before_or_after _ _ _ word ")\x7d".toList '\x27' (hmem _ (by decide)) hne
        hstring with ⟨tail, rfl, -⟩ | ⟨tail, -, hend⟩
      · have hplain : ∀ c ∈ more, c ≠ '\x27' ∧ c ≠ '\\' := by
          intro c hc
          have hchar := List.all_eq_true.mp hword c (by simp [hc])
          constructor <;> rintro rfl <;> exact absurd hchar (by decide)
        have hcode := hvariable.inCode
        have hsplit : s.content ++ first :: (delimiters ++ (['\x27'] ++ more)) =
            s.content ++ first :: (delimiters ++ ['\x27']) ++ more := by simp
        rw [Lexer.read_append, read_opening, hsplit, Lexer.read_append, hread,
          Lexer.read_string hplain] at hcode
        cases hcode
      · obtain ⟨tail, -, hnil⟩ := @Reference.skip_delimiters _ _ _ [] hne hname _
          (by decide) (hend.symm.trans (List.append_nil _).symm)
        simp [hne] at hnil

/-- In a section with a fixed name and tidy content, only what stands after two dots escapes, and
the name of the object that the section is given to. -/
theorem escapes_of_tidy (h : s.IsFramed (Quoted.single n) closing) (htidy : s.IsTidy)
    (hfragment : s.fragment = before ++ name ++ after)
    (hvariable : Template.IsVariable before name after)
    (hescapes : s.Escapes (Quoted.single n) closing before name after) :
    ['.', '.'] <:+ before ∨ name = "App" := by
  cases hescapes with
  | outside houtside => exact .inr (eq_of_outside h htidy hfragment hvariable houtside)
  | afterDots hdots => exact .inl hdots
  | @uncovered u v hkind hbefore hafter hcovered =>
    subst hbefore hafter
    refine absurd ?_ hcovered
    have hcontent : s.content = u ++ name ++ v := h.content_eq (by simpa using hfragment)
    have htemplate : Template.IsTidy s.content := by simpa [IsTidy, hkind] using htidy
    have htext : Lexer.InText inCall.stack (atContent .long) := .literal
    refine htemplate.covered htext nofun hcontent.symm ?_ hvariable.ne_nil ?_
    · exact fun hmem => absurd (hvariable.isNameChar _ hmem) (by decide)
    · have hcode := hvariable.inCode
      rw [Lexer.read_append, read_opening, hkind] at hcode
      exact hcode

end BladeView.Section

namespace BladeView.Machine

open Section

/-- **When a section that counts as static is static.** The analysis is right about a section of
the machine exactly if it notices some injected name or no injected name escapes it as a variable.
In a section with a fixed name and tidy content nothing escapes but names after two dots, and the
name of the object that the section is given to. -/
theorem static_iff (b : Bindings) (tokens : List Token) (injected : List Text) (deferred : Bool)
    {s : Section} (hs : s ∈ (run b tokens).sections) :
    ∃ script closing, s.IsFramed script closing ∧
      (((s.analyze injected deferred).usesInjected = false →
          ∀ name ∈ injected, ¬s.RefersTo name) ↔
        (∃ name ∈ injected, s.Notices name) ∨
          ∀ name ∈ injected, ∀ before after, s.fragment = before ++ name ++ after →
            Template.IsVariable before name after →
              ¬s.Escapes script closing before name after) ∧
      (∀ n, script = Quoted.single n → s.IsTidy →
        ∀ before name after, s.fragment = before ++ name ++ after →
          Template.IsVariable before name after →
            s.Escapes script closing before name after →
              ['.', '.'] <:+ before ∨ name = "App") := by
  obtain ⟨script, closing, hframed⟩ := framed_of_mem_run hs
  refine ⟨script, closing, hframed, ⟨fun hstatic => ?_, fun hseen hstatic => ?_⟩, ?_⟩
  · cases hflag : (s.analyze injected deferred).usesInjected with
    | true => exact .inl (usesInjected_analyze_iff.mp hflag)
    | false =>
      refine .inr fun name hname before after hfragment hvariable _ => ?_
      exact hstatic hflag name hname ⟨before, after, hfragment, hvariable⟩
  · have hunnoticed : ¬∃ name ∈ injected, s.Notices name := by
      rw [← @usesInjected_analyze_iff s injected deferred, hstatic]
      decide
    rintro name hname ⟨before, after, hfragment, hvariable⟩
    rcases hseen with hnoticed | hseen
    · exact hunnoticed hnoticed
    · refine hunnoticed ⟨name, hname, ?_⟩
      exact notices_of_not_escapes hframed hfragment hvariable
        (hseen name hname before after hfragment hvariable)
  · rintro n rfl htidy before name after hfragment hvariable hescapes
    exact escapes_of_tidy hframed htidy hfragment hvariable hescapes

/-- A section that shows the largest of some injected numbers. -/
def largest : List Token :=
  [.directive ⟨"section", some "'best'", "@section('best')"⟩, .text "\x7b\x7b max(...$xs) \x7d\x7d",
    .directive ⟨"endsection", none, "@endsection"⟩]

/-- What the section is compiled to. -/
def largestSection : Section where
  name := "best"
  kind := .long
  content := "$\x7bApp.View.escString(App.Helper.max(...xs))\x7d"
  fragment :=
    "$\x7bApp.View.section('best', `\n$\x7bApp.View.escString(App.Helper.max(...xs))\x7d\n`, 'html')\x7d"

theorem largestSection_mem : largestSection ∈ (run Bindings.empty largest).sections := by
  decide +kernel

theorem refersTo_largestSection : largestSection.RefersTo "xs" := by
  refine ⟨"$\x7bApp.View.section('best', `\n$\x7bApp.View.escString(App.Helper.max(...",
    "))\x7d\n`, 'html')\x7d", by decide +kernel, rfl, by decide +kernel, ⟨?_, ?_⟩, ?_⟩
  · rintro c ⟨⟩
    rfl
  · rintro c ⟨⟩
    rfl
  · exact fun _ => by decide +kernel

/-- The section uses injected data and counts as static, because the name escapes. -/
theorem static_iff_largest :
    largestSection ∈ (run Bindings.empty largest).sections ∧
      (largestSection.analyze ["xs"] false).usesInjected = false ∧
      largestSection.RefersTo "xs" ∧
      ∃ script closing before after, largestSection.IsFramed script closing ∧
        largestSection.fragment = before ++ "xs" ++ after ∧
        Template.IsVariable before "xs" after ∧
        largestSection.Escapes script closing before "xs" after := by
  have hstatic : (largestSection.analyze ["xs"] false).usesInjected = false := by
    decide +kernel
  refine ⟨largestSection_mem, hstatic, refersTo_largestSection, ?_⟩
  obtain ⟨script, closing, hframed, hiff, -⟩ :=
    static_iff Bindings.empty largest ["xs"] false largestSection_mem
  refine Classical.byContradiction fun hnone => ?_
  refine hiff.mpr (.inr ?_) hstatic "xs" (by simp) refersTo_largestSection
  intro name hname before after hfragment hvariable hescapes
  obtain rfl : name = "xs" := List.mem_singleton.mp hname
  exact hnone ⟨script, closing, before, after, hframed, hfragment, hvariable, hescapes⟩

end BladeView.Machine
