import BladeView.Proofs.Declaration.WellFormed
import BladeView.Proofs.Section.Place
import BladeView.Proofs.Section.Repeated
import BladeView.Proofs.Section.Script
import BladeView.Proofs.ViewModule.PlainMarkup
import BladeView.Proofs.ViewModule.SectionCalls

/-!
# The sections that a view says it renders

The description of a view lists the names of the sections that rendering shows. A name is listed if
the whole fragment of one of its sections stands in what rendering shows. That is more than the call
of the section: the call is also there if static sections inside of the fragment were taken out, if
a loop dropped blank lines of it, or if a wrapper ends within it. The converse holds if finishing
leaves the name as it is: the fragment of a section begins with its call.

## Main statements

* `View.renderSections_exact_iff`: when the list of rendered sections is exact.
-/
namespace BladeView

open List (append_assoc mem_append mem_filter mem_map mem_singleton)

variable {first output f w t : Text}

/-! ## Fixed names -/

/-- A directive of a section gives the name of the section as a quoted text. -/
def Token.hasFixedName : Token → Bool
  | .text _ => true
  | .directive d => d.keyword != .openSection ||
      (TopLevel.split d.arguments).head?.all fun first =>
        (Name.unquote? first).any fun n => !n.any (· == '$')

theorem Token.exists_of_hasFixedName {d : Directive} (h : (Token.directive d).hasFixedName = true)
    (hd : d.keyword = .openSection) (hfirst : (TopLevel.split d.arguments).head? = some first) :
    ∃ n, Name.unquote? first = some n ∧ (n.any (· == '$')) = false := by
  rw [hasFixedName, hd, hfirst] at h
  cases hname : Name.unquote? first with
  | none => simp [hname] at h
  | some n => exact ⟨n, rfl, by simpa [hname] using h⟩

namespace Machine

variable {b : Bindings} {tokens : List Token}

theorem sectionName_eq (m : Machine) {n : Text} (h : Name.unquote? first = some n)
    (hn : n.any (· == '$') = false) : m.sectionName first = (n, Quoted.single n) := by
  have hfixed : (Name.unquote? first).filter (fun name => !name.any (· == '$')) = some n := by
    rw [h, Option.filter_some_pos]
    simpa using hn
  rw [sectionName, hfixed]

/-- The name of a section is the first argument of its call. -/
theorem isFramed_run (hfixed : ∀ token ∈ tokens, token.hasFixedName = true) {s : Section}
    (hs : s ∈ (run b tokens).sections) :
    ∃ closing, s.IsFramed (Quoted.single s.name) closing := by
  obtain ⟨m, d, hd, hkeyword, first, hfirst, hname, hframed⟩ := (named_of_mem_run hs).1
  obtain ⟨n, hn, hplain⟩ := Token.exists_of_hasFixedName (hfixed _ hd) hkeyword hfirst
  rw [sectionName_eq _ hn hplain] at hname hframed
  rwa [hname]

/-! ## Lines that tokens put out -/

/-- The lines that a token adds to the output. -/
def newLines (b : Bindings) (before : List Token) (token : Token) : List Text :=
  (run b (before ++ [token])).lines.drop (run b before).lines.length

theorem notMem_output (h : output ∈ [Fragment.forOutput, Fragment.whileOutput]) : '(' ∉ output := by
  rcases List.mem_cons.mp h with rfl | h
  · decide
  · obtain rfl := mem_singleton.mp h
    decide

theorem notMem_closeLoop (h : '(' ∉ output) : '(' ∉ Fragment.closeLoop output := by
  unfold Fragment.closeLoop
  rw [mem_append, mem_append, not_or, not_or]
  exact ⟨⟨by decide, h⟩, by decide⟩

/-- A call stands in a line that a loop has collected only if it stood in one of the lines. -/
theorem exists_of_isInfix_collect {line : Text} {body : List Text} (hf : '\x60' ∉ f)
    (hline : '\n' ∉ f ++ '(' :: (w ++ [',']))
    (houtput : output ∈ [Fragment.forOutput, Fragment.whileOutput])
    (hmem : line ∈ Fragment.collect output body) (h : f ++ '(' :: (w ++ [',']) <:+: line) :
    ∃ line ∈ body, f ++ '(' :: (w ++ [',']) <:+: line := by
  cases body with
  | nil => cases hmem
  | cons first rest =>
    obtain rfl := mem_singleton.mp hmem
    have hparen : '(' ∉ output ++ " += `".toList := by
      rw [mem_append, not_or]
      exact ⟨notMem_output houtput, by decide⟩
    have hend : f ++ '(' :: (w ++ [',']) = (f ++ '(' :: w) ++ [','] := by simp
    rw [hend, Text.concat_isInfix_append_iff (by decide), ← hend,
      Text.isInfix_append_iff hparen] at h
    · exact (Text.isInfix_joinLines_iff (by simp) hline).mp h
    · intro c hc
      have hlast : (output ++ " += `".toList).getLast? = some '\x60' := by simp
      obtain rfl : '\x60' = c := Option.some.inj (hlast.symm.trans hc)
      exact hf

/-- **What stands in the output was put out by a token.** The end of a loop puts lines together, but
it makes no calls. -/
theorem exists_newLines (hf : '\x60' ∉ f) (hnew : '\n' ∉ f ++ '(' :: (w ++ [',']))
    (h : ∃ line ∈ (run b tokens).lines, f ++ '(' :: (w ++ [',']) <:+: line) :
    ∃ before token after, tokens = before ++ token :: after ∧
      ∃ line ∈ newLines b before token, f ++ '(' :: (w ++ [',']) <:+: line := by
  induction tokens using List.reverseRecOn with
  | nil =>
    obtain ⟨line, hline, -⟩ := h
    cases hline
  | append_singleton tokens token ih =>
    have hearlier {line : Text} (hmem : line ∈ (run b tokens).lines)
        (hcall : f ++ '(' :: (w ++ [',']) <:+: line) :
        ∃ before last after, tokens ++ [token] = before ++ last :: after ∧
          ∃ line ∈ newLines b before last, f ++ '(' :: (w ++ [',']) <:+: line := by
      obtain ⟨before, last, after, rfl, hput⟩ := ih ⟨line, hmem, hcall⟩
      exact ⟨before, last, after ++ [token], by simp, hput⟩
    obtain ⟨line, hline, hcall⟩ := h
    rw [run_concat] at hline
    rcases feed_grows_or_collects (run b tokens) token with hgrows | ⟨loop, output, hcollects⟩
    · obtain ⟨new, hlines⟩ := hgrows.lines
      rw [← hlines, mem_append] at hline
      rcases hline with hline | hline
      · exact hearlier hline hcall
      · refine ⟨tokens, token, [], rfl, line, ?_, hcall⟩
        rw [newLines, run_concat, ← hlines, List.drop_left]
        exact hline
    · rw [hcollects.lines, mem_append, mem_append] at hline
      rcases hline with (hline | hline) | hline
      · exact hearlier (List.mem_of_mem_take hline) hcall
      · obtain ⟨inner, hinner, hcall⟩ :=
          exists_of_isInfix_collect hf hnew hcollects.output_mem hline hcall
        exact hearlier (List.mem_of_mem_drop (mem_filter.mp hinner).1) hcall
      · have hparen : '(' ∈ line := hcall.subset (List.mem_append_right _ List.mem_cons_self)
        rw [mem_singleton.mp hline] at hparen
        exact absurd hparen (notMem_closeLoop (notMem_output hcollects.output_mem))

end Machine

/-! ## Calls in fragments -/

theorem Quoted.newline_notMem_single (n : Text) : '\n' ∉ Quoted.single n := by
  have hchar (c : Char) : '\n' ∉ singleChar c := by
    unfold singleChar
    split
    · decide
    split
    · decide
    split
    · decide
    split
    · decide
    · intro hmem
      obtain rfl := mem_singleton.mp hmem
      simp_all
  unfold single
  simp [hchar]

namespace Section

variable {n : Text} {s : Section}

theorem newline_notMem_callBy {function : Text} (h : '\n' ∉ function) (n : Text) :
    '\n' ∉ callBy function n := by
  simp [callBy, h, Quoted.newline_notMem_single]

/-- The fragment of a section begins with its call. -/
theorem IsFramed.exists_call {closing : Text} (h : s.IsFramed (Quoted.single n) closing) :
    ∃ rest, s.fragment = '$' :: '\x7b' :: (callBy "App.View.section" n ++ rest) := by
  have hstart (rest : Text) : "$\x7bApp.View.section(".toList ++ Quoted.single n ++ ',' :: rest =
      '$' :: '\x7b' :: (callBy "App.View.section" n ++ rest) := by
    have hname : "$\x7bApp.View.section(".toList =
        '$' :: '\x7b' :: ("App.View.section".toList ++ ['(']) := by decide
    rw [hname, callBy]
    simp only [append_assoc, List.cons_append, List.nil_append]
  have hopening : ∃ rest, s.kind.opening (Quoted.single n) =
      "$\x7bApp.View.section(".toList ++ Quoted.single n ++ ',' :: rest := by
    cases s.kind with
    | short => exact ⟨[' '], rfl⟩
    | long => exact ⟨[' ', '\x60', '\n'], append_assoc ..⟩
  obtain ⟨rest, hrest⟩ := hopening
  refine ⟨rest ++ (s.content ++ closing), ?_⟩
  rw [h.fragment_eq, hrest, hstart]
  simp only [append_assoc, List.cons_append]

/-! ## The sections of a view -/

/-- Scripts leave the names and the fragments of the sections. New sections have no fragment. -/
theorem exists_map_attachScript (sections : List Section) (entry : Text × Text) :
    ∃ extra : List (Text × Text), (∀ e ∈ extra, e.2 = []) ∧
      (attachScript sections entry).map (fun s => (s.name, s.fragment)) =
        sections.map (fun s => (s.name, s.fragment)) ++ extra := by
  induction sections with
  | nil => exact ⟨[(entry.1, [])], by simp, rfl⟩
  | cons s rest ih =>
    by_cases hname : s.name = entry.1
    · exact ⟨[], by simp, by rw [attachScript_cons hname]; simp⟩
    · obtain ⟨extra, hextra, hrest⟩ := ih
      exact ⟨extra, hextra, by rw [attachScript_cons_of_ne hname, List.map_cons, hrest]; rfl⟩

theorem exists_map_foldl_attachScript (sections : List Section) (entries : List (Text × Text)) :
    ∃ extra : List (Text × Text), (∀ e ∈ extra, e.2 = []) ∧
      (entries.foldl attachScript sections).map (fun s => (s.name, s.fragment)) =
        sections.map (fun s => (s.name, s.fragment)) ++ extra := by
  induction entries generalizing sections with
  | nil => exact ⟨[], by simp, by simp⟩
  | cons entry entries ih =>
    obtain ⟨extra, hextra, hfirst⟩ := exists_map_attachScript sections entry
    obtain ⟨more, hmore, hrest⟩ := ih (attachScript sections entry)
    refine ⟨extra ++ more, fun e he => ?_, ?_⟩
    · exact (mem_append.mp he).elim (hextra e) (hmore e)
    · rw [List.foldl_cons, hrest, hfirst, append_assoc]

end Section

namespace View

open Section (callBy functions)

/-- The tokens of the body of a template. -/
def bodyTokens (source : Text) : List Token :=
  Token.ofBody (Body.ofTemplate (Region.stripComments (Text.trim source))).text

/-- The names that the declarations of a template bind. -/
def bodyBindings (source : Text) : Bindings :=
  (Declarations.read (Region.stripComments (Text.trim source))).bindings

/-- All sections of a template have fixed names. -/
def HasFixedNames (source : Text) : Prop :=
  ∀ token ∈ bodyTokens source, token.hasFixedName = true

instance (source : Text) : Decidable (HasFixedNames source) :=
  inferInstanceAs (Decidable (∀ token ∈ bodyTokens source, token.hasFixedName = true))

/-- What the body of a template is compiled to. -/
def bodyTemplate (source : Text) : Text :=
  (Machine.run (bodyBindings source) (bodyTokens source)).template

theorem exists_mem_sections_iff (shared : SharedCode) (source name n : Text) {fragment : Text}
    (hne : fragment ≠ []) :
    (∃ s ∈ (ofTemplate shared source name).sections, s.name = n ∧ s.fragment = fragment) ↔
      ∃ s ∈ bodySections source, s.name = n ∧ s.fragment = fragment := by
  have hpair (sections : List Section) : (∃ s ∈ sections, s.name = n ∧ s.fragment = fragment) ↔
      (n, fragment) ∈ sections.map fun s => (s.name, s.fragment) := by
    simp
  obtain ⟨injected, deferred, hsections⟩ := sections_ofTemplate shared source name
  obtain ⟨extra, hextra, hmap⟩ := Section.exists_map_foldl_attachScript (bodySections source)
    (ofTemplate shared source name).assets.sectionScripts
  have hanalyze (sections : List Section) :
      (sections.map (Section.analyze injected deferred)).map (fun s => (s.name, s.fragment)) =
        sections.map fun s => (s.name, s.fragment) := by
    rw [List.map_map]
    rfl
  rw [hpair, hpair, hsections, hanalyze, hmap, mem_append]
  exact or_iff_left fun hmem => hne (hextra _ hmem)

/-! ## What rendering shows -/

/-- What rendering shows, before it is finished. -/
def shown (v : View) : Text :=
  if v.hasPrerender then Section.removeAll v.staticSections v.template else v.template

/-- The whole fragment of a section stands in what rendering shows, or something that looks like
it. -/
def ShowsWhole (v : View) (s : Section) : Prop :=
  s.fragment ≠ [] ∧ (s.fragment <:+: v.shown ∨ v.Resembles s.fragment v.shown)

/-- The call of a section stands in what rendering shows, under one of its two names. -/
def WritesCall (v : View) (n : Text) : Prop :=
  ∃ function ∈ functions, callBy function n <:+: Verbatim.restore v.verbatim v.shown

/-- The call of a section stands in the template literal of the render function. -/
def RendersCall (v : View) (n : Text) : Prop := callBy "this.__section" n <:+: v.renderTemplate

theorem rendersCall_iff (v : View) {n : Text} (hn : '(' ∉ Quoted.single n) :
    v.RendersCall n ↔ v.WritesCall n :=
  Template.call_isInfix_rename_iff hn _

/-- Finishing leaves a name as it is where it is the first argument of a call: it is not changed
where verbatim contents are put back, nor where calls get their final names. -/
structure KeepsName (v : View) (n : Text) : Prop where
  restored : Verbatim.restore v.verbatim (Quoted.single n) = Quoted.single n
  renamed : Template.rename (Quoted.single n ++ [',']) = Quoted.single n ++ [',']

/-- A name without calls and placeholders is kept. -/
theorem keepsName_of_notMem (v : View) {n : Text} (hcall : '(' ∉ Quoted.single n)
    (hhead : ¬ Verbatim.placeholderHead <:+: Quoted.single n) : v.KeepsName n where
  restored := by
    refine Text.substitute_eq_self fun _ c cs hsuffix => Option.map_eq_none_iff.mpr ?_
    have hnot : ¬ Verbatim.placeholderHead <+: c :: cs := fun h =>
      hhead (h.isInfix.trans hsuffix.isInfix)
    rw [Verbatim.readPlaceholder?, Text.after?_eq_none_iff.mpr hnot]
    rfl
  renamed := by
    rw [Template.rename_eq_self_iff]
    intro call hold hstands
    have hparen : '(' ∈ Quoted.single n ++ [','] := hstands.subset hold.paren_mem
    simp [hcall] at hparen

/-- The call of a section has its final name when it is finished. -/
theorem KeepsName.call_isInfix_finish {v : View} {n : Text} (hn : v.KeepsName n)
    (h : '\x7b' :: callBy "App.View.section" n <:+: t) :
    callBy "this.__section" n <:+: v.finish t := by
  obtain ⟨before, after, rfl⟩ := h
  have hsplit : before ++ ('\x7b' :: callBy "App.View.section" n) ++ after =
      before ++ '\x7b' :: (callBy "App.View.section" n ++ after) := by simp
  have hcall : v.finish (callBy "App.View.section" n ++ after) =
      callBy "this.__section" n ++ v.finish after := by
    rw [finish, Template.finish_eq, Verbatim.restore_callBy hn.restored,
      Template.rename_callBy hn.renamed]
    rfl
  have hbrace := (Template.keepsBraces_finish v.verbatim).brace '\x7b' rfl before
    (callBy "App.View.section" n ++ after)
  rw [hsplit]
  refine ⟨v.finish before ++ ['\x7b'], v.finish after, ?_⟩
  rw [append_assoc, ← hcall, append_assoc]
  exact hbrace.symm

theorem finish_eq_nil_iff (v : View) (h : t ≠ [] → IsInterpolation t) :
    v.finish t = [] ↔ t = [] := by
  have hkeeps := Template.keepsBraces_finish v.verbatim
  constructor
  · intro hnil
    by_contra hne
    obtain ⟨inner, rfl⟩ := h hne
    rw [finish, hkeeps.interpolation] at hnil
    cases hnil
  · rintro rfl
    exact hkeeps.nil

theorem showsWhole_iff (v : View) {s : Section} (h : s.fragment ≠ [] → IsInterpolation s.fragment) :
    v.ShowsWhole s ↔ v.finish s.fragment ≠ [] ∧ v.finish s.fragment <:+: v.renderTemplate := by
  rw [ne_eq, v.finish_eq_nil_iff h]
  exact and_congr_right fun hne => (v.finish_isInfix_iff (h hne)).symm

/-- A name is listed just if the whole fragment of one of its sections is shown. -/
theorem mem_renderedNames_iff {v : View} {n : Text}
    (hparts : ∀ s ∈ v.sections, s.fragment ≠ [] → IsInterpolation s.fragment) :
    n ∈ v.renderedNames ↔ ∃ s ∈ v.sections, s.name = n ∧ v.ShowsWhole s := by
  have hcheck (t : Text) : (!t.isEmpty && Text.contains t v.renderTemplate) = true ↔
      t ≠ [] ∧ t <:+: v.renderTemplate := by
    rw [Bool.and_eq_true, Bool.not_eq_true', List.isEmpty_eq_false_iff]
    exact and_congr_right fun hne => Text.contains_iff hne
  rw [renderedNames, Section.renderedNames, Declarations.mem_distinct]
  constructor
  · intro h
    obtain ⟨s', hs', rfl⟩ := mem_map.mp h
    obtain ⟨hmem, hshown⟩ := mem_filter.mp hs'
    obtain ⟨s, hs, rfl⟩ := mem_map.mp hmem
    exact ⟨s, hs, rfl, (v.showsWhole_iff (hparts s hs)).mpr ((hcheck _).mp hshown)⟩
  · rintro ⟨s, hs, rfl, hwhole⟩
    have hshown := (hcheck _).mpr ((v.showsWhole_iff (hparts s hs)).mp hwhole)
    exact mem_map.mpr ⟨_, mem_filter.mpr ⟨List.mem_map_of_mem hs, hshown⟩, rfl⟩

/-! ## Templates with fixed names -/

section Fixed

variable {shared : SharedCode} {source name n : Text}

/-- The fragment of a section with a fixed name begins with the call of the section. -/
theorem exists_call_of_mem (hfixed : HasFixedNames source) {s : Section}
    (hs : s ∈ bodySections source) :
    ∃ rest, s.fragment = '$' :: '\x7b' :: (callBy "App.View.section" s.name ++ rest) := by
  obtain ⟨closing, hframed⟩ := Machine.isFramed_run hfixed hs
  exact hframed.exists_call

/-- A section that is shown as a whole is shown with its call. -/
theorem rendersCall_of_showsWhole (hfixed : HasFixedNames source)
    (hn : (ofTemplate shared source name).KeepsName n) {s : Section}
    (hs : s ∈ (ofTemplate shared source name).sections) (hname : s.name = n)
    (h : (ofTemplate shared source name).ShowsWhole s) :
    (ofTemplate shared source name).RendersCall n := by
  obtain ⟨s', hs', hname', hfragment⟩ :=
    (exists_mem_sections_iff shared source name n h.1).mp ⟨s, hs, hname, rfl⟩
  obtain ⟨rest, hrest⟩ := exists_call_of_mem hfixed hs'
  rw [hname', hfragment] at hrest
  have hcall : callBy "this.__section" n <:+:
      (ofTemplate shared source name).finish s.fragment :=
    hn.call_isInfix_finish ⟨['$'], rest, by rw [hrest]; simp⟩
  exact hcall.trans ((showsWhole_iff _ (isInterpolation_of_mem hs)).mp h).2

/-- Where all of the body is shown, the call of every section is shown. -/
theorem rendersCall_of_mem (hfixed : HasFixedNames source)
    (hn : (ofTemplate shared source name).KeepsName n)
    (hshown : (ofTemplate shared source name).shown = bodyTemplate source) {s : Section}
    (hs : s ∈ bodySections source) (hname : s.name = n) :
    (ofTemplate shared source name).RendersCall n := by
  obtain ⟨c⟩ := Machine.exists_completion hs
  obtain ⟨rest, hrest⟩ := exists_call_of_mem hfixed hs
  rw [hname] at hrest
  have hstart : '$' :: '\x7b' :: callBy "App.View.section" n <+: c.opening := by
    have hnewline : '\n' ∉ '$' :: '\x7b' :: callBy "App.View.section" n := by
      simp [Section.newline_notMem_callBy]
    obtain ⟨more, hown, -⟩ := c.opening_prefix
    have hbegins : '$' :: '\x7b' :: callBy "App.View.section" n <+:
        Text.join "\n" (c.opening :: more) := by
      rw [← hown, ← c.fragment_eq, hrest]
      exact ⟨rest, by simp⟩
    by_cases hmore : more = []
    · rwa [hmore, Text.join_singleton] at hbegins
    · rwa [Text.join_cons_eq _ hmore, Text.prefix_append_cons_iff hnewline] at hbegins
  have htail : '\x7b' :: callBy "App.View.section" n <:+: c.opening :=
    (List.suffix_cons '$' _).isInfix.trans hstart.isInfix
  have hwritten : '\x7b' :: callBy "App.View.section" n <:+:
      (ofTemplate shared source name).shown := by
    rw [hshown]
    exact htail.trans c.opening_isInfix
  exact hn.call_isInfix_finish hwritten

/-- Where all of the body is shown, a section that kept its lines is listed. -/
theorem mem_renderedNames_of_isKept
    (hshown : (ofTemplate shared source name).shown = bodyTemplate source) {s : Section}
    (hs : s ∈ bodySections source) (hname : s.name = n)
    (c : Machine.Completion (bodyBindings source) (bodyTokens source) s) (hkept : c.IsKept) :
    n ∈ (ofTemplate shared source name).renderedNames := by
  have hne : s.fragment ≠ [] := by
    obtain ⟨name, closing, hframed⟩ := Machine.framed_of_mem_run hs
    obtain ⟨inner, hinner⟩ := hframed.isInterpolation
    rw [hinner]
    exact List.cons_ne_nil _ _
  obtain ⟨s', hs', hname', hfragment⟩ :=
    (exists_mem_sections_iff shared source name n hne).mpr ⟨s, hs, hname, rfl⟩
  rw [mem_renderedNames_iff fun _ => isInterpolation_of_mem]
  refine ⟨s', hs', hname', hfragment ▸ hne, .inl ?_⟩
  rw [hfragment, hshown]
  exact c.fragment_isInfix hkept

/-- Where all of the body is shown and nothing is verbatim, a call was put out by some token. -/
theorem exists_newLines_of_writesCall
    (hshown : (ofTemplate shared source name).shown = bodyTemplate source)
    (hverbatim : (ofTemplate shared source name).verbatim = [])
    (h : (ofTemplate shared source name).WritesCall n) :
    ∃ before token after, bodyTokens source = before ++ token :: after ∧
      ∃ line ∈ Machine.newLines (bodyBindings source) before token,
        ∃ function ∈ functions, callBy function n <:+: line := by
  obtain ⟨function, hfunction, hcall⟩ := h
  rw [hverbatim, Verbatim.restore_nil, hshown, bodyTemplate, Machine.template] at hcall
  have hplain : '\x60' ∉ function ∧ '\n' ∉ function :=
    (by decide : ∀ function ∈ functions, '\x60' ∉ function ∧ '\n' ∉ function) function hfunction
  have hnewline := Section.newline_notMem_callBy hplain.2 n
  have hline := (Text.isInfix_joinLines_iff (by simp [callBy]) hnewline).mp hcall
  obtain ⟨before, token, after, htokens, line, hnew, hput⟩ :=
    Machine.exists_newLines hplain.1 hnewline hline
  exact ⟨before, token, after, htokens, line, hnew, function, hfunction, hput⟩

end Fixed

theorem valuesAt_renderSections (v : View) (scan : Text) :
    (v.description scan).valuesAt "renderSections" = [Script.Expr.strings v.renderedNames] :=
  (v.valuesAt_description_eq scan (by decide)).trans rfl

/-- **When the list of rendered sections is exact.** The description in the module lists some names,
and the render function assigns a template literal. Let the names of all sections be fixed. A name
is listed just if one of the sections of that name is shown as a whole.

Let finishing leave the name as it is. If it is listed, the call is there. The list is right about
it just if, when the call is there, one of the sections of that name is shown as a whole.

If all of the body is shown, the call of every section is there, and a section of which no line was
dropped is listed.

The literal has the call of a name without parentheses just if what is shown has it under one of its
two names. If all of the body is shown and nothing is verbatim, a token of the body put it out. -/
theorem renderSections_exact_iff (shared : SharedCode) (source name : Text)
    (hfixed : HasFixedNames source) (n : Text) :
    let v := ofTemplate shared source name
    ((v.description (compile shared source name).virtualRender).valuesAt "renderSections" =
        [Script.Expr.strings v.renderedNames] ∧
      (v.description (compile shared source name).virtualRender).print 1 <:+:
        (compile shared source name).source ∧
      Script.literalText v.renderTemplate <:+: (compile shared source name).render) ∧
    (n ∈ v.renderedNames ↔ ∃ s ∈ v.sections, s.name = n ∧ v.ShowsWhole s) ∧
    (v.KeepsName n → (n ∈ v.renderedNames → v.RendersCall n) ∧
      ((n ∈ v.renderedNames ↔ v.RendersCall n) ↔
        (v.RendersCall n → ∃ s ∈ v.sections, s.name = n ∧ v.ShowsWhole s))) ∧
    (v.shown = bodyTemplate source → ∀ s ∈ bodySections source, s.name = n →
      (v.KeepsName n → v.RendersCall n) ∧
        ∀ c : Machine.Completion (bodyBindings source) (bodyTokens source) s,
          c.IsKept → n ∈ v.renderedNames) ∧
    ('(' ∉ Quoted.single n → (v.RendersCall n ↔ v.WritesCall n) ∧
      (v.shown = bodyTemplate source → v.verbatim = [] → v.RendersCall n →
        ∃ before token after, bodyTokens source = before ++ token :: after ∧
          ∃ line ∈ Machine.newLines (bodyBindings source) before token,
            ∃ function ∈ functions, callBy function n <:+: line)) := by
  intro v
  have hlisted : n ∈ v.renderedNames ↔ ∃ s ∈ v.sections, s.name = n ∧ v.ShowsWhole s :=
    mem_renderedNames_iff fun _ => isInterpolation_of_mem
  refine ⟨⟨valuesAt_renderSections v _, print_description_isInfix v, ?_⟩, hlisted, ?_, ?_, ?_⟩
  · refine v.render.literal_isInfix_print 2 ?_
    rw [literalsOf_render]
    exact List.mem_append_right _ List.mem_cons_self
  · intro hn
    have hsound : n ∈ v.renderedNames → v.RendersCall n := by
      rw [hlisted]
      rintro ⟨s, hs, hname, hwhole⟩
      exact rendersCall_of_showsWhole hfixed hn hs hname hwhole
    rw [← hlisted]
    exact ⟨hsound, fun h => h.mpr, fun h => ⟨hsound, h⟩⟩
  · intro hshown s hs hname
    exact ⟨fun hn => rendersCall_of_mem hfixed hn hshown hs hname,
      mem_renderedNames_of_isKept hshown hs hname⟩
  · intro hparen
    have hwritten := v.rendersCall_iff hparen
    refine ⟨hwritten, fun hshown hverbatim hcall => ?_⟩
    exact exists_newLines_of_writesCall hshown hverbatim (hwritten.mp hcall)

/-- A view with a static section inside of a section that waits for data. -/
def nestedSource : Text :=
  "@vars($x)\n@await\n@section('a')\n\x7b\x7b $x \x7d\x7d\n@section('b', 'B')\n@endsection"

theorem ofTemplate_nested :
    HasFixedNames nestedSource ∧ (ofTemplate {} nestedSource "v").renderedNames = [] ∧
      callBy "this.__section" "a" <:+: (ofTemplate {} nestedSource "v").renderTemplate := by
  decide +kernel

/-- The section is rendered without the one inside of it, and is not listed. -/
theorem renderSections_exact_iff_nested :
    (ofTemplate {} nestedSource "v").KeepsName "a" ∧
      (ofTemplate {} nestedSource "v").RendersCall "a" ∧
      Script.literalText (ofTemplate {} nestedSource "v").renderTemplate <:+:
        (compile {} nestedSource "v").render ∧
      (ofTemplate {} nestedSource "v").renderedNames = [] ∧
      ¬ ∃ s ∈ (ofTemplate {} nestedSource "v").sections, s.name = "a" ∧
        (ofTemplate {} nestedSource "v").ShowsWhole s := by
  obtain ⟨hfixed, hnames, hcall⟩ := ofTemplate_nested
  have hkept := (ofTemplate {} nestedSource "v").keepsName_of_notMem (n := "a") (by decide)
    (by decide)
  obtain ⟨⟨-, -, hliteral⟩, -, hexact, -⟩ := renderSections_exact_iff {} nestedSource "v" hfixed "a"
  refine ⟨hkept, hcall, hliteral, hnames, fun hwhole => ?_⟩
  have hlisted := ((hexact hkept).2.mpr fun _ => hwhole).mpr hcall
  rw [hnames] at hlisted
  cases hlisted

end View
end BladeView
