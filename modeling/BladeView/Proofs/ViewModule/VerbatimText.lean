import BladeView.Proofs.Markup.YieldLists
import BladeView.Proofs.Section.Repeated
import BladeView.Proofs.Source.Verbatim
import BladeView.Proofs.ViewModule.OldCalls

/-!
# Verbatim text in a rendered view

The content of a verbatim region passes by everything that reads a template, and is put back into
the finished text. Only the calls that get their final names after that are changed in it.

## Main statements

* `View.verbatim_literal_iff`: the literal that a view with a verbatim region shows.
-/
namespace BladeView

/-! ## Sections without fragments -/

theorem Section.removeAll_eq_self {sections : List Section} (h : ∀ s ∈ sections, s.fragment = [])
    (t : Text) : removeAll sections t = t := by
  have hnone : sections.filter (fun s => !s.fragment.isEmpty) = [] := by
    rw [List.filter_eq_nil_iff]
    intro s hs
    simp [h s hs]
  rw [removeAll, hnone]
  rfl

namespace View

/-! ## A paragraph with a verbatim region -/

/-- A paragraph around a verbatim region. -/
def verbatimSource (v : Text) : Text := "<p>@verbatim" ++ v ++ "@endverbatim</p>"

/-- What is read of it in place of its region. -/
def protectedSource : Text := "<p>__VERBATIM_BLOCK_0__</p>"

theorem verbatimSource_eq (v : Text) :
    verbatimSource v = "<p>" ++ (Region.ofContent v ++ "</p>") := by
  have hopening : "<p>@verbatim".toList = "<p>".toList ++ "@verbatim".toList := by decide
  have hclosing : "@endverbatim</p>".toList = "@endverbatim".toList ++ "</p>".toList := by decide
  unfold verbatimSource
  rw [hopening, hclosing, Region.ofContent_append]
  simp only [List.append_assoc]

theorem trim_verbatimSource (v : Text) : Text.trim (verbatimSource v) = verbatimSource v := by
  have hfirst : ∃ t, verbatimSource v = '<' :: t := by
    unfold verbatimSource
    exact ⟨_, rfl⟩
  have hlast : ∃ t, verbatimSource v = t ++ ['>'] := by
    have hclosing : "@endverbatim</p>".toList = "@endverbatim</p".toList ++ ['>'] := by decide
    unfold verbatimSource
    rw [hclosing, ← List.append_assoc]
    exact ⟨_, rfl⟩
  obtain ⟨t, ht⟩ := hfirst
  obtain ⟨u, hu⟩ := hlast
  refine Text.trim_eq_self_of_ends ?_ ?_
  · rw [ht]
    exact (by decide : isBlank '<' = false)
  · rw [hu, List.getLast?_concat]
    decide

/-- A comment would have to open in the content. -/
theorem stripComments_verbatimSource {v : Text} (hstart : v.head? = some '\n')
    (hcomment : ¬ "\x7b\x7b--".toList <:+: v) :
    Region.stripComments (verbatimSource v) = verbatimSource v := by
  have hopens : ¬ "\x7b\x7b--".toList <:+: verbatimSource v := by
    obtain ⟨v, rfl⟩ := List.head?_eq_some_iff.1 hstart
    have hclosing : "@endverbatim</p>".toList = '@' :: "endverbatim</p>".toList := by decide
    have hparts : verbatimSource ('\n' :: v) =
        "<p>@verbatim".toList ++ '\n' :: (v ++ '@' :: "endverbatim</p>".toList) := by
      unfold verbatimSource
      rw [hclosing, List.append_assoc, List.cons_append]
    have hnot : ∀ t : Text, '\x7b' ∉ t → ¬ "\x7b\x7b--".toList <:+: t := fun t ht hstands =>
      ht (hstands.subset (by decide))
    have hcontent : ¬ "\x7b\x7b--".toList <:+: v := fun hstands =>
      hcomment (hstands.trans (List.suffix_cons _ v).isInfix)
    rw [hparts, Text.isInfix_append_cons_iff (by decide), Text.isInfix_append_cons_iff (by decide),
      not_or, not_or]
    exact ⟨hnot _ (by decide), hcontent, hnot _ (by decide)⟩
  refine Text.substitute_eq_self fun before c cs hsuffix => ?_
  have hafter : Text.after? "\x7b\x7b--" (c :: cs) = none := by
    rw [Text.after?_eq_none_iff]
    intro hprefix
    exact hopens (List.IsInfix.trans hprefix.isInfix hsuffix.isInfix)
  rw [Region.comment?, hafter]
  rfl

theorem body_verbatimSource {v : Text} (hstart : v.head? = some '\n')
    (hend : ¬ "@endverbatim".toList <:+: v) :
    Body.ofTemplate (verbatimSource v) = { text := protectedSource, verbatim := [v] } := by
  have hword : v.head?.any isWordChar = false := by
    rw [hstart]
    decide
  have hprotect : Verbatim.protect (verbatimSource v) = protectedSource := by
    rw [verbatimSource_eq, Verbatim.protect_region (by decide) (by decide) hword hend]
    decide
  have hcontents : Verbatim.contents (verbatimSource v) = [v] := by
    rw [verbatimSource_eq, Verbatim.contents_region (by decide) (by decide) hword hend]
  unfold Body.ofTemplate
  rw [hprotect, hcontents]
  refine congrArg (Body.mk · [v]) ?_
  decide +kernel

theorem run_text (bindings : Bindings) (t : Text) :
    (Machine.run bindings [.text t]).lines = Text.splitOn '\n' (Markup.compile bindings t) ∧
      (Machine.run bindings [.text t]).sections = [] := by
  have hrun : Machine.run bindings [.text t] = (Machine.start bindings).text t := rfl
  rw [hrun, Machine.text, Machine.emit]
  exact ⟨List.nil_append _, rfl⟩

theorem run_protectedSource (bindings : Bindings) :
    (Machine.run bindings (Token.ofBody protectedSource)).template = protectedSource ∧
      (Machine.run bindings (Token.ofBody protectedSource)).sections = [] := by
  have htokens : Token.ofBody protectedSource = [.text protectedSource] := by decide +kernel
  have hcompile : Markup.compile bindings protectedSource = protectedSource :=
    Markup.compile_eq_self bindings (by decide) (by decide) (by decide)
  obtain ⟨hlines, hsections⟩ := run_text bindings protectedSource
  rw [hcompile, Text.splitOn_of_notMem (by decide)] at hlines
  rw [htokens, Machine.template, hlines, hsections]
  exact ⟨rfl, rfl⟩

/-- What a view with a verbatim region is read as. -/
theorem ofTemplate_verbatimSource (shared : SharedCode) (name : Text) {v : Text}
    (hstart : v.head? = some '\n') (hend : ¬ "@endverbatim".toList <:+: v)
    (hcomment : ¬ "\x7b\x7b--".toList <:+: v) :
    let view := ofTemplate shared (verbatimSource v) name
    view.verbatim = [v] ∧ view.template = protectedSource ∧ view.before = [] ∧ view.after = [] ∧
      ∀ s ∈ view.sections, s.fragment = [] := by
  have hsource : Region.stripComments (Text.trim (verbatimSource v)) = verbatimSource v := by
    rw [trim_verbatimSource, stripComments_verbatimSource hstart hcomment]
  have hbody := body_verbatimSource hstart hend
  have hunwrap : unwrap protectedSource = { template := protectedSource } := by
    have hsplit : WrapperSplit.ofBody? protectedSource = none := by decide +kernel
    rw [unwrap, hsplit]
  obtain ⟨htemplate, hsections⟩ := run_protectedSource (Declarations.read (verbatimSource v)).bindings
  refine ⟨?_, ?_, ?_, ?_, ?_⟩
  · simp only [ofTemplate, hsource, hbody]
  · simp only [ofTemplate, hsource, hbody, htemplate, hunwrap]
  · simp only [ofTemplate, hsource, hbody, htemplate, hunwrap]
  · simp only [ofTemplate, hsource, hbody, htemplate, hunwrap]
  · intro s hs
    simp only [ofTemplate, hsource, hbody, hsections] at hs
    obtain ⟨s', hs', rfl⟩ := List.mem_map.1 hs
    rcases Section.fragment_foldl_attachScript hs' with hnil | ⟨s'', hs'', -⟩
    · exact hnil
    · cases hs''

theorem renderTemplate_verbatimSource (shared : SharedCode) (name : Text) {v : Text}
    (hstart : v.head? = some '\n') (hend : ¬ "@endverbatim".toList <:+: v)
    (hcomment : ¬ "\x7b\x7b--".toList <:+: v) :
    (ofTemplate shared (verbatimSource v) name).renderTemplate =
      Template.rename ("<p>" ++ Quoted.template v ++ "</p>") := by
  obtain ⟨hverbatim, htemplate, -, -, hfragments⟩ :=
    ofTemplate_verbatimSource shared name hstart hend hcomment
  have hstatic : Section.removeAll (ofTemplate shared (verbatimSource v) name).staticSections
      protectedSource = protectedSource :=
    Section.removeAll_eq_self (fun s hs => hfragments s (List.mem_filter.1 hs).1) _
  have hrestore : Verbatim.restore [v] protectedSource = "<p>" ++ Quoted.template v ++ "</p>" := by
    have hmarked := Verbatim.restore_marked [v] ⟨"<p>", by decide⟩ [(.ofNat 0, ⟨"</p>", by decide⟩)]
    have hfilled : (Verbatim.Slot.ofNat 0).filled [v] = Quoted.template v := by
      rw [Verbatim.Slot.filled, Verbatim.Slot.number_ofNat]
      rfl
    simp only [Verbatim.marked, List.flatMap_singleton, Verbatim.Slot.text_ofNat, hfilled] at hmarked
    exact hmarked.trans (List.append_assoc ..).symm
  rw [renderTemplate, htemplate, hstatic, ite_self, finish, hverbatim, Template.finish_eq, hrestore]

/-- **What a verbatim region comes out as.** Rendering a paragraph around a verbatim region assigns
one template literal. Its body is the escaped content between the tags, in which the calls have got
their final names; so it is the escaped content itself exactly if none of those calls stands in the
content. -/
theorem verbatim_literal_iff (shared : SharedCode) (name : Text) {v : Text}
    (hstart : v.head? = some '\n') (hend : ¬ "@endverbatim".toList <:+: v)
    (hcomment : ¬ "\x7b\x7b--".toList <:+: v) :
    let view := ofTemplate shared (verbatimSource v) name
    let body : Text := "<p>" ++ Quoted.template v ++ "</p>"
    Script.literalsOf view.render.body = [Template.rename body] ∧
    guardedAssign output (Template.rename body) true ∈ view.render.body ∧
    Script.literalText (Template.rename body) <:+: (compile shared (verbatimSource v) name).render ∧
    (Script.literalsOf view.render.body = [body] ↔
      ∀ call, Template.IsOldCall call → ¬ call <:+: v) := by
  intro view body
  obtain ⟨-, -, hbefore, hafter, -⟩ := ofTemplate_verbatimSource shared name hstart hend hcomment
  have htemplate : view.renderTemplate = Template.rename body :=
    renderTemplate_verbatimSource shared name hstart hend hcomment
  have hliterals : Script.literalsOf view.render.body = [Template.rename body] := by
    rw [literalsOf_render, htemplate, hbefore, hafter]
    rfl
  refine ⟨hliterals, ?_, ?_, ?_⟩
  · rw [← htemplate, render]
    simp
  · exact view.render.literal_isInfix_print 2 (by simp [hliterals])
  · rw [hliterals, ← Template.rename_element_eq_self_iff, List.singleton_inj]

/-- A content that mentions the call of a text. -/
def mentionedCall : Text := "\nApp.View.text(x)"

/-- The call that the content mentions is changed. -/
theorem verbatim_literal_iff_mentionedCall :
    mentionedCall.head? = some '\n' ∧ ¬ "@endverbatim".toList <:+: mentionedCall ∧
      ¬ "\x7b\x7b--".toList <:+: mentionedCall ∧
      Script.literalsOf (ofTemplate {} (verbatimSource mentionedCall) "v").render.body =
        ["<p>\nthis.__text(x)</p>".toList] ∧
      Script.literalsOf (ofTemplate {} (verbatimSource mentionedCall) "v").render.body ≠
        ["<p>\nApp.View.text(x)</p>".toList] := by
  have hstart : mentionedCall.head? = some '\n' := by decide
  have hend : ¬ "@endverbatim".toList <:+: mentionedCall := by decide +kernel
  have hcomment : ¬ "\x7b\x7b--".toList <:+: mentionedCall := by decide +kernel
  obtain ⟨hliterals, -, -, hiff⟩ := verbatim_literal_iff {} "v" hstart hend hcomment
  have hrenamed : Template.rename ("<p>" ++ Quoted.template mentionedCall ++ "</p>") =
      "<p>\nthis.__text(x)</p>" := by
    decide +kernel
  have hbody : ("<p>" ++ Quoted.template mentionedCall ++ "</p>" : Text) =
      "<p>\nApp.View.text(x)</p>" := by
    decide +kernel
  rw [hrenamed] at hliterals
  rw [hbody] at hiff
  refine ⟨hstart, hend, hcomment, hliterals, fun hsame => ?_⟩
  exact hiff.1 hsame _ .showText (by decide +kernel)

end View
end BladeView
