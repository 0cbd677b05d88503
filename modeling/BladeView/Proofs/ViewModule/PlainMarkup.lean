import Mathlib.Data.List.Infix
import BladeView.Proofs.Declaration.Rendered
import BladeView.Proofs.Markup.YieldLists
import BladeView.Proofs.Script.Backticks
import BladeView.Proofs.Source.Subscribed
import BladeView.Proofs.Text.Keyword
import BladeView.Proofs.Token.Lines
import BladeView.Proofs.ViewModule.VerbatimText

/-!
# Plain markup in a rendered view

A source without directives, echoes, setup scripts and preformatted text is one run of text. Its
lines are trimmed, its backticks are escaped, the lists of yielded attributes are merged and the
calls get their final names; then it is assigned as one template literal. Backslashes are not
escaped, so the value of the literal is the text itself only if it holds none, and none of what the
passes change.

## Main statements

* `View.plain_literal_iff`: the literal that a view without directives shows, and its value.
-/
namespace BladeView

open Text (join splitOn trimLines weight)
open Attribute (HasTwoLists mergeLines setting setting_yieldList yieldList)

/-! ## Passes that see nothing -/

namespace Region

theorem stripComments_eq_self {t : Text} (h : '\x7b' ∉ t) : stripComments t = t := by
  refine Text.substitute_eq_self fun before c cs hsuffix => ?_
  have hafter : Text.after? "\x7b\x7b--" (c :: cs) = none := by
    rw [Text.after?_eq_none_iff]
    intro hstarts
    exact h (hsuffix.subset (hstarts.subset (by decide)))
  rw [comment?, hafter]
  rfl

end Region

namespace Verbatim

theorem contents_eq_nil {t : Text} (h : '@' ∉ t) : contents t = [] := by
  have happend := contents_append h []
  rwa [List.append_nil] at happend

theorem protect_eq_self {t : Text} (h : '@' ∉ t) : protect t = t := by
  have happend := protectFrom_append h 0 []
  rw [List.append_nil] at happend
  exact happend.trans (List.append_nil t)

/-- Placeholders without contents stand for themselves. -/
theorem restore_nil (t : Text) : restore [] t = t := by
  have hexpand : ∀ digits, expand [] digits = placeholderHead ++ digits ++ "__" := by
    intro digits
    unfold expand
    cases index? digits <;> rfl
  induction t using Text.substitute_induction (@consumes_readPlaceholder? []) with
  | nil => rfl
  | found t new rest hread ih =>
    obtain ⟨⟨digits, rest'⟩, hdigits, hnew⟩ := Option.map_eq_some_iff.1 hread
    obtain ⟨rfl, rfl⟩ := Prod.mk.inj hnew
    rw [restore_found hdigits, ih, hexpand, (readPlaceholder?_eq_append hdigits).2]
    simp only [List.append_assoc]
  | other c t hread ih => rw [restore_other (Option.map_eq_none_iff.1 hread), ih]

end Verbatim

namespace Body

theorem without_eq_self {reader : Text → Option Text} {k : Char}
    (hreader : BeginsWith k (removing reader)) {t : Text} (h : k ∉ t) : without reader t = t := by
  refine Text.substitute_eq_self fun before c cs hsuffix => hreader before c cs ?_
  rintro rfl
  exact h (hsuffix.subset List.mem_cons_self)

theorem without_setupScript?_eq_self {t : Text}
    (h : ∀ s, s <:+ t → Text.afterFold? "<script" s = none) : without setupScript? t = t := by
  refine Text.substitute_eq_self fun before c cs hsuffix => ?_
  rw [removing, setupScript?, Region.script?, Text.afterFoldWord?, h _ hsuffix]
  rfl

theorem removeDirectives_eq_self {names : List Text} {needsArgs : Bool} {t : Text} (h : '@' ∉ t) :
    removeDirectives names needsArgs t = t := by
  refine Text.substitute_eq_self fun before c cs hsuffix => ?_
  have hnone : ∀ before s, s <:+ c :: cs → directive? names needsArgs before s = none := by
    intro before s hs
    cases s with
    | nil => rfl
    | cons d s =>
      refine directive?_eq_none ?_ s
      rintro rfl
      exact h (hsuffix.subset (hs.subset List.mem_cons_self))
  exact removingDirectives_eq_none (fun before => hnone before _ List.suffix_rfl)
    (fun before => hnone before _ (List.dropWhile_suffix _)) before

theorem removeStandaloneSubscribe_eq_self {t : Text} (h : '@' ∉ t) :
    removeStandaloneSubscribe t = t := by
  refine removeStandaloneSubscribe_of_forall fun line hline hsubscribes => ?_
  obtain ⟨value, hsays⟩ := hsubscribes
  obtain ⟨rest, hrest⟩ := hsays.exists_after
  refine h (Text.mem_of_mem_splitOn hline (Text.mem_of_mem_trim ?_))
  rw [Text.after?_eq_some.1 hrest]
  exact List.mem_cons_self

end Body

/-! ## One run of text -/

/-- A source that is one run of text: no at sign, no opening brace, and neither a script element nor
preformatted text begins in it. -/
structure IsPlainMarkup (t : Text) : Prop where
  no_sign : '@' ∉ t
  no_brace : '\x7b' ∉ t
  no_script : ∀ s, s <:+ t → Text.afterFold? "<script" s = none
  no_pre : ¬ "<pre".toList <:+: t

namespace IsPlainMarkup

variable {t : Text}

theorem trim (h : IsPlainMarkup t) : IsPlainMarkup (Text.trim t) := by
  obtain ⟨before, after, heq, -, -⟩ := Text.trim_spec t
  have hpart : Text.trim t <:+: t := ⟨before, after, heq.symm⟩
  refine ⟨fun hmem => h.no_sign (hpart.subset hmem), fun hmem => h.no_brace (hpart.subset hmem),
    fun s hs => ?_, fun hpre => h.no_pre (hpre.trans hpart)⟩
  rw [Option.eq_none_iff_forall_ne_some]
  intro rest hrest
  obtain ⟨p, rfl, hp⟩ := Text.afterFold?_eq_some hrest
  obtain ⟨front, hfront⟩ := hs
  have hsuffix : p ++ (rest ++ after) <:+ t := ⟨before ++ front, by rw [heq, ← hfront]; simp⟩
  cases (h.no_script _ hsuffix).symm.trans (Text.afterFold?_append hp _)

theorem backticks (h : IsPlainMarkup t) : IsPlainMarkup (Quoted.backticks t) where
  no_sign := Quoted.notMem_backticks (by decide) (by decide) h.no_sign
  no_brace := Quoted.notMem_backticks (by decide) (by decide) h.no_brace
  no_script := by
    intro s hs
    rw [Option.eq_none_iff_forall_ne_some]
    intro rest hrest
    obtain ⟨p, rfl, hp⟩ := Text.afterFold?_eq_some hrest
    have hfirst : ∃ p', p = '<' :: p' := by
      rw [show "<script".toList = '<' :: "script".toList from rfl] at hp
      cases hp with
      | cons hc _ => exact ⟨_, by rw [eq_of_foldsTo rfl hc]⟩
    have hzero : '\x00' ∉ p := Text.notMem_of_folds hp (Text.forall_mem_of_all (by decide))
    have hslash : '\\' ∉ p := Text.notMem_of_folds hp (Text.forall_mem_of_all (by decide))
    obtain ⟨p, rfl⟩ := hfirst
    have hstands : '<' :: p <:+: Quoted.backticks t :=
      (List.prefix_append _ _).isInfix.trans hs.isInfix
    obtain ⟨front, back, hsplit⟩ :=
      Quoted.isInfix_of_isInfix_backticks hzero hslash (by decide) (by decide) hstands
    have hsuffix : '<' :: p ++ back <:+ t := ⟨front, by rw [← hsplit, List.append_assoc]⟩
    cases (h.no_script _ hsuffix).symm.trans (Text.afterFold?_append hp back)
  no_pre := by
    intro hpre
    exact h.no_pre (Quoted.isInfix_of_isInfix_backticks (by decide) (by decide) (by decide)
      (by decide) hpre)

theorem body_eq (h : IsPlainMarkup t) :
    Body.ofTemplate t = { text := Quoted.backticks t, verbatim := [] } := by
  have hescaped := h.backticks
  unfold Body.ofTemplate
  rw [Verbatim.contents_eq_nil h.no_sign, Verbatim.protect_eq_self h.no_sign]
  simp only [Body.without_setupScript?_eq_self hescaped.no_script,
    Body.without_eq_self Body.beginsWith_viewRegion? hescaped.no_sign,
    Body.without_eq_self Body.beginsWith_dontSubscribe? hescaped.no_sign,
    Body.removeDirectives_eq_self hescaped.no_sign,
    Body.removeStandaloneSubscribe_eq_self hescaped.no_sign]

end IsPlainMarkup

/-! ## Tokens -/

namespace Token

theorem head?_ne {t : Text} (h : '@' ∉ t) : t.head? ≠ some '@' := fun hhead =>
  h (List.mem_of_mem_head? hhead)

/-- A line of plain text is trimmed. -/
theorem items_plain {t : Text} (hne : t ≠ []) (hsign : '@' ∉ t) (hpre : ¬ "<pre".toList <:+: t) :
    items {} t = .line (Text.trim (firstLine t)) :: items {} (afterLine t) := by
  have hline : '@' ∉ Text.trimStart (firstLine t) := fun hmem =>
    hsign ((List.takeWhile_prefix _).subset ((Text.trimStart_suffix _).subset hmem))
  have hstart : startsRegion t = false := by
    rw [startsRegion, startsWithAny_of_head? (head?_ne hline),
      startsWithAny_of_head? (head?_ne hline)]
    rfl
  have hdirective : directive? (t.drop (lineIndent t).length) = none :=
    directive?_of_head? (head?_ne fun hmem => hsign ((List.drop_suffix _ t).subset hmem))
  have hopens : Text.contains "<pre" (firstLine t) = false := by
    rw [← Bool.not_eq_true, Text.contains_iff (by decide)]
    exact fun hstands => hpre (hstands.trans (List.takeWhile_prefix _).isInfix)
  have hafter : preformattedAfter false (firstLine t) = false := by
    rw [preformattedAfter, hopens]
    split <;> rfl
  rw [items_text rfl hne hstart hdirective, hafter]
  rfl

/-- Lines of plain text are read one after the other. -/
theorem items_lines {lines : List Text} (hlast : lines.getLast? ≠ some [])
    (hbreak : ∀ line ∈ lines, '\n' ∉ line) (hsign : '@' ∉ join "\n" lines)
    (hpre : ¬ "<pre".toList <:+: join "\n" lines) :
    items {} (join "\n" lines) = lines.map fun line => .line (Text.trim line) := by
  induction lines with
  | nil => rfl
  | cons first rest ih =>
    have hfirst := hbreak first List.mem_cons_self
    cases rest with
    | nil =>
      have hne : first ≠ [] := fun h => hlast (by rw [h]; rfl)
      rw [Text.join_singleton] at hsign hpre ⊢
      rw [items_plain hne hsign hpre, firstLine_eq_self hfirst, afterLine_eq_nil hfirst]
      rfl
    | cons second rest =>
      have hsplit : join "\n" (first :: second :: rest) =
          first ++ '\n' :: join "\n" (second :: rest) := Text.join_line_cons ..
      rw [hsplit] at hsign hpre ⊢
      have hrest : join "\n" (second :: rest) <:+
          first ++ '\n' :: join "\n" (second :: rest) :=
        (List.suffix_cons _ _).trans (List.suffix_append _ _)
      have hlines := ih (by rwa [List.getLast?_cons_cons] at hlast)
        (fun line hline => hbreak line (List.mem_cons_of_mem _ hline))
        (fun hmem => hsign (hrest.subset hmem)) (fun hstands => hpre (hstands.trans hrest.isInfix))
      rw [items_plain (by simp) hsign hpre, firstLine_line hfirst, afterLine_line hfirst, hlines]
      rfl

theorem ofItems_lines (f : Text → Text) {lines : List Text} (hne : lines ≠ []) :
    ofItems (lines.map fun line => .line (f line)) = [.text (join "\n" (lines.map f))] := by
  induction lines with
  | nil => exact absurd rfl hne
  | cons first rest ih =>
    cases rest with
    | nil => rw [List.map_singleton, List.map_singleton, Text.join_singleton, ofItems, ofItems]
    | cons second rest =>
      rw [List.map_cons, ofItems, ih (List.cons_ne_nil _ _), List.map_cons (l := second :: rest),
        Text.join_cons_of_ne_nil _ _ (by simp)]

/-- A plain body is one run of text. -/
theorem ofBody_plain {t : Text} (hne : t ≠ []) (hlast : t.getLast? ≠ some '\n') (hsign : '@' ∉ t)
    (hpre : ¬ "<pre".toList <:+: t) : ofBody t = [.text (trimLines t)] := by
  have hjoin : join "\n" (splitOn '\n' t) = t := Text.join_splitOn '\n' t
  have hend : (splitOn '\n' t).getLast? ≠ some [] := by
    intro hempty
    obtain ⟨front, hfront⟩ := List.getLast?_eq_some_iff.1 hempty
    rw [hfront] at hjoin
    cases front with
    | nil => exact hne hjoin.symm
    | cons line front =>
      rw [Text.join_concat _ _ (List.cons_ne_nil _ _), List.append_nil] at hjoin
      exact hlast (by rw [← hjoin]; exact List.getLast?_concat)
  have hitems := items_lines hend (fun line hline => Text.notMem_of_mem_splitOn hline)
    (by rwa [hjoin]) (by rwa [hjoin])
  rw [hjoin] at hitems
  rw [ofBody_eq, hitems]
  exact ofItems_lines Text.trim (Text.splitOn_ne_nil '\n' t)

end Token

/-! ## Calls that get other names -/

namespace Template

open Script

theorem lightens_rename : Text.Lightens bodyWeight rename := by
  have hupdates : Text.Lightens bodyWeight directUpdates := by
    refine Text.lightens_substitute consumes_directUpdate? fun t new rest hread => ?_
    obtain ⟨call, more, rfl, rfl, rfl⟩ := UpdateCall.exists_of_directUpdate? hread
    have hname : weight bodyWeight "updateStateByKey(" = 17 := by decide
    have hnew : weight bodyWeight "update$" = 7 := by decide
    have hparen : weight bodyWeight "(" = 1 := by decide
    have hrest := Text.weight_trimStart (fun _ => bodyWeight_of_isBlank) more
    unfold UpdateCall.text
    simp only [Text.weight_append, Text.weight_cons, hname, hnew, hparen, hrest]
    omega
  exact hupdates.comp
    ((Text.lightens_replace (by decide)).comp (Text.lightens_replace (by decide)))

theorem brace_notMem_rename {t : Text} (h : '\x7b' ∉ t) : '\x7b' ∉ rename t := by
  refine Text.brace_notMem_substitute consumes_directUpdate? (fun s new rest hread => ?_) ?_
  · obtain ⟨call, more, -, rfl, -⟩ := UpdateCall.exists_of_directUpdate? hread
    have hcall := (IsOldCall.updateState call).not_mem (c := '\x7b') (by decide)
    have hkey : '\x7b' ∉ call.key := by
      refine fun hmem => hcall ?_
      unfold UpdateCall.text
      simp [hmem]
    rw [List.mem_append, List.mem_append, not_or, not_or]
    exact ⟨⟨by decide, hkey⟩, by decide⟩
  · exact Text.notMem_replace (by decide) (by decide)
      (Text.notMem_replace (by decide) (by decide) h)

end Template

/-! ## The literal -/

namespace View

open Script

/-- A text without braces has no wrapper. -/
theorem unwrap_eq {t : Text} (h : '\x7b' ∉ t) : unwrap t = { template := t } := by
  have hmarker : ∀ s, s <:+ t → WrapperSplit.marker? s = none := by
    intro s hs
    rw [Option.eq_none_iff_forall_ne_some]
    intro object hobject
    obtain ⟨inside, hname, hobject⟩ := Option.bind_eq_some_iff.1 hobject
    obtain ⟨rest, hequals, hobject⟩ := Option.bind_eq_some_iff.1 hobject
    have hinside : inside <:+ s := ⟨_, (Text.after?_eq_some.1 hname).symm⟩
    have hrest : rest <:+ s :=
      (List.IsSuffix.trans ⟨_, (Text.after?_eq_some.1 hequals).symm⟩
        (Text.trimStart_suffix inside)).trans hinside
    dsimp only at hobject
    obtain ⟨hopens, hobject⟩ := Option.ite_none_right_eq_some.1 hobject
    obtain ⟨more, hmore⟩ := List.isPrefixOf_iff_prefix.1 hopens
    have hbrace : '\x7b' ∈ Text.trimStart rest := by
      rw [← hmore]
      exact List.mem_append_left _ (by decide)
    exact h (hs.subset (hrest.subset ((Text.trimStart_suffix rest).subset hbrace)))
  have hsplit : WrapperSplit.ofBody? t = none := by
    rw [WrapperSplit.ofBody?, Text.readFirst?_eq_none fun _ s hs => by rw [hmarker s hs]; rfl]
    rfl
  rw [unwrap, hsplit]

/-- The body of the literal that a plain source is shown with. -/
def plainBody (source : Text) : Text :=
  Template.rename (mergeLines (trimLines (Quoted.backticks (Text.trim source))))

theorem run_plain (bindings : Bindings) {t : Text} (hlast : t.getLast? ≠ some '\n')
    (hsign : '@' ∉ t) (hbrace : '\x7b' ∉ t) (hpre : ¬ "<pre".toList <:+: t) :
    (Machine.run bindings (Token.ofBody t)).template = mergeLines (trimLines t) ∧
      (Machine.run bindings (Token.ofBody t)).sections = [] := by
  by_cases hne : t = []
  · subst hne
    exact ⟨rfl, rfl⟩
  · obtain ⟨hlines, hsections⟩ := run_text bindings (trimLines t)
    rw [Markup.compile_eq_mergeLines bindings (Text.notMem_trimLines (by decide) hsign)
      (Text.notMem_trimLines (by decide) hbrace)] at hlines
    rw [Token.ofBody_plain hne hlast hsign hpre, Machine.template, hlines, hsections]
    exact ⟨Text.join_splitOn '\n' _, rfl⟩

/-- What a plain source is read as. -/
theorem ofTemplate_plain (shared : SharedCode) (name : Text) {source : Text}
    (h : IsPlainMarkup source) :
    let view := ofTemplate shared source name
    view.renderTemplate = plainBody source ∧ view.before = [] ∧ view.after = [] := by
  intro view
  have hsource : Region.stripComments (Text.trim source) = Text.trim source :=
    Region.stripComments_eq_self h.trim.no_brace
  have hescaped := h.trim.backticks
  have hlast : (Quoted.backticks (Text.trim source)).getLast? ≠ some '\n' := by
    intro hbreak
    have hblank := Quoted.getLast?_backticks (Text.getLast?_trim source)
    rw [hbreak] at hblank
    cases hblank
  obtain ⟨htemplate, hsections⟩ := run_plain (Declarations.read (Text.trim source)).bindings hlast
    hescaped.no_sign hescaped.no_brace hescaped.no_pre
  have hbrace : '\x7b' ∉ mergeLines
      (trimLines (Quoted.backticks (Text.trim source))) :=
    Attribute.notMem_mergeLines (by decide) (by decide) (by decide)
      (Text.notMem_trimLines (by decide) hescaped.no_brace)
  have hview : view.template = mergeLines
      (trimLines (Quoted.backticks (Text.trim source))) := by
    simp only [view, ofTemplate, hsource, h.trim.body_eq, htemplate, unwrap_eq hbrace]
  have hverbatim : view.verbatim = [] := by
    simp only [view, ofTemplate, hsource, h.trim.body_eq]
  have hfragments : ∀ s ∈ view.sections, s.fragment = [] := by
    intro s hs
    simp only [view, ofTemplate, hsource, h.trim.body_eq, hsections] at hs
    obtain ⟨s', hs', rfl⟩ := List.mem_map.1 hs
    rcases Section.fragment_foldl_attachScript hs' with hnil | ⟨s'', hs'', -⟩
    · exact hnil
    · cases hs''
  refine ⟨?_, ?_, ?_⟩
  · have hstatic : Section.removeAll view.staticSections view.template = view.template :=
      Section.removeAll_eq_self (fun s hs => hfragments s (List.mem_filter.1 hs).1) _
    rw [renderTemplate, hstatic, ite_self, finish, hverbatim, Template.finish_eq,
      Verbatim.restore_nil, hview, plainBody]
  · simp only [view, ofTemplate, hsource, h.trim.body_eq, htemplate, unwrap_eq hbrace]
  · simp only [view, ofTemplate, hsource, h.trim.body_eq, htemplate, unwrap_eq hbrace]

/-! ## The value of the literal -/

/-- The texts that a literal shows as they are, if their backticks are escaped: no backslash, no
mark of a backtick, no call that gets another name, and no two lists on a line. -/
structure IsKept (t : Text) : Prop where
  no_backslash : '\\' ∉ t
  no_mark : ¬ Quoted.backtickMark <:+: t
  no_call : ∀ call, Template.IsOldCall call → ¬ call <:+: t
  no_lists : ∀ line ∈ splitOn '\n' t, ¬ HasTwoLists line

theorem hasTwoLists_ticked_iff {line : Text} (h : '\\' ∉ line) :
    HasTwoLists (ticked line) ↔ HasTwoLists line := by
  constructor
  · rintro ⟨before, x, between, y, after, heq⟩
    have hsetting : ∀ x : Text, (setting yieldList x).filter (· != '\\') =
        setting yieldList (x.filter (· != '\\')) := by
      intro x
      rw [setting_yieldList, setting_yieldList, List.filter_append, List.filter_append]
      rfl
    have hfilter := congrArg (List.filter (· != '\\')) heq
    rw [filter_ticked h] at hfilter
    simp only [List.filter_append, hsetting] at hfilter
    exact ⟨_, _, _, _, _, hfilter⟩
  · rintro ⟨before, x, between, y, after, rfl⟩
    have hsetting : ∀ x : Text, ticked (setting yieldList x) =
        setting yieldList (ticked x) := by
      intro x
      rw [setting_yieldList, setting_yieldList, ticked_append, ticked_append]
      rfl
    simp only [ticked_append, hsetting]
    exact ⟨_, _, _, _, _, rfl⟩

/-- A text that is kept is only escaped. -/
theorem IsKept.plainBody_eq {source : Text} (h : IsKept (trimLines (Text.trim source))) :
    plainBody source = ticked (trimLines (Text.trim source)) := by
  have hslash : '\\' ∉ Text.trim source := by
    rw [← Text.mem_trimLines_iff (by decide)]
    exact h.no_backslash
  have hmark : ¬ Quoted.backtickMark <:+: Text.trim source := by
    rw [← Text.isInfix_trimLines_iff (by decide) (Text.forall_mem_of_all (by decide))]
    exact h.no_mark
  have hlists : ∀ line ∈ splitOn '\n' (ticked (trimLines (Text.trim source))),
      ¬ HasTwoLists line := by
    intro line hline
    rw [splitOn_ticked] at hline
    obtain ⟨line', hline', rfl⟩ := List.mem_map.1 hline
    rw [hasTwoLists_ticked_iff fun hmem => h.no_backslash (Text.mem_of_mem_splitOn hline' hmem)]
    exact h.no_lists line' hline'
  have hcalls : ∀ call, Template.IsOldCall call →
      ¬ call <:+: ticked (trimLines (Text.trim source)) := by
    intro call hcall
    rw [Quoted.isInfix_ticked_iff (hcall.not_mem (by decide)) (hcall.not_mem (by decide))
      h.no_backslash]
    exact h.no_call call hcall
  rw [plainBody, Quoted.backticks_eq_ticked hslash hmark, ← ticked_trimLines,
    Attribute.mergeLines_eq_self hlists, (Template.rename_eq_self_iff _).2 hcalls]

/-- A literal whose value weighs as much as the text has lost nothing in any pass. -/
theorem isKept_of_weight {source : Text} {value : List Nat}
    (hvalue : cook? (plainBody source) = some value)
    (hweight : weight unitWeight value =
      weight charWeight (trimLines (Text.trim source))) :
    IsKept (trimLines (Text.trim source)) := by
  have hblank : ∀ c, isBlank c = true → bodyWeight c = 0 := fun _ => bodyWeight_of_isBlank
  obtain ⟨hcooked, hticked⟩ := weight_le_of_cook? hvalue
  rw [Text.weight_trimLines fun _ => charWeight_of_isBlank] at hweight
  -- the weights of the text on its way: escaped, trimmed, merged, with the final calls
  have hescaped := Quoted.weight_backticks_le (Text.trim source)
  have htrimmed := Text.weight_trimLines hblank (Quoted.backticks (Text.trim source))
  have hmerged := Attribute.weight_mergeLines_le hblank (by decide)
    (trimLines (Quoted.backticks (Text.trim source)))
  have hrenamed := Template.lightens_rename.weight_le
    (mergeLines (trimLines (Quoted.backticks (Text.trim source))))
  rw [← plainBody] at hrenamed
  obtain ⟨hbackticks, hmark⟩ :=
    (Quoted.weight_backticks_cases (Text.trim source)).resolve_right (by omega)
  have hlists := (Attribute.weight_mergeLines_cases hblank (by decide)
    (trimLines (Quoted.backticks (Text.trim source)))).resolve_right (by omega)
  have hrename := (Template.lightens_rename (mergeLines
    (trimLines (Quoted.backticks (Text.trim source))))).resolve_right
      (by rw [← plainBody]; omega)
  have hcalls := (Template.rename_eq_self_iff _).1 hrename
  obtain ⟨x, hx, hbody⟩ := hticked (by omega)
  rw [plainBody, hrename] at hbody
  rw [Attribute.mergeLines_eq_self hlists, hbackticks, ← ticked_trimLines] at hbody hcalls
  rw [hbackticks, ← ticked_trimLines, splitOn_ticked] at hlists
  have hslash := backslash_notMem_of_ticked_eq hbody hx
  refine ⟨hslash, ?_, fun call hcall hstands => ?_, fun line hline htwo => ?_⟩
  · rwa [Text.isInfix_trimLines_iff (by decide) (Text.forall_mem_of_all (by decide))]
  · exact hcalls call hcall (Quoted.ticked_isInfix (hcall.not_mem (by decide)) hstands)
  · have hline' : '\\' ∉ line := fun hmem => hslash (Text.mem_of_mem_splitOn hline hmem)
    exact hlists _ (List.mem_map_of_mem hline) ((hasTwoLists_ticked_iff hline').2 htwo)

/-- **What plain markup comes out as.** Rendering a source without directives, echoes, scripts and
preformatted text assigns one template literal without interpolations. With its line ends taken as
line feeds, its value is the trimmed text with every line trimmed just if the text holds no
backslash and nothing that the passes change. -/
theorem plain_literal_iff (shared : SharedCode) (name : Text) {source : Text}
    (h : IsPlainMarkup source) :
    let view := ofTemplate shared source name
    let shown := Text.trimLines (Text.trim source)
    ∃ body, literalsOf view.render.body = [body] ∧
      guardedAssign output body true ∈ view.render.body ∧
      literalText body <:+: (compile shared source name).render ∧
      ¬ "$\x7b".toList <:+: body ∧
      (cook? body = some (textUnits (newlines shown)) ↔ IsKept shown) ∧
      (cook? body = some (textUnits shown) ↔ IsKept shown ∧ '\r' ∉ shown) := by
  intro view shown
  obtain ⟨htemplate, hbefore, hafter⟩ :
      view.renderTemplate = plainBody source ∧ view.before = [] ∧ view.after = [] :=
    ofTemplate_plain shared name h
  have hliterals : literalsOf view.render.body = [plainBody source] := by
    rw [literalsOf_render, htemplate, hbefore, hafter]
    rfl
  have hbrace : '\x7b' ∉ shown := Text.notMem_trimLines (by decide) h.trim.no_brace
  have hkept : IsKept shown → cook? (plainBody source) = some (textUnits (newlines shown)) := by
    intro hkept
    rw [hkept.plainBody_eq, cook?_ticked hkept.no_backslash hbrace]
  refine ⟨plainBody source, hliterals, ?_, ?_, ?_, ⟨fun hvalue => ?_, hkept⟩,
    fun hvalue => ?_, fun hkept' => ?_⟩
  · rw [← htemplate, render]
    simp
  · exact view.render.literal_isInfix_print 2 (by simp [hliterals])
  · intro hopens
    refine Template.brace_notMem_rename ?_ (hopens.subset (by decide))
    exact Attribute.notMem_mergeLines (by decide) (by decide) (by decide)
      (Text.notMem_trimLines (by decide) h.trim.backticks.no_brace)
  · exact isKept_of_weight hvalue (by rw [weight_textUnits, weight_newlines])
  · have hshown := isKept_of_weight hvalue (weight_textUnits _)
    refine ⟨hshown, ?_⟩
    rw [hkept hshown, Option.some.injEq] at hvalue
    exact return_notMem_of_textUnits hvalue
  · rw [hkept hkept'.1, newlines_eq_self hkept'.2]

/-- A paragraph that shows a path with a backslash. -/
def pathMarkup : Text := "<p>C:\\new</p>"

/-- The backslash of the path is read as an escape. -/
theorem plain_literal_iff_pathMarkup :
    IsPlainMarkup pathMarkup ∧
      ∃ body, literalsOf (ofTemplate {} pathMarkup "v").render.body = [body] ∧
        cook? body ≠ some (textUnits pathMarkup) := by
  have hplain : IsPlainMarkup pathMarkup :=
    { no_sign := by decide
      no_brace := by decide
      no_script := by
        have htails : ∀ s ∈ pathMarkup.tails, Text.afterFold? "<script" s = none := by decide
        exact fun s hs => htails s ((List.mem_tails s _).2 hs)
      no_pre := by decide +kernel }
  obtain ⟨body, hliterals, -, -, -, -, hvalue⟩ := plain_literal_iff {} "v" hplain
  have hshown : Text.trimLines (Text.trim pathMarkup) = pathMarkup := by decide
  rw [hshown] at hvalue
  refine ⟨hplain, body, hliterals, fun hsame => ?_⟩
  exact (hvalue.1 hsame).1.no_backslash (by decide)

end View

end BladeView
