import BladeView.Proofs.Text.Calls
import BladeView.Proofs.ViewModule.OldCalls
import Mathlib.Data.List.Basic

/-!
# Calls of sections in finished templates

Finishing a template gives the calls of sections another name. It makes no other calls of sections,
and it does not touch the name of the section that is the first argument of a call, as long as that
name holds no parenthesis. So a finished text holds the call of a section just if the text held it
under one of the two names. A name with parentheses stays in its call if finishing leaves it as it
is where it stands alone.
-/
namespace BladeView

open Quoted (single)
open Text (replace)
open List (append_assoc cons_append cons_prefix_cons eq_nil_or_concat' getLast? mem_cons
  prefix_append suffix_append suffix_cons)

namespace Text

variable {f g w x y piece t : Text} {c : Char}

/-! ## Where a text begins and ends -/

/-- A text whose last character is not in what follows ends before it. -/
theorem concat_prefix_append_iff (hc : c ∉ x) (w front : Text) :
    w ++ [c] <+: front ++ x ↔ w ++ [c] <+: front := by
  constructor
  · intro h
    rcases List.prefix_or_prefix_of_prefix h (prefix_append front x) with hshort | hlong
    · exact hshort
    · obtain ⟨more, hmore⟩ := hlong
      rcases eq_nil_or_concat' more with rfl | ⟨more, d, rfl⟩
      · rw [List.append_nil] at hmore
        exact hmore ▸ List.prefix_rfl
      · rw [← hmore, List.prefix_append_right_inj] at h
        have hd : d = c := by
          simpa [← append_assoc] using (congrArg getLast? hmore)
        exact absurd (h.subset (by simp [hd])) hc
  · exact fun h => h.trans (prefix_append _ _)

/-- A text that ends with the first of some characters does not go beyond another. -/
theorem concat_prefix_concat (hc : c ∉ w) (h : w ++ [c] <+: x ++ c :: y) :
    w ++ [c] <+: x ++ [c] := by
  have hx : x ++ [c] <+: x ++ c :: y := ⟨y, by simp⟩
  rcases List.prefix_or_prefix_of_prefix h hx with hshort | hlong
  · exact hshort
  · rcases List.prefix_concat_iff.mp hlong with heq | hinside
    · exact heq ▸ List.prefix_rfl
    · exact absurd (hinside.subset (by simp)) hc

theorem concat_isInfix_append_iff (hc : c ∉ x) (w t : Text) :
    w ++ [c] <:+: t ++ x ↔ w ++ [c] <:+: t := by
  constructor
  · rintro ⟨front, back, h⟩
    rw [append_assoc] at h
    rcases List.append_eq_append_iff.mp h with ⟨more, rfl, hmore⟩ | ⟨more, rfl, hmore⟩
    · have hprefix : w ++ [c] <+: more ++ x := ⟨back, hmore⟩
      rw [concat_prefix_append_iff hc] at hprefix
      exact hprefix.isInfix.trans (suffix_append _ _).isInfix
    · exact absurd (hmore ▸ by simp) hc
  · exact fun h => h.trans (prefix_append _ _).isInfix

/-- A text does not begin in a piece that lacks one of its characters, if the last character of the
piece does not come before that one. -/
theorem isInfix_append_iff (hc : c ∉ piece) (hlast : ∀ d ∈ piece.getLast?, d ∉ w) (y t : Text) :
    w ++ c :: y <:+: piece ++ t ↔ w ++ c :: y <:+: t := by
  constructor
  · rintro ⟨front, back, h⟩
    rw [append_assoc] at h
    rcases List.append_eq_append_iff.mp h with ⟨more, rfl, hmore⟩ | ⟨more, rfl, hmore⟩
    · rcases eq_nil_or_concat' more with rfl | ⟨more, d, rfl⟩
      · exact ⟨[], back, by simpa using hmore⟩
      · have hbegins : more ++ [d] <+: w ++ c :: (y ++ back) := ⟨t, by rw [← hmore]; simp⟩
        rw [prefix_append_cons_iff fun hmem => hc (List.mem_append_right _ hmem)] at hbegins
        exact absurd (hbegins.subset (by simp)) (hlast d (by simp))
    · exact ⟨more, back, by rw [hmore, append_assoc]⟩
  · exact fun h => h.trans (suffix_append _ _).isInfix

/-! ## Calls with a first argument -/

theorem call_isInfix_paren (hf : '(' ∉ f) (hpiece : '(' ∉ piece) (w t : Text) :
    f ++ '(' :: w <:+: piece ++ '(' :: t ↔ (f <:+ piece ∧ w <+: t) ∨ f ++ '(' :: w <:+: t := by
  constructor
  · rintro ⟨front, back, h⟩
    by_cases hfront : '(' ∈ front
    · obtain ⟨first, more, rfl, hfirst⟩ := List.eq_append_cons_of_mem hfront
      simp only [append_assoc, cons_append] at h
      obtain ⟨-, ht⟩ := append_cons_inj hfirst hpiece h
      exact .inr ⟨more, back, by simpa using ht⟩
    · have hname : '(' ∉ front ++ f := by simp [hfront, hf]
      have hsplit : front ++ f ++ '(' :: (w ++ back) = piece ++ '(' :: t := by simpa using h
      obtain ⟨hend, ht⟩ := append_cons_inj hname hpiece hsplit
      exact .inl ⟨⟨front, hend⟩, back, ht⟩
  · rintro (⟨⟨front, rfl⟩, back, rfl⟩ | h)
    · exact ⟨front, back, by simp⟩
    · exact h.trans ((suffix_cons _ _).trans (suffix_append _ _)).isInfix

theorem prefix_mapCalls_iff {change : Text → Text} (hw : '(' ∉ w)
    (hstart : ∀ piece, w <+: change piece ↔ w <+: piece) (t : Text) :
    w <+: mapCalls change t ↔ w <+: t := by
  by_cases hparen : '(' ∈ t
  · obtain ⟨piece, rest, rfl, hpiece⟩ := List.eq_append_cons_of_mem hparen
    rw [mapCalls_paren _ hpiece, prefix_append_cons_iff hw, prefix_append_cons_iff hw, hstart]
  · rw [mapCalls_of_notMem _ hparen]

/-- Where pieces are changed, a call is found just if one of some calls was there. -/
theorem call_isInfix_mapCalls_iff {change : Text → Text} {olds : List Text} (hf : '(' ∉ f)
    (hw : '(' ∉ w) (hchange : ∀ piece, '(' ∉ piece → '(' ∉ change piece)
    (hstart : ∀ piece, w <+: change piece ↔ w <+: piece) (holds : ∀ old ∈ olds, '(' ∉ old)
    (hend : ∀ piece, f <:+ change piece ↔ ∃ old ∈ olds, old <:+ piece) (t : Text) :
    f ++ '(' :: w <:+: mapCalls change t ↔ ∃ old ∈ olds, old ++ '(' :: w <:+: t := by
  induction t using calls_induction with
  | last t ht =>
    have hnot (name : Text) : ¬ name ++ '(' :: w <:+: t := fun h => ht (h.subset (by simp))
    simp [mapCalls_of_notMem _ ht, hnot]
  | call piece t hpiece ih =>
    rw [mapCalls_paren _ hpiece, call_isInfix_paren hf (hchange piece hpiece), hend,
      prefix_mapCalls_iff hw hstart, ih]
    have hcall (old : Text) (hold : old ∈ olds) := call_isInfix_paren (holds old hold) hpiece w t
    constructor
    · rintro (⟨⟨old, hold, hname⟩, hargument⟩ | ⟨old, hold, hrest⟩)
      · exact ⟨old, hold, (hcall old hold).mpr (.inl ⟨hname, hargument⟩)⟩
      · exact ⟨old, hold, (hcall old hold).mpr (.inr hrest)⟩
    · rintro ⟨old, hold, hstands⟩
      rcases (hcall old hold).mp hstands with ⟨hname, hargument⟩ | hrest
      · exact .inl ⟨⟨old, hold, hname⟩, hargument⟩
      · exact .inr ⟨old, hold, hrest⟩

theorem prefix_rewriteEnd_iff {old new : Text} (hold : c ∉ old) (hnew : c ∉ new) (w piece : Text) :
    w ++ [c] <+: rewriteEnd old new piece ↔ w ++ [c] <+: piece := by
  by_cases hend : old <:+ piece
  · obtain ⟨front, rfl⟩ := hend
    rw [rewriteEnd_append, concat_prefix_append_iff hnew, concat_prefix_append_iff hold]
  · rw [rewriteEnd_of_not hend]

theorem not_suffix_append (hx : x.getLast? ≠ f.getLast?) (hne : x ≠ []) (hf : f ≠ [])
    (front : Text) : ¬ f <:+ front ++ x := by
  rintro ⟨more, h⟩
  have hlast := congrArg getLast? h
  rw [List.getLast?_append_of_ne_nil _ hf, List.getLast?_append_of_ne_nil _ hne] at hlast
  exact hx hlast.symm

end Text

namespace Template

variable {w y t : Text}

/-! ## Updates of state -/

/-- The last character of a call that updates state, with the blanks after it. -/
theorem UpdateCall.getLast?_text (call : UpdateCall) {blanks : Text}
    (hblanks : ∀ c ∈ blanks, isBlank c = true) :
    ∀ c ∈ (call.text ++ blanks).getLast?, c = ',' ∨ isBlank c = true := by
  intro c hc
  rcases eq_nil_or_concat' blanks with rfl | ⟨front, d, rfl⟩
  · left
    unfold text at hc
    simpa [List.getLast?_append, List.getLast?_cons, eq_comm] using hc
  · right
    rw [← append_assoc, List.getLast?_concat] at hc
    obtain rfl : d = c := by simpa using hc
    exact hblanks d (by simp)

/-- What is left of the call of a section does not begin with another call. -/
theorem suffix_of_begins (hw : '(' ∉ w) (hne : y ≠ [])
    (hy : y <:+ "this.__section".toList ++ '(' :: (w ++ [','])) {x z : Text} (hparen : '(' ∉ x)
    (hcomma : ',' ∉ x) (h : y <+: x ++ '(' :: z) : x <:+ "this.__section".toList := by
  rcases List.suffix_or_suffix_of_suffix hy (suffix_append _ _) with hshort | hlong
  · rcases List.suffix_cons_iff.mp hshort with rfl | hargument
    · obtain ⟨back, hback⟩ := h
      obtain ⟨rfl, -⟩ := @Text.append_cons_inj '(' [] x _ z (by simp) hparen hback
      exact List.nil_suffix
    · have hnot : '(' ∉ y := fun hmem => by simpa [hw] using hargument.subset hmem
      have hlast : ',' ∈ y := by
        obtain ⟨front, hfront⟩ := hargument
        rcases eq_nil_or_concat' y with rfl | ⟨y, d, rfl⟩
        · exact absurd rfl hne
        · have hd : d = ',' := by
            simpa [← append_assoc] using congrArg getLast? hfront
          simp [hd]
      rw [Text.prefix_append_cons_iff hnot] at h
      exact absurd (h.subset hlast) hcomma
  · obtain ⟨name, rfl⟩ := hlong
    have hname : name <:+ "this.__section".toList := by
      obtain ⟨front, hfront⟩ := hy
      exact ⟨front, List.append_cancel_right (by simpa using hfront)⟩
    obtain ⟨back, hback⟩ := h
    have hparen' : '(' ∉ name := fun hmem => absurd (hname.subset hmem) (by decide)
    rw [append_assoc, cons_append] at hback
    obtain ⟨rfl, -⟩ := Text.append_cons_inj hparen' hparen hback
    exact hname

theorem UpdateCall.notMem_key (call : UpdateCall) {c : Char}
    (hstart : (isNameStart c || c == '$') = false) (hkey : isKeyChar c = false) : c ∉ call.key := by
  intro hc
  rcases mem_cons.mp hc with rfl | hc
  · exact Bool.false_ne_true (hstart.symm.trans call.first_startsKey)
  · exact Bool.false_ne_true (hkey.symm.trans (call.more_isKeyChar c hc))

/-- A call that updates state begins in no part of the call of a section. -/
theorem not_prefix_of_directUpdate? (hw : '(' ∉ w) (hne : y ≠ [])
    (hy : y <:+ "this.__section".toList ++ '(' :: (w ++ [','])) {t new rest : Text}
    (hread : directUpdate? t = some (new, rest)) (out : Text) :
    ¬ y <+: t ∧ ¬ y <+: new ++ out := by
  obtain ⟨call, more, rfl, rfl, -⟩ := UpdateCall.exists_of_directUpdate? hread
  constructor
  · intro h
    have hsplit : "updateStateByKey(".toList = "updateStateByKey".toList ++ ['('] := by decide
    unfold UpdateCall.text at h
    rw [hsplit, append_assoc, append_assoc, List.singleton_append] at h
    have hname : "updateStateByKey".toList <:+ "this.__section".toList :=
      suffix_of_begins hw hne hy (by decide) (by decide) h
    exact absurd hname (by decide)
  · intro h
    have hparen : '(' ∉ call.key := call.notMem_key (by decide) (by decide)
    have hcomma : ',' ∉ call.key := call.notMem_key (by decide) (by decide)
    rw [append_assoc, append_assoc, ← append_assoc] at h
    have hname : "update$".toList ++ call.key <:+ "this.__section".toList :=
      suffix_of_begins hw hne hy (by simp [hparen]) (by simp [hcomma]) h
    have hdollar : '$' ∈ "update$".toList ++ call.key := List.mem_append_left _ (by decide)
    exact absurd (hname.subset hdollar) (by decide)

theorem directUpdates_cons {c : Char} (h : directUpdate? (c :: t) = none) :
    directUpdates (c :: t) = c :: directUpdates t :=
  Text.substitute_other h

theorem directUpdates_found {new rest : Text} (h : directUpdate? t = some (new, rest)) :
    directUpdates t = new ++ directUpdates rest :=
  Text.substitute_found consumes_directUpdate? h

theorem prefix_directUpdates_iff (hw : '(' ∉ w)
    (hy : y <:+ "this.__section".toList ++ '(' :: (w ++ [','])) (t : Text) :
    y <+: directUpdates t ↔ y <+: t := by
  induction y generalizing t with
  | nil => simp
  | cons c y ih =>
    cases t with
    | nil => rfl
    | cons d t =>
      cases hread : directUpdate? (d :: t) with
      | none =>
        rw [directUpdates_cons hread, cons_prefix_cons, cons_prefix_cons,
          ih ((suffix_cons c y).trans hy)]
      | some found =>
        obtain ⟨hold, hnew⟩ := not_prefix_of_directUpdate? hw (List.cons_ne_nil c y) hy hread
          (directUpdates found.2)
        rw [directUpdates_found hread]
        exact iff_of_false hnew hold

/-- Updates of state are no calls of sections. -/
theorem call_isInfix_directUpdates_iff (hw : '(' ∉ w) (t : Text) :
    "this.__section".toList ++ '(' :: (w ++ [',']) <:+: directUpdates t ↔
      "this.__section".toList ++ '(' :: (w ++ [',']) <:+: t := by
  have hdot : "this.__section".toList ++ '(' :: (w ++ [',']) =
      "this".toList ++ '.' :: ("__section".toList ++ '(' :: (w ++ [','])) := rfl
  induction t using Text.substitute_induction consumes_directUpdate? with
  | nil => rfl
  | found t new rest hread ih =>
    rw [directUpdates_found hread]
    obtain ⟨call, more, rfl, rfl, rfl⟩ := UpdateCall.exists_of_directUpdate? hread
    have hblanks : ∀ c ∈ more.takeWhile isBlank, isBlank c = true :=
      fun c hc => List.all_eq_true.mp List.all_takeWhile c hc
    have hmore : call.text ++ more =
        call.text ++ more.takeWhile isBlank ++ Text.trimStart more := by
      rw [append_assoc, Text.trimStart, List.takeWhile_append_dropWhile]
    have hold : '.' ∉ call.text ++ more.takeWhile isBlank := by
      rw [List.mem_append, not_or]
      exact ⟨call.not_mem_text (by decide) (by decide) (by decide) (by decide) (by decide)
        (by decide), fun hc => absurd (hblanks _ hc) (by decide)⟩
    have hnew : '.' ∉ "update$".toList ++ call.key ++ "(".toList := by
      simp [call.notMem_key (c := '.') (by decide) (by decide)]
    rw [hmore, hdot, Text.isInfix_append_iff hnew, Text.isInfix_append_iff hold, ← hdot]
    · exact ih
    · intro c hc
      rcases call.getLast?_text hblanks c hc with rfl | hblank
      · decide
      · intro hmem
        exact absurd hblank (Bool.eq_false_iff.mp
          (Text.forall_mem_of_all (p := fun c => isBlank c = false) (by decide) c hmem))
    · intro c hc
      have hlast : ("update$".toList ++ call.key ++ "(".toList).getLast? = some '(' :=
        List.getLast?_concat
      obtain rfl : '(' = c := Option.some.inj (hlast.symm.trans hc)
      decide
  | other c t hread ih =>
    have htail : "his.__section".toList ++ '(' :: (w ++ [',']) <:+
        "this.__section".toList ++ '(' :: (w ++ [',']) := suffix_cons _ _
    rw [directUpdates_cons hread, List.infix_cons_iff, List.infix_cons_iff]
    have hstart := prefix_directUpdates_iff hw htail t
    refine or_congr ?_ ih
    exact cons_prefix_cons.trans
      ((and_congr_right fun _ => hstart).trans cons_prefix_cons.symm)

end Template

/-- The call of a section with a fixed name by some function, up to its further arguments. -/
def Section.callBy (function n : Text) : Text := function ++ '(' :: (single n ++ [','])

/-- The functions that show a section, before and after finishing. -/
def Section.functions : List Text := ["this.__section", "App.View.section"]

namespace Template

open Section (callBy functions)

/-- A renaming of other calls. -/
theorem call_isInfix_replace_text_iff (hw : '(' ∉ w) (t : Text) :
    "this.__section".toList ++ '(' :: (w ++ [',']) <:+:
        replace "App.View.text(" "this.__text(" t ↔
      "this.__section".toList ++ '(' :: (w ++ [',']) <:+: t := by
  have hreplace : replace "App.View.text(" "this.__text(" t =
      Text.mapCalls (Text.rewriteEnd "App.View.text" "this.__text") t :=
    @Text.replace_eq_mapCalls "App.View.text" (by decide) (by decide) "this.__text" t
  have hend (piece : Text) :
      "this.__section".toList <:+ Text.rewriteEnd "App.View.text" "this.__text" piece ↔
        ∃ old ∈ ["this.__section".toList], old <:+ piece := by
    simp only [List.mem_singleton, exists_eq_left]
    by_cases hold : "App.View.text".toList <:+ piece
    · obtain ⟨front, rfl⟩ := hold
      rw [Text.rewriteEnd_append]
      exact iff_of_false
        (Text.not_suffix_append (by decide) (by decide) (by decide) front)
        (Text.not_suffix_append (by decide) (by decide) (by decide) front)
    · rw [Text.rewriteEnd_of_not hold]
  rw [hreplace, Text.call_isInfix_mapCalls_iff (by decide) (by simp [hw])
    (fun _ => Text.notMem_rewriteEnd (by decide))
    (Text.prefix_rewriteEnd_iff (by decide) (by decide) w) (by decide) hend]
  simp only [List.mem_singleton, exists_eq_left]

theorem call_isInfix_replace_section_iff (hw : '(' ∉ w) (t : Text) :
    "this.__section".toList ++ '(' :: (w ++ [',']) <:+:
        replace "App.View.section(" "this.__section(" t ↔
      ∃ function ∈ functions, function ++ '(' :: (w ++ [',']) <:+: t := by
  have hreplace : replace "App.View.section(" "this.__section(" t =
      Text.mapCalls (Text.rewriteEnd "App.View.section" "this.__section") t :=
    @Text.replace_eq_mapCalls "App.View.section" (by decide) (by decide) "this.__section" t
  have hend (piece : Text) :
      "this.__section".toList <:+ Text.rewriteEnd "App.View.section" "this.__section" piece ↔
        ∃ function ∈ functions, function <:+ piece := by
    by_cases hold : "App.View.section".toList <:+ piece
    · refine iff_of_true ?_ ⟨_, by decide, hold⟩
      obtain ⟨front, rfl⟩ := hold
      rw [Text.rewriteEnd_append]
      exact suffix_append _ _
    · rw [Text.rewriteEnd_of_not hold]
      simp only [functions, mem_cons, List.not_mem_nil, or_false, exists_eq_or_imp,
        exists_eq_left, hold]
  rw [hreplace, Text.call_isInfix_mapCalls_iff (by decide) (by simp [hw])
    (fun _ => Text.notMem_rewriteEnd (by decide))
    (Text.prefix_rewriteEnd_iff (by decide) (by decide) w) (by decide) hend]

/-- **The calls of sections in a finished text.** A text whose calls have their final names holds
the call of a section just if the text held the call, under one of its two names. -/
theorem call_isInfix_rename_iff {n : Text} (hn : '(' ∉ single n) (t : Text) :
    callBy "this.__section" n <:+: rename t ↔ ∃ function ∈ functions, callBy function n <:+: t :=
  (call_isInfix_directUpdates_iff hn _).trans
    ((call_isInfix_replace_text_iff hn _).trans (call_isInfix_replace_section_iff hn t))

/-! ## Names that finishing leaves as they are -/

/-- The comma before the value is the only one of a call that updates state. -/
theorem UpdateCall.exists_text_eq (call : UpdateCall) :
    ∃ front, call.text = front ++ [','] ∧ ',' ∉ front := by
  have hblank {t : Text} (h : ∀ c ∈ t, isBlank c = true) : ',' ∉ t :=
    fun hmem => absurd (h _ hmem) (by decide)
  have hmark {c : Char} (h : isMark c = true) : ',' ≠ c := by
    rintro rfl
    exact absurd h (by decide)
  refine ⟨"updateStateByKey(".toList ++ (call.blanks ++ call.opening ::
    (call.key ++ call.closing :: call.gap)), ?_, ?_⟩
  · unfold UpdateCall.text
    simp only [append_assoc, cons_append]
  · simp only [List.mem_append, mem_cons, not_or]
    exact ⟨by decide, hblank call.blanks_isBlank, hmark call.opening_isMark,
      call.notMem_key (by decide) (by decide), hmark call.closing_isMark, hblank call.gap_isBlank⟩

/-- A comma ends the part of a text in which updates matter. -/
theorem directUpdate?_append_comma {u : Text}
    (hu : ∀ call : UpdateCall, ¬ call.text <:+: u ++ [',']) (t : Text) :
    directUpdate? (u ++ ',' :: t) = none := by
  rw [directUpdate?_eq_none_iff]
  intro call hbegins
  obtain ⟨front, htext, hfront⟩ := call.exists_text_eq
  refine hu call ?_
  rw [htext] at hbegins ⊢
  exact (Text.concat_prefix_concat hfront hbegins).isInfix

theorem directUpdates_append_comma {u : Text}
    (hu : ∀ call : UpdateCall, ¬ call.text <:+: u ++ [',']) (t : Text) :
    directUpdates (u ++ ',' :: t) = u ++ ',' :: directUpdates t := by
  induction u with
  | nil => exact directUpdates_cons (directUpdate?_append_comma hu t)
  | cons c u ih =>
    have hmore : ∀ call : UpdateCall, ¬ call.text <:+: u ++ [','] := fun call h =>
      hu call (h.trans (suffix_cons c _).isInfix)
    rw [cons_append, cons_append, ← ih hmore]
    exact directUpdates_cons (directUpdate?_append_comma hu t)

/-- A renaming of calls changes the name of the function only. -/
theorem replace_callBy {old f n : Text} (hold : '(' ∉ old) (hne : old ≠ []) (hcomma : ',' ∉ old)
    (hf : '(' ∉ f) (hn : ¬ old ++ ['('] <:+: single n ++ [',']) (new r : Text) :
    replace (old ++ ['(']) (new ++ ['(']) (callBy f n ++ r) =
      callBy (Text.rewriteEnd old new f) n ++
        replace (old ++ ['(']) (new ++ ['(']) r := by
  have hsplit (f r : Text) : callBy f n ++ r = f ++ '(' :: (single n ++ ',' :: r) := by
    simp [callBy]
  have hname : replace (old ++ ['(']) (new ++ ['(']) (single n) = single n :=
    Text.replace_eq_self fun h => hn (h.trans (prefix_append _ _).isInfix)
  rw [hsplit, hsplit, Text.replace_paren hold hne hf,
    Text.replace_call_append_cons hold hne (by decide) hcomma, hname]

/-- Updates of state are not in the call of a section, if there are none in its name. -/
theorem directUpdates_callBy {n : Text}
    (hn : ∀ call : UpdateCall, ¬ call.text <:+: single n ++ [',']) (r : Text) :
    directUpdates (callBy "this.__section" n ++ r) =
      callBy "this.__section" n ++ directUpdates r := by
  have hsplit (r : Text) : callBy "this.__section" n ++ r =
      ("this.__section".toList ++ '(' :: single n) ++ ',' :: r := by
    simp [callBy]
  rw [hsplit, hsplit]
  refine directUpdates_append_comma (fun call hcall => ?_) r
  have hname : call.text = "updateStateByKey".toList ++ '(' :: (call.blanks ++ call.opening ::
      (call.key ++ call.closing :: (call.gap ++ [',']))) := rfl
  rw [hname, append_assoc, cons_append,
    Text.call_isInfix_paren (by decide) (by decide), ← hname] at hcall
  rcases hcall with ⟨hend, -⟩ | hinside
  · exact absurd hend (by decide)
  · exact hn call hinside

/-- The call of a section gets another name, and the name of the section stays. -/
theorem rename_callBy {n : Text}
    (hn : rename (single n ++ [',']) = single n ++ [',']) (r : Text) :
    rename (callBy "App.View.section" n ++ r) = callBy "this.__section" n ++ rename r := by
  have hold := (rename_eq_self_iff _).mp hn
  have hnew : Text.rewriteEnd "App.View.section" "this.__section" "App.View.section" =
      "this.__section" := Text.rewriteEnd_append "App.View.section" "this.__section" []
  have hsame : Text.rewriteEnd "App.View.text" "this.__text" "this.__section" = "this.__section" :=
    Text.rewriteEnd_of_not (by decide)
  have hsection := @replace_callBy "App.View.section" "App.View.section" n (by decide) (by decide)
    (by decide) (by decide) (hold _ .showSection) "this.__section" r
  have htext := @replace_callBy "App.View.text" "this.__section" n (by decide) (by decide)
    (by decide) (by decide) (hold _ .showText) "this.__text"
      (replace "App.View.section(" "this.__section(" r)
  have hupdate := directUpdates_callBy (fun call => hold _ (.updateState call))
    (replace "App.View.text(" "this.__text("
      (replace "App.View.section(" "this.__section(" r))
  rw [hnew] at hsection
  rw [hsame] at htext
  calc rename (callBy "App.View.section" n ++ r)
      = directUpdates (replace "App.View.text(" "this.__text(" (callBy "this.__section" n ++
          replace "App.View.section(" "this.__section(" r)) :=
        congrArg (fun t => directUpdates (replace "App.View.text(" "this.__text(" t)) hsection
    _ = directUpdates (callBy "this.__section" n ++ replace "App.View.text(" "this.__text("
          (replace "App.View.section(" "this.__section(" r)) :=
        congrArg directUpdates htext
    _ = callBy "this.__section" n ++ rename r := hupdate

end Template

/-- The call is as it was when verbatim contents are back, if the name of the section is. -/
theorem Verbatim.restore_callBy {verbatim : List Text} {n : Text}
    (hn : restore verbatim (single n) = single n) (r : Text) :
    restore verbatim (Section.callBy "App.View.section" n ++ r) =
      Section.callBy "App.View.section" n ++ restore verbatim r := by
  have hsplit (r : Text) : Section.callBy "App.View.section" n ++ r =
      "App.View.section".toList ++ '(' :: (single n ++ ',' :: r) := by
    simp [Section.callBy]
  have hname : restore verbatim "App.View.section" = "App.View.section" := rfl
  rw [hsplit, hsplit, restore_append_cons (by decide) (by decide) (by decide),
    restore_append_cons (by decide) (by decide) (by decide), hname, hn]

end BladeView
