import BladeView.Proofs.Script.Escape
import BladeView.Proofs.ViewModule.Finish

/-!
# Calls that get other names

Finishing a template gives three kinds of calls the names that the running view knows: the call of a
section, the call of a text, and an update of state by a fixed key. The new names are shorter, so a
text is left as it is just if it holds none of the calls. That the text was escaped for a template
literal makes no difference: the calls hold nothing that is escaped.
-/
namespace BladeView
namespace Template

/-- A call that updates state by a fixed key, up to the comma before the value. -/
structure UpdateCall where
  blanks : Text
  opening : Char
  first : Char
  more : Text
  closing : Char
  gap : Text
  blanks_isBlank : ∀ c ∈ blanks, isBlank c = true
  opening_isMark : isMark opening = true
  first_startsKey : (isNameStart first || first == '$') = true
  more_isKeyChar : ∀ c ∈ more, isKeyChar c = true
  closing_isMark : isMark closing = true
  gap_isBlank : ∀ c ∈ gap, isBlank c = true

namespace UpdateCall

def key (call : UpdateCall) : Text := call.first :: call.more

def text (call : UpdateCall) : Text :=
  "updateStateByKey(" ++
    (call.blanks ++ call.opening :: (call.key ++ call.closing :: (call.gap ++ [','])))

theorem isBlank_of_isMark {c : Char} (h : isMark c = true) : isBlank c = false := by
  simp only [isMark, Bool.or_eq_true, beq_iff_eq] at h
  rcases h with rfl | rfl <;> decide

theorem isKeyChar_of_isMark {c : Char} (h : isMark c = true) : isKeyChar c = false := by
  simp only [isMark, Bool.or_eq_true, beq_iff_eq] at h
  rcases h with rfl | rfl <;> decide

theorem updateByKey?_text (call : UpdateCall) (rest : Text) :
    updateByKey? (call.text ++ rest) = some (call.key, Text.trimStart rest) := by
  have hblanks : Text.trimStart (call.blanks ++ call.opening ::
      (call.key ++ call.closing :: (call.gap ++ ',' :: rest))) =
      call.opening :: (call.key ++ call.closing :: (call.gap ++ ',' :: rest)) := by
    rw [Text.trimStart, List.dropWhile_append_of_pos call.blanks_isBlank,
      List.dropWhile_cons_of_neg (by simp [isBlank_of_isMark call.opening_isMark])]
  have hgap : Text.trimStart (call.gap ++ ',' :: rest) = ',' :: rest := by
    rw [Text.trimStart, List.dropWhile_append_of_pos call.gap_isBlank,
      List.dropWhile_cons_of_neg (by decide)]
  have hclosing := isKeyChar_of_isMark call.closing_isMark
  have hdrop : (call.more ++ call.closing :: (call.gap ++ ',' :: rest)).dropWhile isKeyChar =
      call.closing :: (call.gap ++ ',' :: rest) := by
    rw [List.dropWhile_append_of_pos call.more_isKeyChar, List.dropWhile_cons_of_neg (by simp [hclosing])]
  have htake : (call.more ++ call.closing :: (call.gap ++ ',' :: rest)).takeWhile isKeyChar =
      call.more := by
    rw [List.takeWhile_append_of_pos call.more_isKeyChar, List.takeWhile_cons_of_neg (by simp [hclosing]),
      List.append_nil]
  have htext : call.text ++ rest = "updateStateByKey(" ++ (call.blanks ++ call.opening ::
      (call.key ++ call.closing :: (call.gap ++ ',' :: rest))) := by
    unfold text
    generalize "updateStateByKey(".toList = name
    simp only [List.append_assoc, List.cons_append, List.nil_append]
  rw [updateByKey?_eq, htext, Text.after?_eq_some.2 rfl, Option.bind_some, hblanks, key,
    List.cons_append]
  simp only [keyAndComma?, call.opening_isMark, call.first_startsKey, call.closing_isMark, hdrop, htake,
    hgap, Bool.and_self, if_true]
  rfl

/-- Whatever is read as an update by a fixed key begins with such a call. -/
theorem exists_of_updateByKey? {t key rest : Text} (h : updateByKey? t = some (key, rest)) :
    ∃ (call : UpdateCall) (more : Text), t = call.text ++ more ∧ key = call.key ∧
      rest = Text.trimStart more := by
  rw [updateByKey?_eq] at h
  obtain ⟨inside, hname, hread⟩ := Option.bind_eq_some_iff.1 h
  unfold keyAndComma? at hread
  split at hread
  case h_2 => cases hread
  case h_1 q c cs htrim =>
    obtain ⟨hstart, hread⟩ := Option.ite_none_right_eq_some.1 hread
    split at hread
    case h_2 => cases hread
    case h_1 q' after hdrop =>
      obtain ⟨hclosing, hread⟩ := Option.ite_none_right_eq_some.1 hread
      obtain ⟨more, hcomma, hfound⟩ := Option.bind_eq_some_iff.1 hread
      obtain ⟨rfl, rfl⟩ := Prod.mk.inj (Option.some.inj hfound)
      rw [Bool.and_eq_true_iff] at hstart
      have hall : ∀ (p : Char → Bool) (l : Text), ∀ d ∈ l.takeWhile p, p d = true :=
        fun p l d hd => List.all_eq_true.1 List.all_takeWhile d hd
      let call : UpdateCall :=
        { blanks := inside.takeWhile isBlank, opening := q, first := c
          more := cs.takeWhile isKeyChar, closing := q', gap := after.takeWhile isBlank
          blanks_isBlank := hall _ _, opening_isMark := hstart.1, first_startsKey := hstart.2
          more_isKeyChar := hall _ _, closing_isMark := hclosing, gap_isBlank := hall _ _ }
      refine ⟨call, more, ?_, rfl, rfl⟩
      have hgap : after = after.takeWhile isBlank ++ ',' :: more := by
        have hrest : Text.trimStart after = ',' :: more := Text.after?_eq_some.1 hcomma
        rw [← hrest]
        exact List.takeWhile_append_dropWhile.symm
      have hkey : cs = cs.takeWhile isKeyChar ++ q' :: after := by
        rw [← hdrop]
        exact List.takeWhile_append_dropWhile.symm
      have hinside : inside = inside.takeWhile isBlank ++ q :: c :: cs := by
        rw [← htrim]
        exact List.takeWhile_append_dropWhile.symm
      rw [Text.after?_eq_some.1 hname]
      unfold text
      generalize "updateStateByKey(".toList = name
      rw [hinside, hkey, hgap]
      simp only [call, key, List.append_assoc, List.cons_append, List.nil_append]

end UpdateCall

/-- The calls that finishing gives other names: of a section, of a text, and an update of state by a
fixed key. -/
inductive IsOldCall : Text → Prop
  | showSection : IsOldCall "App.View.section("
  | showText : IsOldCall "App.View.text("
  | updateState (call : UpdateCall) : IsOldCall call.text

/-- Reads an update by a fixed key, and gives the name that it gets. -/
def directUpdate? (t : Text) : Option (Text × Text) :=
  (updateByKey? t).map fun found => ("update$" ++ found.1 ++ "(", found.2)

theorem directUpdates_eq (t : Text) :
    directUpdates t = Text.substitute (fun _ => directUpdate?) t :=
  rfl

theorem UpdateCall.exists_of_directUpdate? {t new rest : Text}
    (h : directUpdate? t = some (new, rest)) :
    ∃ (call : UpdateCall) (more : Text), t = call.text ++ more ∧
      new = "update$" ++ call.key ++ "(" ∧ rest = Text.trimStart more := by
  obtain ⟨⟨key, rest'⟩, hupdate, hfound⟩ := Option.map_eq_some_iff.1 h
  obtain ⟨call, more, hsplit, hkey, hrest⟩ := UpdateCall.exists_of_updateByKey? hupdate
  obtain ⟨rfl, rfl⟩ := Prod.mk.inj hfound
  exact ⟨call, more, hsplit, by rw [hkey], hrest⟩

theorem directUpdate?_eq_none_iff (t : Text) :
    directUpdate? t = none ↔ ∀ call : UpdateCall, ¬ call.text <+: t := by
  constructor
  · intro h call hprefix
    obtain ⟨more, rfl⟩ := hprefix
    rw [directUpdate?, UpdateCall.updateByKey?_text] at h
    cases h
  · intro h
    rw [Option.eq_none_iff_forall_ne_some]
    intro ⟨new, rest⟩ hread
    obtain ⟨call, more, rfl, -⟩ := UpdateCall.exists_of_directUpdate? hread
    exact h call (List.prefix_append _ _)

theorem UpdateCall.length_text (call : UpdateCall) : call.key.length + 20 ≤ call.text.length := by
  have hname : "updateStateByKey(".toList.length = 17 := by decide
  unfold text
  rw [List.length_append, hname]
  simp only [List.length_append, List.length_cons, List.length_nil]
  omega

theorem consumes_directUpdate? : Text.Consumes directUpdate? := by
  intro t new rest hread
  obtain ⟨call, more, rfl, -, rfl⟩ := UpdateCall.exists_of_directUpdate? hread
  obtain ⟨blanks, hblanks⟩ := Text.trimStart_suffix more
  refine ⟨call.text ++ blanks, ?_, by rw [List.append_assoc, hblanks]⟩
  have hlength := call.length_text
  exact List.ne_nil_of_length_pos (by rw [List.length_append]; omega)

theorem length_lt_of_directUpdate? (t new rest : Text) (hread : directUpdate? t = some (new, rest)) :
    new.length + rest.length < t.length := by
  obtain ⟨call, more, rfl, rfl, rfl⟩ := UpdateCall.exists_of_directUpdate? hread
  have hlength := call.length_text
  have hrest := (Text.trimStart_suffix more).length_le
  have hname : "update$".toList.length = 7 := by decide
  have hparen : "(".toList.length = 1 := by decide
  simp only [List.length_append, hname, hparen]
  omega

/-- Updates are left alone just if no call updates by a fixed key. -/
theorem directUpdates_eq_self_iff (t : Text) :
    directUpdates t = t ↔ ∀ call : UpdateCall, ¬ call.text <:+: t := by
  rw [directUpdates_eq,
    Text.substitute_eq_self_iff consumes_directUpdate? length_lt_of_directUpdate?]
  simp only [directUpdate?_eq_none_iff, List.infix_iff_prefix_suffix, not_exists, not_and]
  exact ⟨fun h call s hprefix hsuffix => h s hsuffix call hprefix,
    fun h s hsuffix call hprefix => h call s hprefix hsuffix⟩

/-- Finishing leaves a text alone just if none of the calls stands in it. -/
theorem rename_eq_self_iff (t : Text) :
    rename t = t ↔ ∀ call, IsOldCall call → ¬ call <:+: t := by
  have hsection : Text.Shrinks (Text.replace "App.View.section(" "this.__section(") :=
    Text.shrinks_replace (by decide)
  have htext : Text.Shrinks (Text.replace "App.View.text(" "this.__text(") :=
    Text.shrinks_replace (by decide)
  have hupdate : Text.Shrinks directUpdates :=
    Text.shrinks_substitute consumes_directUpdate? length_lt_of_directUpdate?
  have hpasses : rename t = t ↔ (Text.replace "App.View.section(" "this.__section(" t = t ∧
      Text.replace "App.View.text(" "this.__text(" t = t) ∧ directUpdates t = t := by
    rw [rename, hupdate.comp_eq_self_iff (htext.comp hsection), htext.comp_eq_self_iff hsection]
  rw [hpasses, Text.replace_eq_self_iff (by decide), Text.replace_eq_self_iff (by decide),
    directUpdates_eq_self_iff]
  constructor
  · rintro ⟨⟨hsection, htext⟩, hupdate⟩ call hcall
    cases hcall with
    | showSection => exact hsection
    | showText => exact htext
    | updateState call => exact hupdate call
  · intro h
    exact ⟨⟨h _ .showSection, h _ .showText⟩, fun call => h _ (.updateState call)⟩

/-! ## The characters of a call -/

theorem UpdateCall.not_mem_text (call : UpdateCall) {c : Char}
    (hname : c ∉ "updateStateByKey(".toList) (hblank : isBlank c = false) (hmark : isMark c = false)
    (hstart : (isNameStart c || c == '$') = false) (hkey : isKeyChar c = false) (hcomma : c ≠ ',') :
    c ∉ call.text := by
  unfold text
  simp only [key, List.mem_append, List.mem_cons, List.not_mem_nil, or_false, not_or]
  refine ⟨hname, ?_, ?_, ⟨?_, ?_⟩, ?_, ?_, hcomma⟩
  · intro hc
    exact Bool.false_ne_true (hblank.symm.trans (call.blanks_isBlank c hc))
  · rintro rfl
    exact Bool.false_ne_true (hmark.symm.trans call.opening_isMark)
  · rintro rfl
    exact Bool.false_ne_true (hstart.symm.trans call.first_startsKey)
  · intro hc
    exact Bool.false_ne_true (hkey.symm.trans (call.more_isKeyChar c hc))
  · rintro rfl
    exact Bool.false_ne_true (hmark.symm.trans call.closing_isMark)
  · intro hc
    exact Bool.false_ne_true (hblank.symm.trans (call.gap_isBlank c hc))

namespace IsOldCall

variable {call : Text}

/-- No call holds brackets of tags, an opening brace, or a mark that is escaped. -/
theorem not_mem (h : IsOldCall call) {c : Char} (hc : c ∈ "\\\x60\x7b<>".toList) : c ∉ call := by
  have hcases : c = '\\' ∨ c = '\x60' ∨ c = '\x7b' ∨ c = '<' ∨ c = '>' := by simpa using hc
  cases h with
  | showSection => rcases hcases with rfl | rfl | rfl | rfl | rfl <;> decide
  | showText => rcases hcases with rfl | rfl | rfl | rfl | rfl <;> decide
  | updateState call =>
    rcases hcases with rfl | rfl | rfl | rfl | rfl
    all_goals refine call.not_mem_text ?_ ?_ ?_ ?_ ?_ ?_ <;> decide

theorem paren_mem (h : IsOldCall call) : '(' ∈ call := by
  cases h with
  | showSection => decide
  | showText => decide
  | updateState call =>
    unfold UpdateCall.text
    exact List.mem_append_left _ (by decide)

theorem isUnescaped (h : IsOldCall call) : Quoted.IsUnescaped call where
  ne_nil := List.ne_nil_of_mem h.paren_mem
  plain c hc := by
    refine ⟨?_, ?_, ?_⟩
    all_goals
      rintro rfl
      exact h.not_mem (by decide) hc
  last := by
    cases h with
    | showSection => decide
    | showText => decide
    | updateState call =>
      have hlast : call.text.getLast? = some ',' := by
        unfold UpdateCall.text
        simp [List.getLast?_append, List.getLast?_cons]
      rw [hlast]
      decide

end IsOldCall

/-- Escaped text between two tags is left as it is just if none of the calls stands in the text. -/
theorem rename_element_eq_self_iff (v : Text) :
    rename ("<p>" ++ Quoted.template v ++ "</p>") = "<p>" ++ Quoted.template v ++ "</p>" ↔
      ∀ call, IsOldCall call → ¬ call <:+: v := by
  rw [rename_eq_self_iff]
  refine forall_congr' fun call => forall_congr' fun hcall => not_congr ?_
  have hparts : ("<p>" ++ Quoted.template v ++ "</p>" : Text) =
      "<p".toList ++ '>' :: (Quoted.template v ++ '<' :: "/p>".toList) := by
    simp
  have hnot : ∀ t : Text, '(' ∉ t → ¬ call <:+: t := fun t ht hstands =>
    ht (hstands.subset hcall.paren_mem)
  rw [hparts, Text.isInfix_append_cons_iff (hcall.not_mem (by decide)),
    Text.isInfix_append_cons_iff (hcall.not_mem (by decide)),
    hcall.isUnescaped.isInfix_template_iff, or_iff_right (hnot _ (by decide)),
    or_iff_left (hnot _ (by decide))]

end Template
end BladeView
