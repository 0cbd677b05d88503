import BladeView.Proofs.Source.Restored
import BladeView.Proofs.Text.Substitute
import BladeView.ViewModule.Template

/-!
# Finished interpolations

The passes that finish a template leave braces alone, so an interpolation is finished as it would
be on its own. The passes that give calls their final names make no braces either: what a finished
interpolation looks like tells where one stood before.
-/
namespace BladeView

open Text (forall_mem_of_all trimStart)

variable {old new tail t key rest : Text} {c h : Char}

namespace Text

/-- A piece without braces and dollar signs is replaced between them. -/
theorem stopsAtBraces_after? (hne : old ≠ []) (hold : ∀ c ∈ old, isBrace c = false ∧ c ≠ '$') :
    StopsAtBraces fun t => (after? old t).map fun rest => (new, rest) := by
  refine stopsAtBraces_of_append hne (fun t value rest hread => ?_) fun c w hc u => ?_
  · obtain ⟨rest', hafter, hfound⟩ := Option.map_eq_some_iff.mp hread
    obtain ⟨-, rfl⟩ := Prod.mk.inj hfound
    exact ⟨rest', after?_eq_some.mp hafter, List.suffix_rfl⟩
  · have hmem : c ∉ old := by
      intro hmem
      rcases hc with hc | ⟨hc, -⟩
      · exact absurd hc (Bool.eq_false_iff.mp (hold c hmem).1)
      · exact (hold c hmem).2 hc
    rw [after?_append hmem]
    cases after? old u <;> rfl

end Text

namespace Verbatim

theorem readPlaceholder?_append (hhead : c ∉ placeholderHead) (hend : c ≠ '_')
    (hdigit : isDigitChar c = false) (u w : Text) :
    readPlaceholder? (u ++ c :: w) =
      (readPlaceholder? u).map fun read => (read.1, read.2 ++ c :: w) := by
  have hmark : c ∉ "__".toList := by simp [hend]
  simp only [readPlaceholder?, Text.after?_append hhead]
  cases Text.after? placeholderHead u with
  | none => rfl
  | some rest =>
    simp only [Option.map_some, Option.bind_eq_bind, Option.bind_some,
      Text.takeWhile_append_cons hdigit, Text.dropWhile_append_cons hdigit,
      Text.after?_append hmark]
    split
    · rfl
    · cases Text.after? "__" (rest.dropWhile isDigitChar) <;> rfl

theorem stopsAtBraces_readPlaceholder? : Text.StopsAtBraces readPlaceholder? := by
  have hne : placeholderHead ≠ [] := by decide
  refine Text.stopsAtBraces_of_append hne (fun t digits rest hread => ?_) fun c w hc u => ?_
  · refine ⟨_, (readPlaceholder?_eq_append hread).2, ?_⟩
    exact (List.suffix_append _ _).trans (List.suffix_append _ _)
  · simp only [isBrace, Bool.or_eq_true, beq_iff_eq] at hc
    rcases hc with (rfl | rfl) | ⟨rfl, -⟩
    all_goals exact readPlaceholder?_append (by decide) (by decide) (by decide) u w

/-- A character that no placeholder has divides a text. -/
theorem restore_append_cons (hhead : c ∉ placeholderHead) (hend : c ≠ '_')
    (hdigit : isDigitChar c = false) (verbatim : List Text) (u w : Text) :
    restore verbatim (u ++ c :: w) = restore verbatim u ++ c :: restore verbatim w := by
  have hstop : Text.StopsAt readPlaceholder? [c] := fun u w => by
    simpa using readPlaceholder?_append hhead hend hdigit u w
  exact Text.substitute_append_cons (stopsAtBraces_readPlaceholder?.map (expand verbatim)).consumes
    (hstop.map (expand verbatim)) u w

end Verbatim

namespace Template

/-- A character of a key. -/
def isKeyChar (c : Char) : Bool := isWordChar c || c == '$'

/-- A quotation mark around a key. -/
def isMark (c : Char) : Bool := c == '\x27' || c == '\x22'

/-- Reads the key and the comma of a call that updates state, after its parenthesis. -/
def keyAndComma? : Text → Option (Text × Text)
  | q :: c :: cs =>
    if isMark q && (isNameStart c || c == '$') then
      match cs.dropWhile isKeyChar with
      | q' :: rest =>
        if isMark q' then
          (Text.after? "," (Text.trimStart rest)).bind fun rest =>
            some (c :: cs.takeWhile isKeyChar, Text.trimStart rest)
        else none
      | [] => none
    else none
  | _ => none

theorem updateByKey?_eq (t : Text) :
    updateByKey? t = (Text.after? "updateStateByKey(" t).bind fun rest =>
      keyAndComma? (trimStart rest) := by
  unfold updateByKey?
  cases Text.after? "updateStateByKey(" t with
  | none => rfl
  | some rest =>
    simp only [Option.bind_eq_bind, Option.bind_some]
    match trimStart rest with
    | [] => rfl
    | [_] => rfl
    | q :: c :: cs => rfl

/-- The text at which a key ends without a mark: a character that ends all else, and that the
characters of a key are not followed by a mark from. -/
structure EndsKey (h : Char) (tail : Text) : Prop where
  blank : isBlank h = false
  mark : isMark h = false
  comma : h ∉ ",".toList
  start : (isNameStart h || h == '$') = true → isKeyChar h = true
  next : ∃ c more, (h :: tail).dropWhile isKeyChar = c :: more ∧ isMark c = false

theorem EndsKey.keyAndComma? (hend : EndsKey h tail) (u : Text) :
    keyAndComma? (u ++ h :: tail) =
      (keyAndComma? u).map fun found => (found.1, found.2 ++ h :: tail) := by
  obtain ⟨c', more, hnext, hmark⟩ := hend.next
  match u with
  | [] => cases tail <;> simp [Template.keyAndComma?, hend.mark]
  | [q] =>
    simp only [Template.keyAndComma?, List.cons_append, List.nil_append, Option.map_none]
    split
    case isTrue hstart =>
      have hkey := hend.start (Bool.and_eq_true_iff.mp hstart).2
      rw [List.dropWhile_cons_of_pos hkey] at hnext
      simp [hnext, hmark]
    case isFalse => rfl
  | q :: c :: cs =>
    simp only [Template.keyAndComma?, List.cons_append]
    split
    case isFalse => rfl
    case isTrue =>
      rw [List.dropWhile_append]
      cases hdrop : cs.dropWhile isKeyChar with
      | nil => simp [hnext, hmark]
      | cons q' rest =>
        have htake : (cs ++ h :: tail).takeWhile isKeyChar = cs.takeWhile isKeyChar := by
          have hlength := congrArg List.length (List.takeWhile_append_dropWhile (p := isKeyChar) (l := cs))
          rw [List.length_append, hdrop, List.length_cons] at hlength
          rw [List.takeWhile_append, if_neg (by omega)]
        simp only [List.isEmpty_cons, Bool.false_eq_true, if_false, List.cons_append, htake,
          trimStart, Text.dropWhile_append_cons hend.blank, Text.after?_append hend.comma]
        split
        · cases Text.after? "," (rest.dropWhile isBlank) with
          | none => rfl
          | some rest' => simp [Text.dropWhile_append_cons hend.blank]
        · rfl

theorem EndsKey.updateByKey? (hend : EndsKey h tail) (hname : h ∉ "updateStateByKey(".toList)
    (u : Text) :
    updateByKey? (u ++ h :: tail) =
      (updateByKey? u).map fun found => (found.1, found.2 ++ h :: tail) := by
  rw [updateByKey?_eq, updateByKey?_eq, Text.after?_append hname]
  cases Text.after? "updateStateByKey(" u with
  | none => rfl
  | some rest =>
    simp only [Option.map_some, Option.bind_some, trimStart, Text.dropWhile_append_cons hend.blank]
    exact hend.keyAndComma? _

theorem keyAndComma?_eq_some (h : keyAndComma? t = some (key, rest)) :
    rest <:+ t ∧ ∀ c ∈ key, isBrace c = false := by
  have hkey : ∀ c, isKeyChar c = true ∨ (isNameStart c || c == '$') = true → isBrace c = false := by
    intro c hc
    refine Bool.eq_false_iff.mpr fun hbrace => ?_
    simp only [isBrace, Bool.or_eq_true, beq_iff_eq] at hbrace
    rcases hbrace with rfl | rfl
    · exact absurd hc (by decide)
    · exact absurd hc (by decide)
  unfold keyAndComma? at h
  split at h
  case h_2 => cases h
  case h_1 q c cs =>
    obtain ⟨hstart, h⟩ := Option.ite_none_right_eq_some.1 h
    split at h
    case h_2 => cases h
    case h_1 q' after hdrop =>
      obtain ⟨-, h⟩ := Option.ite_none_right_eq_some.1 h
      obtain ⟨rest', hcomma, hfound⟩ := Option.bind_eq_some_iff.mp h
      obtain ⟨rfl, rfl⟩ := Prod.mk.inj (Option.some.inj hfound)
      constructor
      · have hafter : q' :: after <:+ cs := hdrop ▸ List.dropWhile_suffix _
        have hrest : rest' <:+ trimStart after := ⟨_, (Text.after?_eq_some.mp hcomma).symm⟩
        exact (Text.trimStart_suffix rest').trans (hrest.trans ((Text.trimStart_suffix after).trans
          ((List.suffix_cons q' after).trans (hafter.trans (List.suffix_append [q, c] cs)))))
      · intro d hd
        rcases List.mem_cons.mp hd with rfl | hd
        · exact hkey d (.inr (Bool.and_eq_true_iff.mp hstart).2)
        · exact hkey d (.inl (List.all_eq_true.mp List.all_takeWhile d hd))

theorem updateByKey?_eq_some (h : updateByKey? t = some (key, rest)) :
    ∃ more, t = "updateStateByKey(" ++ more ∧ rest <:+ more ∧ ∀ c ∈ key, isBrace c = false := by
  rw [updateByKey?_eq] at h
  obtain ⟨more, hname, hread⟩ := Option.bind_eq_some_iff.mp h
  obtain ⟨hsuffix, hkey⟩ := keyAndComma?_eq_some hread
  exact ⟨more, Text.after?_eq_some.mp hname, hsuffix.trans (Text.trimStart_suffix more), hkey⟩

theorem endsKey {w : Text} (hc : isBrace c = true ∨ c = '$' ∧ w.head? = some '\x7b') :
    EndsKey c w ∧ c ∉ "updateStateByKey(".toList := by
  simp only [isBrace, Bool.or_eq_true, beq_iff_eq] at hc
  rcases hc with (rfl | rfl) | ⟨rfl, hw⟩
  · exact ⟨⟨by decide, by decide, by decide, by decide, _, w, rfl, by decide⟩, by decide⟩
  · exact ⟨⟨by decide, by decide, by decide, by decide, _, w, rfl, by decide⟩, by decide⟩
  · obtain ⟨more, rfl⟩ := List.head?_eq_some_iff.mp hw
    exact ⟨⟨by decide, by decide, by decide, by decide, _, more, rfl, by decide⟩, by decide⟩

theorem stopsAtBraces_updateByKey? : Text.StopsAtBraces updateByKey? := by
  have hread : ∀ t key rest, updateByKey? t = some (key, rest) →
      ∃ more, t = "updateStateByKey(" ++ more ∧ rest <:+ more := by
    intro t key rest hread
    obtain ⟨more, hsplit, hsuffix, -⟩ := updateByKey?_eq_some hread
    exact ⟨more, hsplit, hsuffix⟩
  exact Text.stopsAtBraces_of_append (by decide) hread fun c w hc u =>
    (endsKey hc).1.updateByKey? (endsKey hc).2 u

/-! ## Finished templates -/

/-- Gives all calls their final names. -/
def rename (t : Text) : Text :=
  directUpdates
    (Text.replace "App.View.text(" "this.__text("
      (Text.replace "App.View.section(" "this.__section(" t))

theorem finish_eq (verbatim : List Text) (t : Text) :
    finish verbatim t = rename (Verbatim.restore verbatim t) := rfl

theorem reflectsBraces_replace (hne : old ≠ []) (hold : ∀ c ∈ old, isBrace c = false ∧ c ≠ '$')
    (hnew : ∀ c ∈ new, isBrace c = false) (hlast : new.getLast? = some '(') :
    ReflectsBraces (Text.replace old new) := by
  refine Text.reflectsBraces_substitute (Text.stopsAtBraces_after? hne hold) ?_
  intro t new' rest hread
  obtain ⟨rest', -, hfound⟩ := Option.map_eq_some_iff.mp hread
  obtain ⟨rfl, -⟩ := Prod.mk.inj hfound
  exact ⟨hnew, hlast⟩

theorem reflectsBraces_directUpdates : ReflectsBraces directUpdates := by
  refine Text.reflectsBraces_substitute
    (stopsAtBraces_updateByKey?.map fun key => "update$" ++ key ++ "(") ?_
  intro t new rest hread
  obtain ⟨⟨key, rest'⟩, hupdate, hfound⟩ := Option.map_eq_some_iff.mp hread
  obtain ⟨rfl, -⟩ := Prod.mk.inj hfound
  obtain ⟨-, -, -, hkey⟩ := updateByKey?_eq_some hupdate
  constructor
  · intro c hc
    simp only [List.mem_append] at hc
    rcases hc with (hc | hc) | hc
    · exact forall_mem_of_all (p := fun c => isBrace c = false) (by decide) c hc
    · exact hkey c hc
    · exact forall_mem_of_all (p := fun c => isBrace c = false) (by decide) c hc
  · exact List.getLast?_concat

theorem reflectsBraces_rename : ReflectsBraces rename :=
  reflectsBraces_directUpdates.comp
    ((reflectsBraces_replace (by decide) (forall_mem_of_all (by decide))
      (forall_mem_of_all (by decide)) (by decide)).comp
      (reflectsBraces_replace (by decide) (forall_mem_of_all (by decide))
      (forall_mem_of_all (by decide)) (by decide)))

theorem keepsBraces_restore (verbatim : List Text) : KeepsBraces (Verbatim.restore verbatim) :=
  Text.keepsBraces_substitute (Verbatim.stopsAtBraces_readPlaceholder?.map (Verbatim.expand verbatim))

theorem keepsBraces_finish (verbatim : List Text) : KeepsBraces (finish verbatim) :=
  reflectsBraces_rename.toKeepsBraces.comp (keepsBraces_restore verbatim)

/-- A finished interpolation stands in a finished text exactly if the text, with its verbatim
contents, has a part that looks the same once its calls have their final names. -/
theorem finish_isInfix_iff (verbatim : List Text) {part : Text} (hpart : IsInterpolation part) :
    finish verbatim part <:+: finish verbatim t ↔
      ∃ g, g <:+: Verbatim.restore verbatim t ∧
        rename g = rename (Verbatim.restore verbatim part) := by
  have hrestored : IsInterpolation (Verbatim.restore verbatim part) := by
    obtain ⟨inner, rfl⟩ := hpart
    exact ⟨_, (keepsBraces_restore verbatim).interpolation inner⟩
  simp only [finish_eq]
  constructor
  · intro hstands
    obtain ⟨g, -, hg, hsame⟩ := reflectsBraces_rename.exists_isInfix hrestored hstands
    exact ⟨g, hg, hsame⟩
  · rintro ⟨g, hg, hsame⟩
    have hself : rename (Verbatim.restore verbatim part) <:+: rename g := hsame ▸ List.infix_rfl
    obtain ⟨g', hg', hstands, hsame'⟩ := reflectsBraces_rename.exists_isInfix hrestored hself
    rw [← hsame']
    exact reflectsBraces_rename.toKeepsBraces.isInfix hg' (hstands.trans hg)

end Template
end BladeView
