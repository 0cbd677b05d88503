import BladeView.Proofs.Expression.Inert
import BladeView.Proofs.Markup.YieldLists
import BladeView.Proofs.Source.Varies

/-!
# Escaped echoes

An escaped echo shows the value of its expression through an escaping call, unless the value is an
array or an object. Which it is, is decided by the first character of the script alone, so an
expression that starts with an array and goes on, with an index, a member or an operator, is shown
unescaped whatever its value is.

That the text around is compiled too has one effect on an echo: two lists of yielded attributes on
one line are merged, inside an expression as well. This is told from the weights of the two texts,
since echoes pass on all characters that they do not handle.

## Main statements

* `Echo.compile_escaped_iff`: the expressions that are escaped as they should be.
-/
namespace BladeView

open Text (after?_eq_some trim weight)

variable {t rest before e : Text}

namespace Text

/-- A pass that puts texts in place of pieces of the same weight. -/
theorem keeps_substitute {w : Char → Nat} {reader : Option Char → Text → Option (Text × Text)}
    (h : ∀ before t new rest, reader before t = some (new, rest) →
      ∃ piece, piece ≠ [] ∧ t = piece ++ rest ∧ weight w new = weight w piece) :
    Keeps w (substitute reader) := by
  have hsweep : ∀ t before jump,
      weight w (sweep (substituteStep reader) before () jump t) = weight w (t.drop jump) := by
    intro t
    induction t with
    | nil =>
      intro before jump
      rw [List.drop_nil]
      cases jump <;> rfl
    | cons c t ih =>
      intro before jump
      cases jump with
      | succ jump => exact ih (some c) jump
      | zero =>
        rw [sweep, List.drop_zero, substituteStep]
        cases hread : reader before (c :: t) with
        | none =>
          simp only [List.take_succ_cons, List.take_zero, weight_append, ih, List.drop_zero,
            weight_cons, weight_nil, Nat.add_zero]
        | some found =>
          obtain ⟨new, rest⟩ := found
          obtain ⟨piece, hne, hsplit, hweight⟩ := h _ _ _ _ hread
          obtain ⟨d, more, rfl⟩ := List.exists_cons_of_ne_nil hne
          rw [List.cons_append, List.cons.injEq] at hsplit
          obtain ⟨rfl, rfl⟩ := hsplit
          have hjump : readBeyond (c :: (more ++ rest)) rest = more.length :=
            readBeyond_append c more rest
          simp only [weight_append, ih, hjump, List.drop_left, hweight, weight_cons]
          omega
  exact fun t => hsweep t none 0

end Text

/-- Whether a script is one array or one object as a whole: it starts with a bracket or a brace that
is closed by its last character. -/
def Expression.isLiteral (code : Text) : Bool :=
  startsLiteral code && (Group.read? code).any fun group => group.2.isEmpty

namespace Echo

open Expression (isHandled startsLiteral toScript toScript_trim weight_handled weight_toScript)

/-! ## What echoes pass on -/

theorem pathRest_append (t : Text) : (pathRest t).1 ++ (pathRest t).2 = t := by
  fun_induction pathRest t with
  | case1 c cs _ path rest hrest ih => simp_all
  | case2 => rfl
  | case3 c cs _ _ path rest hrest ih => simp_all
  | case4 => rfl
  | case5 => rfl

/-- A raw variable with its braces. -/
theorem braced?_eq_some {path : Text} (h : braced? t = some (path, rest)) :
    ∃ before after, (∀ c ∈ before, isBlank c = true) ∧ (∀ c ∈ after, isBlank c = true) ∧
      t = '\x7b' :: (before ++ (path ++ (after ++ '\x7d' :: rest))) := by
  obtain ⟨inside, hopening, hread⟩ := Option.bind_eq_some_iff.1 h
  have hblanks (u : Text) : ∀ c ∈ u.takeWhile isBlank, isBlank c = true := fun c hc =>
    List.all_eq_true.1 List.all_takeWhile c hc
  have hsplit (u : Text) : u = u.takeWhile isBlank ++ Text.trimStart u :=
    List.takeWhile_append_dropWhile.symm
  split at hread
  case h_2 => cases hread
  case h_1 c cs htrim =>
    obtain ⟨-, hread⟩ := Option.ite_none_right_eq_some.1 hread
    obtain ⟨rest', hclosing, hpair⟩ := Option.bind_eq_some_iff.1 hread
    obtain ⟨rfl, rfl⟩ := Prod.mk.inj (Option.some.inj hpair)
    refine ⟨inside.takeWhile isBlank, ((pathRest cs).2).takeWhile isBlank, hblanks _, hblanks _, ?_⟩
    have hafter : '\x7d' :: rest' = Text.trimStart (pathRest cs).2 :=
      (after?_eq_some.1 hclosing).symm
    have hcs : (pathRest cs).1 ++ (pathRest cs).2 = cs := pathRest_append cs
    rw [hafter, ← hsplit]
    simp only [List.cons_append, hcs]
    rw [← htrim, ← hsplit]
    exact after?_eq_some.1 hopening

theorem opening?_eq_some {isRaw : Bool} (h : opening? t = some (before, isRaw, rest)) :
    t = before ++ ((marks isRaw).1 ++ rest) := by
  induction t generalizing before with
  | nil => cases h
  | cons c cs ih =>
    rw [opening?] at h
    split at h
    case h_1 rest' hraw =>
      cases h
      rw [List.nil_append]
      exact after?_eq_some.1 hraw
    case h_2 rest' _ hescaped =>
      cases h
      rw [List.nil_append]
      exact after?_eq_some.1 hescaped
    case h_3 =>
      obtain ⟨⟨before', isRaw', rest'⟩, hopening, hfound⟩ := Option.map_eq_some_iff.1 h
      cases hfound
      rw [ih hopening]
      rfl

theorem first?_eq_some {inside : Text} {isRaw : Bool}
    (h : first? t = some (before, isRaw, inside, rest)) :
    t = before ++ ((marks isRaw).1 ++ (inside ++ ((marks isRaw).2 ++ rest))) := by
  obtain ⟨⟨before', isRaw', after⟩, hopening, hread⟩ := Option.bind_eq_some_iff.1 h
  obtain ⟨⟨inside', rest'⟩, hclosing, hfound⟩ := Option.bind_eq_some_iff.1 hread
  cases hfound
  rw [opening?_eq_some hopening, Text.cut?_eq_append hclosing]

section Weight

variable {w : Char → Nat} (hw : ∀ c, isHandled c = true → w c = 0) {convert : Text → Text}
  (hconvert : Text.Keeps w convert)

include hw

theorem weight_interpolate (code : Text) :
    weight w (interpolate code) = weight w code := by
  have hopening : weight w "$\x7b" = 0 := weight_handled hw (by decide)
  have hclosing : weight w "\x7d" = 0 := weight_handled hw (by decide)
  rw [interpolate, Text.weight_append, Text.weight_append, hopening, hclosing]
  omega

theorem weight_marks (isRaw : Bool) :
    weight w (marks isRaw).1 = 0 ∧ weight w (marks isRaw).2 = 0 := by
  have hhandled {t : Text} := @Expression.weight_handled w hw t
  cases isRaw <;> exact ⟨hhandled (by decide), hhandled (by decide)⟩

include hconvert

theorem keeps_substituteVariables : Text.Keeps w (substituteVariables convert) := by
  refine Text.keeps_substitute fun before t new rest hread => ?_
  obtain ⟨-, hread⟩ := Option.ite_none_left_eq_some.1 hread
  obtain ⟨⟨path, rest'⟩, hbraced, hpair⟩ := Option.map_eq_some_iff.1 hread
  obtain ⟨rfl, rfl⟩ := Prod.mk.inj hpair
  obtain ⟨before', after, hbefore, hafter, rfl⟩ := braced?_eq_some hbraced
  refine ⟨'\x7b' :: (before' ++ (path ++ (after ++ ['\x7d']))), List.cons_ne_nil _ _, by simp, ?_⟩
  have hblank := Expression.weight_blank hw
  have hopening : w '\x7b' = 0 := hw _ (by decide)
  have hclosing : w '\x7d' = 0 := hw _ (by decide)
  rw [weight_interpolate hw, hconvert path]
  simp [Text.weight_blanks hblank hbefore, Text.weight_blanks hblank hafter, hopening, hclosing]

theorem weight_compile (isRaw : Bool) (inside : Text) :
    weight w (compile convert isRaw inside) = weight w inside := by
  have hcall : weight w "App.View.escString(" = 0 := weight_handled hw (by decide)
  have hclosing : weight w ")" = 0 := weight_handled hw (by decide)
  simp only [compile]
  split
  · rw [weight_interpolate hw, hconvert inside]
  · rw [weight_interpolate hw, Text.weight_append, Text.weight_append, hcall, hclosing,
      hconvert inside]
    omega

theorem weight_piecesUpTo (count : Nat) (t : Text) :
    weight w ((piecesUpTo count t).flatMap (Piece.output convert)) = weight w t := by
  have hvariables := keeps_substituteVariables hw hconvert
  induction count generalizing t with
  | zero =>
    rw [piecesUpTo, List.flatMap_singleton]
    exact hvariables t
  | succ count ih =>
    rw [piecesUpTo]
    cases hfirst : first? t with
    | none =>
      simp only [List.flatMap_singleton]
      exact hvariables t
    | some found =>
      obtain ⟨before, isRaw, inside, rest⟩ := found
      obtain ⟨hopening, hclosing⟩ := weight_marks hw isRaw
      have hsplit := congrArg (weight w) (first?_eq_some hfirst)
      simp only [Text.weight_append, hopening, hclosing, Nat.zero_add] at hsplit
      dsimp only
      split
      case isTrue hkept =>
        -- only the at sign before an echo that is kept is left out
        simp only [Bool.and_eq_true, Bool.not_eq_true'] at hkept
        obtain ⟨rfl, hends⟩ := hkept
        obtain ⟨front, rfl⟩ := List.isSuffixOf_iff_suffix.1 hends
        have hat : weight w "@" = 0 := weight_handled hw (by decide)
        have hlast : (front ++ "@".toList).dropLast = front := List.dropLast_concat
        rw [Text.weight_append, hat] at hsplit
        simp only [List.flatMap_cons, Text.weight_append, ih, Piece.output, hlast,
          hvariables front, hopening, hclosing, hsplit]
        omega
      case isFalse =>
        simp only [List.flatMap_cons, Text.weight_append, ih, Piece.output, hvariables before,
          weight_compile hw hconvert, hsplit]

omit hconvert in
/-- **Echoes pass on all characters that they do not handle.** -/
theorem weight_substitute (b : Bindings) : Text.Keeps w (substitute b) := fun t =>
  weight_piecesUpTo hw (weight_toScript hw b) t.length t

end Weight

/-! ## One echo -/

/-- An escaped echo of an expression. -/
def escaped (e : Text) : Text := "\x7b\x7b " ++ e ++ " \x7d\x7d"

/-- An interpolation that shows a value through the escaping call. -/
def interpolateEscaped (code : Text) : Text := interpolate ("App.View.escString(" ++ code ++ ")")

/-- The script form that escapes every value but arrays and objects that are written out. -/
def safe (code : Text) : Text :=
  if Expression.isLiteral code then interpolate code else interpolateEscaped code

theorem interpolate_ne_interpolateEscaped (code : Text) :
    interpolate code ≠ interpolateEscaped code := by
  intro h
  have hlength := congrArg List.length h
  simp only [interpolate, interpolateEscaped, List.length_append] at hlength
  have hcall : "App.View.escString(".toList.length = 19 := by decide
  omega

/-- The echo ends at the marks that close it, as its expression has none. -/
theorem first?_escaped (h : ¬ "\x7d\x7d".toList <:+: e) :
    first? (escaped e) = some ([], false, ' ' :: (e ++ [' ']), []) := by
  have hopening : opening? (escaped e) = some ([], false, ' ' :: (e ++ ' ' :: "\x7d\x7d".toList)) :=
    rfl
  have hspace : ¬ "\x7d\x7d".toList <:+: ' ' :: e := by
    rw [List.infix_cons_iff]
    rintro (hstart | hrest)
    · exact absurd (List.cons_prefix_cons.1 hstart).1 (by decide)
    · exact h hrest
  have hcut := Text.cut?_append_cons (by decide) (by decide : ' ' ∉ "\x7d\x7d".toList) hspace []
  rw [List.append_nil, List.cons_append] at hcut
  rw [first?, hopening]
  exact congrArg (Option.bind · _) hcut

theorem substitute_escaped (b : Bindings) (h : ¬ "\x7d\x7d".toList <:+: e) :
    substitute b (escaped e) = compile (toScript b) false (' ' :: (e ++ [' '])) := by
  obtain ⟨count, hcount⟩ : ∃ count, (escaped e).length = count + 2 :=
    ⟨(escaped e).length - 2, by simp [escaped]⟩
  have hpieces : pieces (escaped e) = [.text [], .echo false (' ' :: (e ++ [' '])), .text []] := by
    rw [pieces, hcount, piecesUpTo, first?_escaped h]
    rfl
  rw [substitute, hpieces]
  simp [Piece.output, substituteVariables, Text.substitute, Text.sweep]

theorem toScript_blanks (b : Bindings) (e : Text) :
    toScript b (' ' :: (e ++ [' '])) = toScript b e := by
  have hblanks : ∀ c ∈ [' '], isBlank c = true := by
    intro c hc
    obtain rfl := List.mem_singleton.mp hc
    rfl
  have htrim : trim (' ' :: (e ++ [' '])) = trim e :=
    (Text.trim_blanks_append hblanks).trans (Text.trim_append_blanks hblanks)
  rw [← toScript_trim, htrim, toScript_trim]

/-- What is shown unescaped is decided by the first character. -/
theorem substitute_escaped_eq (b : Bindings) (h : ¬ "\x7d\x7d".toList <:+: e) :
    substitute b (escaped e) =
      if startsLiteral (trim e) then interpolate (toScript b e)
      else interpolateEscaped (toScript b e) := by
  rw [substitute_escaped b h, ← Expression.startsLiteral_toScript b, compile, toScript_blanks]
  rfl

/-- A run of text without at signs: lists of yielded attributes are merged, then echoes are
compiled. -/
theorem compile_eq_substitute (b : Bindings) (h : '@' ∉ t) :
    Markup.compile b t = substitute b (Attribute.mergeLines t) := by
  have hmerged : '@' ∉ Attribute.mergeLines t :=
    Attribute.notMem_mergeLines rfl (by decide) (by decide) h
  simp only [Markup.compile, Handler.substitute, Attribute.substituteBindings,
    Attribute.substituteSubscriptions, Inline.substituteBlocks, Inline.substituteIncludes,
    Inline.substituteFields, Occurrence.substitute_eq_self _ h,
    Attribute.substituteYields_eq_mergeLines h, Occurrence.substitute_eq_self _ hmerged]

/-- The characters that are weighed to tell whether lists were merged. -/
def yieldWeight (c : Char) : Nat := if c = 'y' then 1 else 0

theorem yieldWeight_of_isHandled (c : Char) (hc : isHandled c = true) : yieldWeight c = 0 := by
  refine if_neg ?_
  rintro rfl
  exact absurd hc (by decide)

/-- Where lists are merged, an echo lacks characters that its expression has. -/
theorem compile_escaped_ne_safe (b : Bindings) (hat : '@' ∉ e)
    (h : weight yieldWeight (Attribute.mergeLines (escaped e)) <
      weight yieldWeight (escaped e)) :
    Markup.compile b (escaped e) ≠ safe (toScript b e) := by
  have hw := yieldWeight_of_isHandled
  have hsource : '@' ∉ escaped e := by simp [escaped, hat]
  have hsafe :
      weight yieldWeight (safe (toScript b e)) = weight yieldWeight (escaped e) := by
    have hcall : weight yieldWeight "App.View.escString(" = 0 := by decide
    have hclosing : weight yieldWeight ")" = 0 := by decide
    have hescaped : weight yieldWeight (escaped e) = weight yieldWeight e := by
      have hopening : weight yieldWeight "\x7b\x7b " = 0 := by decide
      have hend : weight yieldWeight " \x7d\x7d" = 0 := by decide
      rw [escaped, Text.weight_append, Text.weight_append, hopening, hend]
      omega
    unfold safe
    split
    · rw [weight_interpolate hw, weight_toScript hw, hescaped]
    · rw [interpolateEscaped, weight_interpolate hw, Text.weight_append, Text.weight_append, hcall,
        hclosing, weight_toScript hw, hescaped]
      omega
  intro heq
  rw [compile_eq_substitute b hsource] at heq
  have hweight := congrArg (weight yieldWeight) heq
  rw [weight_substitute hw, hsafe] at hweight
  omega

/-- **Which echoes are escaped as they should be.** Let `e` be an expression without at signs and
without the marks that close an echo. Its escaped echo is compiled to the escaping call around its
script, or to the script itself if that is one array or one object as a whole, if and only if no
line of the echo has two lists of yielded attributes and the script, if it starts as an array or an
object does, is one as a whole. If no line has two lists, the script is shown unescaped exactly if the
expression starts with a bracket or a brace, whatever follows. -/
theorem compile_escaped_iff (b : Bindings) {e : Text} (hat : '@' ∉ e)
    (hclose : ¬ "\x7d\x7d".toList <:+: e) :
    (Markup.compile b (escaped e) = safe (toScript b e) ↔
      (∀ line ∈ Text.splitOn '\n' (escaped e), ¬ Attribute.HasTwoLists line) ∧
        (startsLiteral (Text.trim e) = true → Expression.isLiteral (toScript b e) = true)) ∧
    ((∀ line ∈ Text.splitOn '\n' (escaped e), ¬ Attribute.HasTwoLists line) →
      Markup.compile b (escaped e) =
        if startsLiteral (Text.trim e) then interpolate (toScript b e)
        else interpolateEscaped (toScript b e)) := by
  have hsource : '@' ∉ escaped e := by simp [escaped, hat]
  have hlone (hlists : ∀ line ∈ Text.splitOn '\n' (escaped e), ¬ Attribute.HasTwoLists line) :
      Markup.compile b (escaped e) =
        if startsLiteral (Text.trim e) then interpolate (toScript b e)
        else interpolateEscaped (toScript b e) := by
    rw [compile_eq_substitute b hsource, Attribute.mergeLines_eq_self hlists,
      substitute_escaped_eq b hclose]
  refine ⟨⟨fun hsafe => ?_, ?_⟩, hlone⟩
  · have hblank (c : Char) (hc : isBlank c = true) : yieldWeight c = 0 :=
      Expression.weight_blank yieldWeight_of_isHandled c hc
    rcases Attribute.weight_mergeLines_cases hblank (by decide) (escaped e) with hlists | hlt
    · refine ⟨hlists, fun hstarts => ?_⟩
      rw [hlone hlists, if_pos hstarts] at hsafe
      by_contra hliteral
      rw [safe, if_neg hliteral] at hsafe
      exact interpolate_ne_interpolateEscaped _ hsafe
    · exact absurd hsafe (compile_escaped_ne_safe b hat hlt)
  · rintro ⟨hlists, hliteral⟩
    rw [hlone hlists, safe]
    cases hstarts : startsLiteral (Text.trim e) with
    | true => rw [hliteral hstarts]
    | false =>
      have hnot : Expression.isLiteral (toScript b e) = false := by
        rw [Expression.isLiteral, Expression.startsLiteral_toScript, hstarts, Bool.false_and]
      rw [hnot]

/-- An array is shown as it is, and so is an item that is taken from one. -/
theorem compile_escaped_iff_item :
    Markup.compile {} (escaped "[$a]") = safe (toScript {} "[$a]") ∧
      Markup.compile {} (escaped "[$a][0]") = "$\x7b[a][0]\x7d".toList ∧
      Markup.compile {} (escaped "[$a][0]") ≠ safe (toScript {} "[$a][0]") := by
  have harray := compile_escaped_iff {} (e := "[$a]") (by decide) (by decide)
  have hitem := compile_escaped_iff {} (e := "[$a][0]") (by decide) (by decide)
  simp only [Attribute.hasTwoLists_iff] at harray hitem
  refine ⟨harray.1.2 (by decide +kernel), ?_, fun hsafe => ?_⟩
  · exact (hitem.2 (by decide +kernel)).trans (by decide +kernel)
  · exact absurd ((hitem.1.1 hsafe).2 (by decide)) (by decide +kernel)

end Echo
end BladeView
