import BladeView.Proofs.Expression.Start
import BladeView.Proofs.Text.Trimmed

/-!
# Characters that the conversion passes on

The conversion writes signs, digits and the names of the objects that own a function, and it leaves
out blanks, sigils and the word of an arrow function. Any other character is in a script as often as
it is in its expression. This is said with weights: a weight that is nothing on the characters that
are written or left out is the same before and after.
-/
namespace BladeView

open Text (weight)

/-- A function that gives a text of the same weight. -/
def Text.Keeps (w : Char → Nat) (f : Text → Text) : Prop := ∀ t, weight w (f t) = weight w t

theorem Text.Keeps.map {w : Char → Nat} {f : Text → Text} (h : Keeps w f) (texts : List Text) :
    weight (weight w) (texts.map f) = weight (weight w) texts := by
  induction texts with
  | nil => rfl
  | cons t texts ih => rw [List.map_cons, weight_cons, weight_cons, h t, ih]

theorem Text.weight_reverse {w : Char → Nat} (t : Text) : weight w t.reverse = weight w t := by
  induction t with
  | nil => rfl
  | cons c t ih =>
    rw [List.reverse_cons, weight_append, ih, weight_cons, weight_cons, weight_nil]
    omega

theorem Text.enclosed?_eq_some {opening closing : Char} {t inner : Text}
    (h : enclosed? opening closing t = some inner) : t = opening :: (inner ++ [closing]) := by
  cases t with
  | nil => cases h
  | cons c cs =>
    simp only [enclosed?] at h
    obtain ⟨hopening, h⟩ := Option.ite_none_right_eq_some.1 h
    split at h
    case h_1 => cases h
    case h_2 d more hreverse =>
      obtain ⟨hclosing, h⟩ := Option.ite_none_right_eq_some.1 h
      cases h
      have hcs := congrArg List.reverse hreverse
      rw [List.reverse_reverse, List.reverse_cons] at hcs
      rw [hcs, beq_iff_eq.mp hopening, beq_iff_eq.mp hclosing]

theorem TopLevel.weight_dropEmptyLast {w : Char → Nat} (parts : List Text) :
    weight (weight w) (dropEmptyLast parts) = weight (weight w) parts := by
  fun_induction dropEmptyLast parts with
  | case1 => rfl
  | case2 part hempty =>
    rw [List.isEmpty_iff.mp hempty]
    rfl
  | case3 => rfl
  | case4 first rest _ ih => rw [Text.weight_cons, Text.weight_cons, ih]

namespace Expression

/-- The characters that the conversion of an echo may write or leave out: blanks, digits, signs, and
the letters of the words that are added or dropped. -/
def isHandled (c : Char) : Bool :=
  isBlank c || c.isDigit ||
    "$->?:.=+,!@()[]\x7b\x7d\x27\x22App.View.Helper.escStringfn".toList.contains c

section Weight

variable {w : Char → Nat} (hw : ∀ c, isHandled c = true → w c = 0)

include hw

theorem weight_handled {t : Text} (h : t.all isHandled = true) : weight w t = 0 := by
  induction t with
  | nil => rfl
  | cons c t ih =>
    rw [List.all_cons, Bool.and_eq_true] at h
    rw [Text.weight_cons, hw c h.1, ih h.2]

theorem weight_blank (c : Char) (hc : isBlank c = true) : w c = 0 :=
  hw c (by simp [isHandled, hc])

theorem weight_literal (t : Text) : weight w (literal t) = weight w t := by
  unfold literal
  split
  case h_2 => rfl
  case h_1 inner henclosed =>
    split
    case isTrue => rfl
    case isFalse =>
      have hsingle : w '\x27' = 0 := hw _ (by decide)
      have hdouble : w '\x22' = 0 := hw _ (by decide)
      rw [Text.enclosed?_eq_some henclosed]
      simp [hsingle, hdouble]

theorem weight_split (t : Text) :
    weight (weight w) (TopLevel.split t) = weight w t := by
  have htrim : Text.Keeps w Text.trim := Text.weight_trim (weight_blank hw)
  have hpieces := congrArg (weight w) (TopLevel.join_pieces ',' Level.start t)
  rw [Text.weight_join (weight_handled hw (by decide))] at hpieces
  rw [TopLevel.split_eq, TopLevel.weight_dropEmptyLast, htrim.map, hpieces]

variable {b : Bindings} {convert : Text → Text} (hconvert : Text.Keeps w convert)

include hconvert

theorem weight_key (t : Text) : weight w (key convert t) = weight w t := by
  have hquote : weight w "\"" = 0 := weight_handled hw (by decide)
  have hopening : weight w "[" = 0 := weight_handled hw (by decide)
  have hclosing : weight w "]" = 0 := weight_handled hw (by decide)
  unfold key
  split
  · exact hconvert t
  split
  · simp only [Text.weight_append, hquote, Nat.zero_add, Nat.add_zero]
  split
  · simp only [Text.weight_append, hopening, hclosing, hconvert t, Nat.zero_add, Nat.add_zero]
  · simp only [Text.weight_append, hquote, Nat.zero_add, Nat.add_zero]

theorem weight_entries (index : Nat) (items : List Text) :
    weight (weight w) (entries convert index items) =
      weight (weight w) items := by
  induction items generalizing index with
  | nil => rfl
  | cons item items ih =>
    rw [entries]
    cases hpair : pair? item with
    | none =>
      have hdigits : weight w (Text.ofNat index) = 0 := by
        refine weight_handled hw (List.all_eq_true.mpr fun c hc => ?_)
        have hdigit : c.isDigit = true := Nat.isDigit_of_mem_toDigits (by decide) (by decide) hc
        simp [isHandled, hdigit]
      have hquote : weight w "\"" = 0 := weight_handled hw (by decide)
      have hcolon : weight w "\": " = 0 := weight_handled hw (by decide)
      simp only [Text.weight_cons, Text.weight_append, hquote, hdigits, hcolon, hconvert item, ih,
        Nat.zero_add]
    | some found =>
      obtain ⟨left, right⟩ := found
      obtain ⟨l, r, rfl, rfl, rfl⟩ := pair?_eq_some hpair
      have hcolon : weight w ": " = 0 := weight_handled hw (by decide)
      have harrow : weight w "=>" = 0 := weight_handled hw (by decide)
      simp only [Text.weight_cons, Text.weight_append, weight_key hw hconvert, hcolon, harrow,
        hconvert (Text.trim r), Text.weight_trim (weight_blank hw), ih, Nat.zero_add, Nat.add_zero]

theorem weight_array (inner : Text) :
    weight w (array convert inner) = weight w inner := by
  have hcomma : weight w ", " = 0 := weight_handled hw (by decide)
  have hopening : weight w "[" = 0 := weight_handled hw (by decide)
  have hclosing : weight w "]" = 0 := weight_handled hw (by decide)
  have hbrace : weight w "\x7b" = 0 := weight_handled hw (by decide)
  have hend : weight w "\x7d" = 0 := weight_handled hw (by decide)
  simp only [array]
  split
  · rw [Text.weight_append, Text.weight_append, hbrace, hend, Text.weight_join hcomma,
      weight_entries hw hconvert, weight_split hw]
    omega
  · rw [Text.weight_append, Text.weight_append, hopening, hclosing, Text.weight_join hcomma,
      hconvert.map, weight_split hw]
    omega

theorem weight_bracketed (before : Before) (inner : Text) :
    weight w (bracketed convert before inner) = weight w inner := by
  unfold bracketed
  split
  · have hopening : w '[' = 0 := hw _ (by decide)
    have hclosing : w ']' = 0 := hw _ (by decide)
    simp [hopening, hclosing, hconvert inner]
  · exact weight_array hw hconvert inner

end Weight

/-! ## Turns -/

section Run

variable {w : Char → Nat} (hw : ∀ c, isHandled c = true → w c = 0) {b : Bindings}
  {convert : Text → Text}

theorem weight_write (p : Pass) (t : Text) :
    weight w (p.write t).written = weight w t + weight w p.written := by
  rw [Pass.write, Text.weight_append, Text.weight_reverse]

theorem weight_token (p : Pass) (t : Text) (next : Before) :
    weight w (p.token t next).written = weight w t + weight w p.written :=
  weight_write p t

include hw

/-- **A turn loses and adds nothing that weighs.** -/
theorem weight_turn (hconvert : Text.Keeps w convert) {p p' : Pass} {read rest : Text}
    (h : Turn b convert p read rest p') :
    weight w p'.written = weight w read + weight w p.written := by
  have hsign : ∀ t u : Text, t.all isHandled = true → u.all isHandled = true →
      ∀ next, weight w (p.token t next).written =
        weight w u + weight w p.written := by
    intro t u ht hu next
    rw [weight_token, weight_handled hw ht, weight_handled hw hu]
  cases h with
  | escape | escapeEnd | nameTail | blank => exact weight_write p _
  | word | number | optional | spread | dot | bracket | sign => exact weight_token p _ _
  | arrow | optionalArrow | static | append => exact hsign _ _ (by decide) (by decide) _
  | quoted => rw [weight_token, weight_literal hw]
  | sigil =>
    have hsigil : w '$' = 0 := hw _ (by decide)
    rw [weight_token, Text.weight_cons _ '$', hsigil, Nat.zero_add]
  | parameters _ hblanks =>
    have hword : w 'f' = 0 ∧ w 'n' = 0 := ⟨hw _ (by decide), hw _ (by decide)⟩
    simp only [Text.weight_cons, hword, Text.weight_blanks (weight_blank hw) hblanks, Nat.zero_add]
  | @routed c name =>
    have howner : weight w (Callee.owner (c :: name)) = 0 := by
      unfold Callee.owner
      split <;> exact weight_handled hw (by decide)
    have hdot : weight w "." = 0 := weight_handled hw (by decide)
    rw [weight_token, Callee.qualify, Text.weight_append, Text.weight_append, howner, hdot,
      Nat.zero_add]
  | concatenation hblanks =>
    have hplus : weight w " + " = 0 := weight_handled hw (by decide)
    have hdot : w '.' = 0 := hw _ (by decide)
    have hwritten : weight w (p.written.dropWhile isBlank) = weight w p.written :=
      Text.weight_trimStart (weight_blank hw) p.written
    rw [weight_token, hplus, hwritten, Text.weight_cons, hdot,
      Text.weight_blanks (weight_blank hw) hblanks]
  | group =>
    have hbrackets : w '[' = 0 ∧ w ']' = 0 := ⟨hw _ (by decide), hw _ (by decide)⟩
    rw [weight_token, weight_bracketed hw hconvert]
    simp [hbrackets]

theorem weight_run (hconvert : Text.Keeps w convert) (p : Pass) (t : Text) :
    weight w (run b convert p 0 t) = weight w p.written + weight w t := by
  refine @run_induction b convert
    (fun p t out => weight w out = weight w p.written + weight w t) ?_ ?_ p t
  · exact fun p => Text.weight_reverse p.written
  · intro p p' read rest out last hturn hout
    rw [hout, Text.weight_append]
    simp only [weight_turn hw hconvert hturn]
    omega

theorem keeps_toScriptWithin (depth : Nat) : Text.Keeps w (toScriptWithin b depth) := by
  induction depth with
  | zero => exact fun t => rfl
  | succ depth ih =>
    intro t
    rw [toScriptWithin, weight_run hw ih, Text.weight_trim (weight_blank hw)]
    exact Nat.zero_add _

/-- **A script weighs as much as its expression**, if only characters weigh that the conversion
neither writes nor leaves out. -/
theorem weight_toScript (b : Bindings) : Text.Keeps w (toScript b) := fun t =>
  keeps_toScriptWithin hw (t.length + 1) t

end Run

end Expression
end BladeView
