import BladeView.Proofs.Expression.Settled
import BladeView.Proofs.Reference.Mention

/-!
# What the pass does at a token

At every position the pass finds a token that stays, or a closed bracket, or something that it
writes in another way. In the last case the output differs from the text at a place that both have,
and nothing that is written later can undo that: what is written stays, but for blanks at the end
before a concatenation.
-/
namespace BladeView.Expression

/-- Two texts that differ at a place that both have. -/
def Conflict (t u : Text) : Prop :=
  ∃ common c d t' u', c ≠ d ∧ t = common ++ c :: t' ∧ u = common ++ d :: u'

namespace Conflict

variable {t u : Text}

theorem cons {c d : Char} (h : c ≠ d) (t u : Text) : Conflict (c :: t) (d :: u) :=
  ⟨[], c, d, t, u, h, rfl, rfl⟩

theorem append_left (h : Conflict t u) (w : Text) : Conflict (w ++ t) (w ++ u) := by
  obtain ⟨common, c, d, t', u', hne, rfl, rfl⟩ := h
  exact ⟨w ++ common, c, d, t', u', hne, by simp, by simp⟩

theorem append_right (h : Conflict t u) (v w : Text) : Conflict (t ++ v) (u ++ w) := by
  obtain ⟨common, c, d, t', u', hne, rfl, rfl⟩ := h
  exact ⟨common, c, d, t' ++ v, u' ++ w, hne, by simp, by simp⟩

theorem ne (h : Conflict t u) : t ≠ u := by
  obtain ⟨common, c, d, t', u', hne, rfl, rfl⟩ := h
  intro heq
  exact hne (List.cons.inj (List.append_cancel_left heq)).1

end Conflict

/-! ## What is written stays -/

section Pass

variable {b : Bindings} {convert : Text → Text} {p : Pass} {c : Char} {cs : Text}

/-- All that was written, up to blanks at its end, is still there. -/
def Pass.Extends (p p' : Pass) : Prop :=
  p.written.dropWhile isBlank <:+ p'.written.dropWhile isBlank

theorem Turn.extends {read rest : Text} {p' : Pass} (h : Turn b convert p read rest p') :
    p.Extends p' := by
  cases h with
  | parameters => exact List.suffix_rfl
  | concatenation =>
    have hsame := Text.dropWhile_eq_self_of_head? (Text.head?_dropWhile isBlank p.written)
    have hdrop : p.Extends { p with written := p.written.dropWhile isBlank } := ⟨[], hsame.symm⟩
    exact hdrop.trans (Text.dropWhile_suffix_append _ _ _)
  | _ => exact Text.dropWhile_suffix_append _ _ _

/-- The output of the pass starts with what was written, up to blanks at its end. -/
theorem written_prefix_run (b : Bindings) (convert : Text → Text) (p : Pass) (jump : Nat)
    (t : Text) :
    (p.written.dropWhile isBlank).reverse <+: run b convert p jump t := by
  rw [run_jump]
  exact @run_induction b convert (fun p _ out => (p.written.dropWhile isBlank).reverse <+: out)
    (fun p => List.reverse_prefix.mpr (List.dropWhile_suffix _))
    (fun _ hturn hout => (List.reverse_prefix.mpr hturn.extends).trans hout)
    { p with last := (t.take jump).getLast?.or p.last } (t.drop jump)

/-- A token that ends with something other than a blank is in the output. -/
theorem run_written {w : Text} (hne : w ≠ []) (hlast : w.getLast?.any isBlank = false)
    (next : Before) (last : Option Char) (jump : Nat) (t : Text) :
    ∃ rest, run b convert ⟨next, last, w.reverse ++ p.written⟩ jump t =
      p.written.reverse ++ (w ++ rest) := by
  obtain ⟨rest, hrest⟩ := written_prefix_run b convert ⟨next, last, w.reverse ++ p.written⟩ jump t
  refine ⟨rest, hrest.symm.trans ?_⟩
  have hhead : (w.reverse ++ p.written).head?.any isBlank = false := by
    obtain ⟨d, hd⟩ := Option.ne_none_iff_exists'.mp (mt List.getLast?_eq_none_iff.mp hne)
    simpa [List.head?_append, hd] using hlast
  simp [Text.dropWhile_eq_self_of_head? hhead]

theorem run_of_token {w : Text} {next : Before} {jump : Nat} (hne : w ≠ [])
    (hlast : w.getLast?.any isBlank = false)
    (h : step b convert p c cs = (p.token w next, jump)) :
    ∃ rest, run b convert p 0 (c :: cs) = p.written.reverse ++ (w ++ rest) := by
  rw [run, h]
  exact run_written hne hlast next _ jump cs

/-! ## The first token that does not stay -/

/-- What the pass does at a token. -/
inductive Outcome (b : Bindings) (convert : Text → Text) (p : Pass) (c : Char) (cs : Text) : Prop
  | stays {token rest : Text} {next : Before} : c :: cs = token ++ rest →
      Stays b p.before p.last token rest next → Outcome b convert p c cs
  | group {inner rest : Text} : c :: cs = '[' :: (inner ++ ']' :: rest) →
      Group.read? (c :: cs) = some (inner, rest) → Outcome b convert p c cs
  | rewritten {d : Char} {rest : Text} : isBlank d = false →
      run b convert p 0 (c :: cs) = p.written.reverse ++ d :: rest →
      Conflict (d :: rest) (c :: cs) → Outcome b convert p c cs
  | concatenated {rest : Text} : c = '.' →
      run b convert p 0 (c :: cs) = (p.written.dropWhile isBlank).reverse ++ ' ' :: '+' :: rest →
      Outcome b convert p c cs

theorem isBlank_getLast? {name : Text} (h : ∀ c ∈ name, isNameChar c = true) :
    name.getLast?.any isBlank = false := by
  cases hlast : name.getLast? with
  | none => rfl
  | some c => exact isBlank_eq_false_of_isNameChar (h c (List.mem_of_getLast? hlast))

/-- A token that is written in another way. -/
theorem Outcome.of_token {first : Char} {more rest : Text} {next : Before} {last : Option Char}
    (h : run b convert p 0 (c :: cs) =
      run b convert { p.token (first :: more) next with last := last } 0 rest)
    (hfirst : isBlank first = false) (hlast : (first :: more).getLast?.any isBlank = false)
    (hconflict : ∀ after, Conflict (first :: (more ++ after)) (c :: cs)) :
    Outcome b convert p c cs := by
  obtain ⟨after, hafter⟩ := @run_written b convert p _ (List.cons_ne_nil _ _) hlast next last 0 rest
  exact .rewritten hfirst (h.trans hafter) (hconflict after)

/-- A literal stays unless single quotes become double ones. -/
theorem outcome_quoted {inside rest : Text} (hquote : isQuote c = true)
    (hinside : quotedRest c (inside ++ rest) = inside) {last : Option Char}
    (hrun : run b convert p 0 (c :: (inside ++ rest)) =
      run b convert { p.token (literal (c :: inside)) .literal with last := last } 0 rest) :
    Outcome b convert p c (inside ++ rest) := by
  by_cases hkeeps : KeepsQuotes (c :: inside)
  · exact .stays rfl (.quoted hquote hinside hkeeps)
  · obtain ⟨inner, hinner⟩ := Classical.not_forall.mp hkeeps
    obtain ⟨henclosed, hplain⟩ := Classical.not_imp.mp hinner
    have hc : c = '\x27' := by simpa using head?_of_enclosed? henclosed
    have hany : (inner.any fun d => d == '\x22' || d == '\\') = false := by
      simpa using hplain
    have hliteral : literal (c :: inside) = '\x22' :: (inner ++ ['\x22']) := by
      simp only [literal, henclosed, hany, Bool.false_eq_true, if_false]
      rfl
    rw [hliteral] at hrun
    refine .of_token hrun rfl ?_ fun after => .cons ?_ _ _
    · rw [← List.cons_append, List.getLast?_concat]
      rfl
    · rw [hc]
      decide

/-- Two texts whose first characters outside of a class are different. -/
theorem conflict_of_class {q : Char → Bool} {t u : Text} (ht : ∀ c ∈ t, q c = true)
    (hu : ∀ c ∈ u, q c = true) {c d : Char} (hc : q c = false) (hd : q d = false) (hne : c ≠ d)
    (t' u' : Text) : Conflict (t ++ c :: t') (u ++ d :: u') := by
  have hclass : ∀ a e, q a = true → q e = false → a ≠ e := by
    rintro a e ha he rfl
    simp [ha] at he
  induction t generalizing u with
  | nil =>
    cases u with
    | nil => exact .cons hne _ _
    | cons a u => exact .cons (hclass a c (hu a (by simp)) hc).symm _ _
  | cons a t ih =>
    cases u with
    | nil => exact .cons (hclass a d (ht a (by simp)) hd) _ _
    | cons e u =>
      by_cases hae : a = e
      · subst hae
        obtain ⟨-, ht⟩ := List.forall_mem_cons.mp ht
        obtain ⟨-, hu⟩ := List.forall_mem_cons.mp hu
        exact (ih ht hu).append_left [a]
      · exact .cons hae _ _

/-- What stands between a name and its arguments starts with a blank, if it is not empty. -/
theorem head?_of_callFollows {rest : Text} (h : callFollows rest = true) :
    ∃ c more, rest = c :: more ∧ isNameChar c = false ∧ c ≠ '.' := by
  cases rest with
  | nil => cases h
  | cons c more =>
    refine ⟨c, more, rfl, ?_⟩
    cases hc : isBlank c with
    | true =>
      refine ⟨isNameChar_eq_false_of_isBlank hc, ?_⟩
      rintro rfl
      cases hc
    | false =>
      obtain rfl : c = '(' := by simpa [callFollows, Text.trimStart, hc] using h
      decide

/-- A routed call goes to a member of the application object. -/
theorem qualify_eq (name : Text) :
    ∃ owner, Callee.qualify name = 'A' :: 'p' :: 'p' :: '.' :: (owner ++ name) := by
  simp only [Callee.qualify, Callee.owner]
  split
  · exact ⟨"View.".toList, rfl⟩
  · exact ⟨"Helper.".toList, rfl⟩

/-- Every token stays, is a group, or is written in another way. -/
theorem outcome (hname : p.endsName = p.last.any isNameChar) : Outcome b convert p c cs := by
  obtain ⟨read, rest, p', heq, hturn⟩ := exists_turn b convert p c cs
  have hrun := hturn.run
  rw [← heq] at hrun
  cases hturn with
  | escape => exact .stays heq .escape
  | escapeEnd => exact .stays heq .escapeEnd
  | quoted hquote hinside =>
    obtain ⟨rfl, rfl⟩ := List.cons.inj heq
    exact outcome_quoted hquote hinside hrun
  | @sigil d name _ _ hd hchars =>
    obtain ⟨rfl, rfl⟩ := List.cons.inj heq
    have hchar := isNameChar_of_isNameStart hd
    refine .of_token hrun (isBlank_eq_false_of_isNameChar hchar)
      (isBlank_getLast? (List.forall_mem_cons.mpr ⟨hchar, hchars⟩)) fun after => .cons ?_ _ _
    rintro rfl
    cases hd
  | nameTail hends hc => exact .stays heq (.nameTail (hname ▸ hends) hc)
  | @parameters blanks rest =>
    obtain ⟨rfl, rfl⟩ := List.cons.inj heq
    obtain ⟨after, hafter⟩ := @run_of_token b convert _ '(' rest ['('] (.sign '(') 0
      (List.cons_ne_nil _ _) rfl rfl
    exact @Outcome.rewritten _ _ _ _ _ '(' after rfl (hrun.trans hafter) (.cons (by decide) _ _)
  | @routed d name _ _ hd hchars _ hcall =>
    obtain ⟨rfl, rfl⟩ := List.cons.inj heq
    have hfull : ∀ e ∈ c :: name, isNameChar e = true :=
      List.forall_mem_cons.mpr ⟨isNameChar_of_isNameStart hd, hchars⟩
    obtain ⟨owner, howner⟩ := qualify_eq (c :: name)
    obtain ⟨d, more, rfl, hd, hdot⟩ := head?_of_callFollows hcall
    rw [howner] at hrun
    refine .of_token hrun rfl ?_ fun after => ?_
    · simpa [List.getLast?_cons, List.getLast?_append] using isBlank_getLast? hfull
    · have happ : ∀ e ∈ "App".toList, isNameChar e = true := List.all_eq_true.mp rfl
      exact conflict_of_class happ hfull rfl hd hdot.symm _ _
  | word hends hc hchars hrest hcall =>
    exact .stays heq (.word (hname ▸ hends) hc hchars hrest hcall)
  | number hends hc hnumber => exact .stays heq (.number (hname ▸ hends) hc hnumber)
  | arrow | static | append =>
    obtain ⟨rfl, rfl⟩ := List.cons.inj heq
    exact .of_token hrun rfl rfl fun after => .cons (by decide) _ _
  | optionalArrow =>
    obtain ⟨rfl, rfl⟩ := List.cons.inj heq
    exact .of_token hrun rfl rfl fun after => Conflict.append_left (.cons (by decide) _ _) ['?']
  | optional => exact .stays heq .optional
  | spread => exact .stays heq .spread
  | concatenation =>
    obtain ⟨after, hafter⟩ := written_prefix_run b convert _ 0 rest
    refine @Outcome.concatenated _ _ _ _ _ after (List.cons.inj heq).1 (hrun.trans (hafter.symm.trans ?_))
    have hblank : isBlank ' ' = true ∧ isBlank '+' = false := by decide
    simp [Pass.token, Pass.write, hblank]
  | dot hspread happend hconcat => exact .stays heq (.dot hspread happend hconcat)
  | @group inner _ hread =>
    have hcs : c :: cs = '[' :: (inner ++ ']' :: rest) := by simpa using heq
    exact .group hcs (hcs ▸ hread)
  | bracket hread => exact .stays heq (.bracket hread)
  | blank hblank => exact .stays heq (.blank hblank)
  | sign hsign hsigil harrows =>
    exact .stays heq (.sign hsign (fun hc => ⟨hname ▸ (hsigil hc).1, (hsigil hc).2⟩) harrows)

end Pass
end BladeView.Expression
