import Mathlib.Data.List.Forall2
import BladeView.Proofs.Expression.Outcome
import BladeView.Proofs.Expression.Tree

/-!
# Reading expressions

What the pass does where an expression begins. An expression begins where no name goes on, where a
bracket opens an array, and where a call is a plain call. From there the pass reads the whole text
of the expression, whatever follows it that cannot extend it, and writes its script form. There is
one lemma for each kind of expression.
-/
namespace BladeView.Expression

open List (any_eq_false append_assoc mem_cons not_mem_nil)
open Text (enclosed? forall_mem_of_all join join_singleton)
open Callee (qualify)
open Dialect (arrow callee entry quote)

variable {b : Bindings} {convert : Text → Text} {p : Pass}

/-! ## Tokens -/

theorem run_sign {c : Char} (hc : c ∈ ['(', ')', '\x7b', '\x7d']) (rest : Text) :
    run b convert p 0 (c :: rest) = run b convert ⟨.sign c, some c, c :: p.written⟩ 0 rest := by
  simp only [mem_cons, not_mem_nil, or_false] at hc
  rcases hc with rfl | rfl | rfl | rfl <;> rfl

/-- A sign with a space after it. -/
theorem run_spaced {c : Char} (hc : c ∈ [',', ':', '+']) (rest : Text) :
    run b convert p 0 (c :: ' ' :: rest) =
      run b convert ⟨.sign c, some ' ', ' ' :: c :: p.written⟩ 0 rest := by
  simp only [mem_cons, not_mem_nil, or_false] at hc
  rcases hc with rfl | rfl | rfl <;> rfl

/-! ## Where expressions stand -/

/-- Where an expression may begin: no name goes on there, a bracket opens an array, and a call is a
plain call. -/
structure Pass.IsFresh (p : Pass) : Prop where
  endsName : p.endsName = false
  last : p.last.any isNameChar = false
  takesIndex : p.before.takesIndex = false
  hidesCall : p.before.hidesCall = false

theorem isFresh_start : Pass.IsFresh {} := ⟨rfl, rfl, rfl, rfl⟩

theorem isFresh_sign {c : Char} (hc : c ∈ ['(', ',', ':', '+', '\x7b']) (written : Text)
    {last : Char} (hlast : last = c ∨ last = ' ') :
    Pass.IsFresh ⟨.sign c, some last, last :: written⟩ := by
  simp only [mem_cons, not_mem_nil, or_false] at hc
  rcases hc with rfl | rfl | rfl | rfl | rfl
  all_goals
    rcases hlast with rfl | rfl
    all_goals exact ⟨rfl, rfl, rfl, rfl⟩

/-- What may follow a name that is not called. -/
structure EndsName (rest : Text) : Prop where
  name : rest.head?.any isNameChar = false
  call : callFollows rest = false

/-- What may follow an expression. -/
structure EndsExpression (rest : Text) : Prop extends EndsName rest where
  point : rest.head? ≠ some '.'

theorem endsExpression_nil : EndsExpression [] := ⟨⟨rfl, rfl⟩, by simp⟩

theorem endsExpression_cons {c : Char} (hc : c ∈ [')', ',', '\x7d']) (rest : Text) :
    EndsExpression (c :: rest) := by
  simp only [mem_cons, not_mem_nil, or_false] at hc
  rcases hc with rfl | rfl | rfl <;> exact ⟨⟨rfl, rfl⟩, by simp⟩

/-- The pass reads `t` where an expression may begin, and writes `w` for it. -/
def Reads (b : Bindings) (convert : Text → Text) (t w : Text) : Prop :=
  ∀ p rest, p.IsFresh → EndsExpression rest → ∃ next last,
    run b convert p 0 (t ++ rest) = run b convert ⟨next, last, w.reverse ++ p.written⟩ 0 rest

/-- The same for what can have a member: a dot that follows is no concatenation. -/
def ReadsAccess (b : Bindings) (convert : Text → Text) (t w : Text) : Prop :=
  ∀ p rest, p.IsFresh → EndsName rest → ∃ next last,
    (last.any isStringQuote = false ∧ last.any isBlank = false) ∧
    run b convert p 0 (t ++ rest) = run b convert ⟨next, last, w.reverse ++ p.written⟩ 0 rest

theorem ReadsAccess.reads {t w : Text} (h : ReadsAccess b convert t w) : Reads b convert t w := by
  intro p rest hp hrest
  obtain ⟨next, last, -, hrun⟩ := h p rest hp hrest.toEndsName
  exact ⟨next, last, hrun⟩

/-! ## Names -/

theorem getLast?_name (name : Identifier) :
    name.text.getLast?.any isStringQuote = false ∧ name.text.getLast?.any isBlank = false := by
  refine ⟨?_, isBlank_getLast? name.isNameChar⟩
  cases hlast : name.text.getLast? with
  | none => rfl
  | some c =>
    have hc := name.isNameChar c (List.mem_of_getLast? hlast)
    have hne : ∀ d, isNameChar d = false → c ≠ d := fun d hd => isNameChar_ne hc hd
    simp [isStringQuote, hne '\x27' rfl, hne '\x22' rfl]

/-- A name that is not called, or whose call is not routed. -/
theorem run_name (name : Identifier) {rest : Text} (hends : p.endsName = false)
    (hlast : p.last.any isNameChar = false) (hrest : rest.head?.any isNameChar = false)
    (hcall : callFollows rest = true →
      name.text ≠ "fn".toList ∧ isRouted b name.text p.before = false) :
    run b convert p 0 (name.text ++ rest) =
      run b convert ⟨.word name.text, name.text.getLast?, name.text.reverse ++ p.written⟩ 0 rest := by
  refine run_of_stays (hends.trans hlast.symm) (.word hlast name.first_isNameStart ?_ hrest hcall)
  exact fun c hc => (name.more_isNameChar c hc).1

/-- A variable of a template. -/
theorem run_sigil (name : Identifier) {rest : Text} (hends : p.endsName = false)
    (hrest : rest.head?.any isNameChar = false) :
    run b convert p 0 ('$' :: (name.text ++ rest)) =
      run b convert ⟨.word name.text, name.text.getLast?, name.text.reverse ++ p.written⟩ 0 rest := by
  have hchars : ∀ c ∈ name.more, isNameChar c = true := fun c hc => (name.more_isNameChar c hc).1
  have hrun := (@Turn.sigil b convert p _ _ rest hends name.first_isNameStart hchars hrest).run
  rwa [List.getLast?_cons_cons] at hrun

theorem readsAccess_var {d : Dialect} (hd : d = .template ∨ d = .script b) (name : Identifier) :
    ReadsAccess b convert (d.var name.text) name.text := by
  intro p rest hp hrest
  refine ⟨.word name.text, name.text.getLast?, getLast?_name name, ?_⟩
  rcases hd with rfl | rfl
  · exact run_sigil name hp.endsName hrest.name
  · refine run_name name hp.endsName hp.last hrest.name fun hcall => ?_
    rw [hrest.call] at hcall
    cases hcall

/-! ## Members -/

/-- The pass after an arrow or a dot. -/
theorem run_arrow {d : Dialect} (hd : d = .template ∨ d = .script b) (name : Identifier)
    (hquote : p.last.any isStringQuote = false) (hblank : p.last.any isBlank = false)
    {rest : Text} (hrest : rest.head?.any isNameChar = false)
    (hfn : callFollows rest = true → name.text ≠ "fn".toList) :
    run b convert p 0 (d.arrow ++ (name.text ++ rest)) =
      run b convert ⟨.word name.text, name.text.getLast?, name.text.reverse ++ '.' :: p.written⟩ 0
        rest := by
  have hmember : ∀ last, (last == '>' || last == '.') = true →
      run b convert ⟨.sign '.', some last, '.' :: p.written⟩ 0 (name.text ++ rest) =
        run b convert ⟨.word name.text, name.text.getLast?, name.text.reverse ++ '.' :: p.written⟩ 0
          rest := by
    intro last hlast
    refine run_name name rfl ?_ hrest fun hcall => ⟨hfn hcall, ?_⟩
    · rw [Bool.or_eq_true, beq_iff_eq, beq_iff_eq] at hlast
      rcases hlast with rfl | rfl <;> rfl
    · simp [isRouted, Before.hidesCall]
  rcases hd with rfl | rfl
  · have harrow : run b convert p 0 ("->" ++ (name.text ++ rest)) =
        run b convert ⟨.sign '.', some '>', '.' :: p.written⟩ 0 (name.text ++ rest) := rfl
    exact harrow.trans (hmember '>' rfl)
  · have hne : ∀ c, isNameStart c = false → name.first ≠ c := by
      rintro c hc rfl
      rw [name.first_isNameStart] at hc
      cases hc
    have hspread : Text.startsWith ".." (name.text ++ rest) = false :=
      startsWith_cons_eq_false (hne '.' rfl)
    have happend : (name.text ++ rest).head? ≠ some '=' := by simpa [Identifier.text] using hne '=' rfl
    have hconcat : concatenates p.last (name.text ++ rest) = false := by
      simp [concatenates, Identifier.text, isStringQuote, hquote, hblank, hne '\x27' rfl,
        hne '\x22' rfl, hne '$' rfl]
    exact (@Turn.dot b convert p _ hspread happend hconcat).run.trans (hmember '.' rfl)

theorem readsAccess_member {d : Dialect} (hd : d = .template ∨ d = .script b) {t w : Text}
    (h : ReadsAccess b convert t w) (name : Identifier) :
    ReadsAccess b convert (t ++ (d.arrow ++ name.text)) (w ++ ("." ++ name.text)) := by
  intro p rest hp hrest
  have harrow : EndsName (d.arrow ++ (name.text ++ rest)) := by
    rcases hd with rfl | rfl
    · exact ⟨rfl, rfl⟩
    · exact ⟨rfl, rfl⟩
  obtain ⟨next, last, ⟨hquote, hblank⟩, hrun⟩ := h p _ hp harrow
  refine ⟨.word name.text, name.text.getLast?, getLast?_name name, ?_⟩
  rw [append_assoc, append_assoc, hrun, run_arrow hd name hquote hblank hrest.name]
  · simp
  · intro hcall
    rw [hrest.call] at hcall
    cases hcall

/-! ## Calls -/

/-- A list of expressions up to the delimiter that closes it. -/
theorem run_list {ts ws : List Text} (h : List.Forall₂ (Reads b convert) ts ws) {closing : Char}
    (hclosing : closing ∈ [')', '\x7d']) (hp : p.IsFresh) (rest : Text) :
    ∃ next last, run b convert p 0 (join ", " ts ++ closing :: rest) =
      run b convert ⟨next, last, (join ", " ws).reverse ++ p.written⟩ 0 (closing :: rest) := by
  have hends : EndsExpression (closing :: rest) := by
    refine endsExpression_cons ?_ rest
    simp only [mem_cons, not_mem_nil, or_false] at hclosing ⊢
    rcases hclosing with rfl | rfl <;> simp
  induction h generalizing p with
  | nil => exact ⟨p.before, p.last, rfl⟩
  | @cons t w ts ws ht hts ih =>
    cases hts with
    | nil =>
      rw [join_singleton, join_singleton]
      exact ht p _ hp hends
    | @cons t' w' ts ws ht' hts =>
      obtain ⟨next, last, hfirst⟩ := ht p (", " ++ (join ", " (t' :: ts) ++ closing :: rest)) hp
        (@endsExpression_cons ',' (by simp) _)
      obtain ⟨next', last', hmore⟩ := @ih ⟨.sign ',', some ' ', ' ' :: ',' :: (w.reverse ++ p.written)⟩
        (isFresh_sign (by simp) _ (.inr rfl))
      refine ⟨next', last', ?_⟩
      have hcomma := @run_spaced b convert ⟨next, last, w.reverse ++ p.written⟩ ',' (by simp)
        (join ", " (t' :: ts) ++ closing :: rest)
      rw [Text.join_cons_cons, Text.join_cons_cons, append_assoc, append_assoc, hfirst]
      refine hcomma.trans (hmore.trans ?_)
      simp

/-- Arguments in parentheses. -/
theorem run_argumentList {ts ws : List Text} (h : List.Forall₂ (Reads b convert) ts ws)
    (rest : Text) : run b convert p 0 (argumentList ts ++ rest) =
      run b convert ⟨.sign ')', some ')', (argumentList ws).reverse ++ p.written⟩ 0 rest := by
  obtain ⟨next, last, hlist⟩ := @run_list b convert ⟨.sign '(', some '(', '(' :: p.written⟩ ts ws h
    ')' (by simp) (isFresh_sign (by simp) _ (.inl rfl)) rest
  have hsplit : argumentList ts ++ rest = '(' :: (join ", " ts ++ ')' :: rest) := by
    simp [argumentList]
  rw [hsplit, run_sign (by simp), hlist, run_sign (by simp)]
  simp [argumentList]

/-- A call whose name is kept: a word or a global of the script language, or a bound name. -/
def isBare (b : Bindings) (name : Text) : Bool :=
  Callee.isKeyword name || Callee.isGlobal name || b.has name

theorem callee_of_isBare {name : Text} (h : isBare b name = true) :
    callee (.script b) name = name := if_pos h

theorem callee_of_not_isBare {name : Text} (h : isBare b name = false) :
    callee (.script b) name = qualify name := by
  have hbare : ¬ (Callee.isKeyword name || Callee.isGlobal name || b.has name) = true := by
    rw [← isBare, h]
    decide
  rw [callee, if_neg hbare, qualify, Callee.owner]
  split <;> rfl

theorem isRouted_eq (name : Identifier) {before : Before} (hbefore : before.hidesCall = false) :
    isRouted b name.text before = !isBare b name.text := by
  have hdollar : (name.text.any (· == '$')) = false := by
    rw [any_eq_false]
    intro c hc
    rw [beq_iff_eq]
    rcases mem_cons.1 hc with rfl | hc
    · intro heq
      have hstart := name.first_isNameStart
      rw [heq] at hstart
      cases hstart
    · exact (name.more_isNameChar c hc).2
  simp [isRouted, isBare, hdollar, hbefore, Bool.and_assoc]

/-- A plain call of a template is routed. -/
theorem run_routed (name : CalledName) (hp : p.IsFresh) (hbare : isBare b name.text = false)
    (rest : Text) : run b convert p 0 (name.text ++ '(' :: rest) =
      run b convert ⟨.word name.text, name.text.getLast?,
        (qualify name.text).reverse ++ p.written⟩ 0 ('(' :: rest) := by
  have hrouted : isRouted b name.text p.before = true := by
    rw [isRouted_eq _ hp.hidesCall, hbare]
    rfl
  exact (Turn.routed hp.endsName name.first_isNameStart
    (fun c hc => (name.more_isNameChar c hc).1) rfl rfl name.ne_fn hrouted).run

/-- A name with the object that owns it is left as it is. -/
theorem run_qualified (name : CalledName) (hp : p.IsFresh) (rest : Text) :
    run b convert p 0 (qualify name.text ++ '(' :: rest) =
      run b convert ⟨.word name.text, name.text.getLast?,
        (qualify name.text).reverse ++ p.written⟩ 0 ('(' :: rest) := by
  have howner : ∃ app owner : Identifier, qualify name.text =
      app.text ++ (arrow (.script b) ++
        (owner.text ++ (arrow (.script b) ++ name.text))) := by
    rw [qualify, Callee.owner]
    split
    · exact ⟨⟨'A', "pp", rfl, forall_mem_of_all (by decide)⟩,
        ⟨'V', "iew", rfl, forall_mem_of_all (by decide)⟩, rfl⟩
    · exact ⟨⟨'A', "pp", rfl, forall_mem_of_all (by decide)⟩,
        ⟨'H', "elper", rfl, forall_mem_of_all (by decide)⟩, rfl⟩
  obtain ⟨app, owner, howner⟩ := howner
  -- A dot goes before each of the other names, so none of them is a plain call.
  have hdot : ∀ t, callFollows (arrow (.script b) ++ t) = true → False := by
    intro t hcall
    cases hcall
  have happ := fun t => @run_name b convert p app (arrow (.script b) ++ t) hp.endsName
    hp.last rfl fun hcall => (hdot t hcall).elim
  have hmember := fun (p : Pass) (name : Identifier) (t : Text) (hquote) (hblank) =>
    @run_arrow b convert p _ (.inr rfl) name hquote hblank t
  rw [howner, append_assoc, append_assoc, append_assoc, append_assoc, happ,
    hmember _ owner _ (getLast?_name app).1 (getLast?_name app).2 rfl fun hcall =>
      (hdot _ hcall).elim,
    hmember _ name.toIdentifier _ (getLast?_name owner).1 (getLast?_name owner).2 rfl fun _ =>
      name.ne_fn]
  simp [arrow]

theorem readsAccess_call {d : Dialect} (hd : d = .template ∨ d = .script b) (name : CalledName)
    {ts ws : List Text} (h : List.Forall₂ (Reads b convert) ts ws) :
    ReadsAccess b convert (d.callee name.text ++ argumentList ts)
      (callee (.script b) name.text ++ argumentList ws) := by
  intro p rest hp hrest
  have hcallee : ∃ next last, run b convert p 0 (d.callee name.text ++ (argumentList ts ++ rest)) =
      run b convert ⟨next, last, (callee (.script b) name.text).reverse ++ p.written⟩ 0
        (argumentList ts ++ rest) := by
    refine ⟨.word name.text, name.text.getLast?, ?_⟩
    cases hbare : isBare b name.text with
    | true =>
      have hkept : d.callee name.text = name.text := by
        rcases hd with rfl | rfl
        · rfl
        · exact callee_of_isBare hbare
      rw [hkept, callee_of_isBare hbare]
      refine run_name name.toIdentifier hp.endsName hp.last rfl fun _ => ⟨name.ne_fn, ?_⟩
      rw [isRouted_eq _ hp.hidesCall, hbare]
      rfl
    | false =>
      rw [callee_of_not_isBare hbare]
      rcases hd with rfl | rfl
      · exact run_routed name hp hbare _
      · rw [callee_of_not_isBare hbare]
        exact run_qualified name hp _
  obtain ⟨next, last, hcallee⟩ := hcallee
  refine ⟨.sign ')', some ')', ⟨rfl, rfl⟩, ?_⟩
  rw [append_assoc, hcallee, run_argumentList h]
  simp

theorem readsAccess_method {d : Dialect} (hd : d = .template ∨ d = .script b) {t w : Text}
    (h : ReadsAccess b convert t w) (name : CalledName) {ts ws : List Text}
    (hargs : List.Forall₂ (Reads b convert) ts ws) :
    ReadsAccess b convert (t ++ (d.arrow ++ (name.text ++ argumentList ts)))
      (w ++ ("." ++ (name.text ++ argumentList ws))) := by
  intro p rest hp hrest
  have harrow : EndsName (d.arrow ++ (name.text ++ (argumentList ts ++ rest))) := by
    rcases hd with rfl | rfl
    · exact ⟨rfl, rfl⟩
    · exact ⟨rfl, rfl⟩
  obtain ⟨next, last, ⟨hquote, hblank⟩, hrun⟩ := h p _ hp harrow
  refine ⟨.sign ')', some ')', ⟨rfl, rfl⟩, ?_⟩
  rw [append_assoc, append_assoc, append_assoc, hrun,
    run_arrow hd name.toIdentifier hquote hblank rfl fun _ => name.ne_fn, run_argumentList hargs]
  simp

/-! ## Brackets -/

/-- An item of an array without keys. -/
structure IsItem (t : Text) : Prop where
  closed : ClosedCode isInner t
  trimmed : IsTrimmed t

namespace IsItem

variable {t : Text}

theorem isPart (h : IsItem t) : ClosedCode.IsPart t where
  closed := h.closed.mono fun _ hc => (Bool.and_eq_true_iff.1 hc).1
  ne_nil := h.trimmed.ne_nil
  trim := h.trimmed.trim

theorem pair?_eq_none (h : IsItem t) : pair? t = none := by
  have hcut : TopLevel.cut? ('=' :: ['>']) t = none :=
    ClosedCode.cut?_eq_none ['>'] (h.closed.mono fun _ hc => (Bool.and_eq_true_iff.1 hc).2)
  unfold pair?
  rw [show "=>".toList = '=' :: ['>'] from rfl, hcut]

end IsItem

theorem array_items {items : List Text} (h : ∀ item ∈ items, IsItem item) :
    array convert (join ", " items) = '[' :: (join ", " (items.map convert) ++ [']']) := by
  have hpairs : (items.any fun item => (pair? item).isSome) = false := by
    rw [any_eq_false]
    intro item hitem
    rw [(h item hitem).pair?_eq_none]
    decide
  have hsplit : TopLevel.split (join ", " items) = items :=
    ClosedCode.split_join fun item hitem => (h item hitem).isPart
  unfold array
  rw [hsplit]
  simp only [hpairs, Bool.false_eq_true, if_false]
  rfl

/-- An index is converted inside, and it makes no difference if it is taken for an array. -/
theorem bracketed_item {t : Text} (h : IsItem t) (before : Before) :
    bracketed convert before t = '[' :: (convert t ++ [']']) := by
  have harray := @array_items convert [t] (by simpa using h)
  rw [join_singleton, List.map_singleton, join_singleton] at harray
  unfold bracketed
  split
  · rfl
  · exact harray

theorem readsAccess_index {t w : Text} (h : ReadsAccess b convert t w) {k : Text} (hk : IsItem k) :
    ReadsAccess b convert (t ++ '[' :: (k ++ [']'])) (w ++ '[' :: (convert k ++ [']'])) := by
  intro p rest hp hrest
  obtain ⟨next, last, -, hrun⟩ := h p ('[' :: (k ++ ']' :: rest)) hp ⟨rfl, rfl⟩
  refine ⟨.sign ']', some ']', ⟨rfl, rfl⟩, ?_⟩
  have hbracket := @run_group _ _ b convert ⟨next, last, w.reverse ++ p.written⟩
    (hk.closed.read?_append rest)
  rw [bracketed_item hk] at hbracket
  have hsplit : t ++ '[' :: (k ++ [']']) ++ rest = t ++ '[' :: (k ++ ']' :: rest) := by simp
  rw [hsplit, hrun, hbracket]
  simp

theorem reads_list {items : List Text} (h : ∀ item ∈ items, IsItem item) :
    Reads b convert ('[' :: (join ", " items ++ [']']))
      ('[' :: (join ", " (items.map convert) ++ [']'])) := by
  intro p rest hp hrest
  refine ⟨.sign ']', some ']', ?_⟩
  have hclosed : ClosedCode (fun _ => true) (join ", " items) :=
    closed_join fun item hitem => (h item hitem).closed.mono fun _ _ => rfl
  have hbracket := @run_group _ _ b convert p (hclosed.read?_append rest)
  rw [bracketed, hp.takesIndex, if_neg (by decide), array_items h] at hbracket
  have hsplit : '[' :: (join ", " items ++ [']']) ++ rest =
      '[' :: (join ", " items ++ ']' :: rest) := by simp
  rw [hsplit, hbracket]

/-! ## Literals -/

theorem reads_integer (n : Digits) : Reads b convert n.text n.text := by
  intro p rest hp hrest
  refine ⟨.literal, n.text.getLast?, ?_⟩
  have hrest : number rest = [] := by
    have hname := hrest.name
    have hpoint := hrest.point
    cases rest with
    | nil => rfl
    | cons c cs =>
      have hc : isNameChar c = false := by simpa using hname
      have hne : c ≠ '.' := by simpa using hpoint
      simp only [isNameChar, Bool.or_eq_false_iff] at hc
      simp [number, hc, hne]
  have hnumber : ∀ digits : Text, (∀ c ∈ digits, c.isDigit = true) →
      number (digits ++ rest) = digits := by
    intro digits hdigits
    induction digits with
    | nil => exact hrest
    | cons c digits ih =>
      obtain ⟨hc, hdigits⟩ := List.forall_mem_cons.1 hdigits
      simp [number, Char.isAlphanum, hc, ih hdigits]
  have hdigits := hnumber n.text (List.forall_mem_cons.2 ⟨n.first_isDigit, n.more_isDigit⟩)
  exact run_of_stays (hp.endsName.trans hp.last.symm) (.number hp.last n.first_isDigit hdigits)

/-- A string in the quotation marks of either dialect. -/
theorem run_string {d : Dialect} (hd : d = .template ∨ d = .script b) (s : PlainString)
    (rest : Text) : ∃ last, run b convert p 0 (d.string s.inside ++ rest) =
      run b convert ⟨.literal, last, (Dialect.string (.script b) s.inside).reverse ++ p.written⟩ 0
        rest := by
  have hquote : isQuote d.quote = true ∧ d.quote ≠ '\\' ∧
      ∀ c ∈ s.inside, c ≠ d.quote ∧ c ≠ '\\' := by
    rcases hd with rfl | rfl
    · exact ⟨by decide, by decide, fun c hc => ⟨(s.inside_ne c hc).1, (s.inside_ne c hc).2.2⟩⟩
    · exact ⟨rfl, (by decide : '\x22' ≠ '\\'), fun c hc => (s.inside_ne c hc).2⟩
  obtain ⟨hquote, hslash, hinside⟩ := hquote
  have hread := quotedRest_append hinside hslash rest
  have hplain : (s.inside.any fun c => c == '\x22' || c == '\\') = false := by
    rw [any_eq_false]
    intro c hc
    simp [s.inside_ne c hc]
  have hliteral : literal (d.quote :: (s.inside ++ [d.quote])) =
      Dialect.string (.script b) s.inside := by
    rcases hd with rfl | rfl
    · have henclosed : enclosed? '\x27' '\x27' ('\x27' :: (s.inside ++ ['\x27'])) =
          some s.inside := by
        simp [enclosed?]
      unfold literal quote
      simp only [henclosed, hplain, Bool.false_eq_true, if_false]
      rfl
    · rfl
  refine ⟨(d.string s.inside).getLast?, ?_⟩
  rw [← List.singleton_append, ← append_assoc] at hread
  have hrun := (@Turn.quoted b convert p _ _ rest hquote hread).run
  rwa [hliteral] at hrun

theorem reads_string {d : Dialect} (hd : d = .template ∨ d = .script b) (s : PlainString) :
    Reads b convert (d.string s.inside) (Dialect.string (.script b) s.inside) := by
  intro p rest hp hrest
  obtain ⟨last, hrun⟩ := @run_string b convert p d hd s rest
  exact ⟨.literal, last, hrun⟩

/-! ## Concatenation -/

/-- The sign of a concatenation, after a text that does not end with a blank. -/
theorem run_concatenation {d : Dialect} (hd : d = .template ∨ d = .script b)
    (hwritten : p.written.head?.any isBlank = false) {rest : Text}
    (hrest : rest.head?.any isBlank = false) :
    run b convert p 0 (d.concatenation ++ rest) =
      run b convert ⟨.sign '+', some ' ', ' ' :: '+' :: ' ' :: p.written⟩ 0 rest := by
  rcases hd with rfl | rfl
  · -- The blank before the dot is dropped again, and the one after it is read with the dot.
    have hdrop : (' ' :: p.written).dropWhile isBlank = p.written :=
      Text.dropWhile_eq_self_of_head? hwritten
    have hspace : ∀ c ∈ [' '], isBlank c = true := List.forall_mem_singleton.2 rfl
    have hrun := (@Turn.concatenation b convert ⟨p.before, some ' ', ' ' :: p.written⟩ [' '] rest
      hspace hrest rfl (by simp) rfl).run
    simp only [hdrop] at hrun
    exact hrun
  · exact @run_spaced b convert ⟨p.before, some ' ', ' ' :: p.written⟩ '+' (by simp) rest

theorem reads_concat {d : Dialect} (hd : d = .template ∨ d = .script b) {t t' w w' : Text}
    (h : Reads b convert t w) (h' : Reads b convert t' w') (hw : IsTrimmed w) (ht' : IsTrimmed t') :
    Reads b convert (t ++ (d.concatenation ++ t')) (w ++ (" + " ++ w')) := by
  intro p rest hp hrest
  have hspace : some ' ' ≠ some '.' := by decide
  have hsign : EndsExpression (d.concatenation ++ (t' ++ rest)) := by
    rcases hd with rfl | rfl
    · exact ⟨⟨rfl, rfl⟩, hspace⟩
    · exact ⟨⟨rfl, rfl⟩, hspace⟩
  obtain ⟨next, last, hrun⟩ := h p _ hp hsign
  obtain ⟨next', last', hrun'⟩ := h' ⟨.sign '+', some ' ', ' ' :: '+' :: ' ' :: (w.reverse ++ p.written)⟩
    rest (isFresh_sign (by simp) _ (.inr rfl)) hrest
  refine ⟨next', last', ?_⟩
  have hwritten : (w.reverse ++ p.written).head?.any isBlank = false := by
    obtain ⟨c, hc⟩ := Option.ne_none_iff_exists'.1 (mt List.getLast?_eq_none_iff.1 hw.ne_nil)
    simpa [List.head?_append, hc] using hw.last
  have hhead : (t' ++ rest).head?.any isBlank = false := by
    obtain ⟨c, cs, rfl⟩ := List.exists_cons_of_ne_nil ht'.ne_nil
    exact ht'.head
  rw [append_assoc, append_assoc, hrun]
  refine (run_concatenation hd hwritten hhead).trans (hrun'.trans ?_)
  simp

/-! ## Keyed arrays -/

theorem IsTrimmed.trim_append_space {t : Text} (h : IsTrimmed t) :
    Text.trim (t ++ [' ']) = t := by
  have hstart : Text.trimStart (t ++ [' ']) = t ++ [' '] := by
    obtain ⟨c, cs, rfl⟩ := List.exists_cons_of_ne_nil h.ne_nil
    exact Text.dropWhile_eq_self_of_head? h.head
  have hlast : t.reverse.head?.any isBlank = false := by
    rw [List.head?_reverse]
    exact h.last
  have hspace : (' ' :: t.reverse).dropWhile isBlank = t.reverse :=
    Text.dropWhile_eq_self_of_head? hlast
  rw [Text.trim, hstart, Text.trimEnd, Text.dropEndWhile, List.reverse_append, List.reverse_singleton,
    List.singleton_append, hspace, List.reverse_reverse]

theorem unquote?_string (d : Dialect) (inside : Text) :
    (Name.unquote? (d.string inside)).isSome = true := by
  have htrim := (d.isTrimmed_string inside).trim
  have hquote : isQuote d.quote = true := by
    cases d with
    | template => rfl
    | script b => rfl
  unfold Name.unquote?
  rw [htrim]
  simp [Dialect.string, hquote, enclosed?]

/-- The key and the value of an entry of a template. -/
theorem pair?_entry (k : PlainString) {v : Text} (hv : IsTrimmed v) :
    pair? (entry .template (Dialect.string .template k.inside) v) =
      some (Dialect.string .template k.inside, v) := by
  have hclosed : ClosedCode (· != '=') (Dialect.string .template k.inside ++ [' ']) :=
    (Dialect.closed_string .template k).append (.of_all (by decide))
  have hcut := ClosedCode.cut?_append ['>'] hclosed rfl (' ' :: v)
  have hleft := (Dialect.isTrimmed_string .template k.inside).trim_append_space
  have hright : Text.trim (' ' :: v) = v := hv.trim
  have hkey : isKey (Dialect.string .template k.inside) = true := by
    rw [isKey, unquote?_string, Bool.true_or]
  have hentry : entry .template (Dialect.string .template k.inside) v =
      Dialect.string .template k.inside ++ [' '] ++ '=' :: (['>'] ++ ' ' :: v) := by
    simp [entry]
  unfold pair?
  rw [hentry, show "=>".toList = '=' :: ['>'] from rfl, hcut]
  simp only [hleft, hright, hkey, if_true]

/-- An entry of a script. -/
theorem reads_entry {d : Dialect} (hd : d = .script b) (k : PlainString) {v w : Text}
    (h : Reads b convert v w) : Reads b convert (d.entry (d.string k.inside) v)
      (entry (.script b) (Dialect.string (.script b) k.inside) w) := by
  subst hd
  intro p rest hp hrest
  generalize hstring : Dialect.string (.script b) k.inside = string
  obtain ⟨last, hkey⟩ := @run_string b convert p _ (.inr rfl) k (": " ++ (v ++ rest))
  rw [hstring] at hkey
  have hcolon := @run_spaced b convert ⟨.literal, last, string.reverse ++ p.written⟩ ':' (by simp)
    (v ++ rest)
  obtain ⟨next, last, hvalue⟩ := h ⟨.sign ':', some ' ', ' ' :: ':' :: (string.reverse ++ p.written)⟩
    rest (isFresh_sign (by simp) _ (.inr rfl)) hrest
  refine ⟨next, last, ?_⟩
  have hsplit : entry (.script b) string v ++ rest = string ++ (": " ++ (v ++ rest)) := by
    simp [entry]
  rw [hsplit, hkey]
  refine hcolon.trans (hvalue.trans ?_)
  simp [entry]

end BladeView.Expression
