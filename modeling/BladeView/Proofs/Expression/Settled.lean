import BladeView.Proofs.Expression.Step
import BladeView.Proofs.TopLevel.Pieces

/-!
# Settled scripts

The conversion leaves a text alone if the pass writes every token of it as it reads it. Such a text
is settled. A settled text may hold names, numbers, literals, signs, member access and brackets, but
no sigil before a name, no arrow, no dot that concatenates or appends, no literal in single quotes
that could stand in double ones, and no call of a plain name that would be routed. What counts
depends on the token before and the character before, as it does for the pass.
-/
namespace BladeView

variable {t inner token rest : Text} {next before : Before}

namespace Expression

/-- A literal stays in its quotes: they are not single ones, or its inside needs an escape in double
ones. -/
def KeepsQuotes (t : Text) : Prop :=
  ∀ inner, Text.enclosed? '\x27' '\x27' t = some inner → ∃ c ∈ inner, c = '\x22' ∨ c = '\\'

/-- A token that the pass writes as it reads it, with what follows it and with what it is to the
next token. -/
inductive Stays (b : Bindings) (before : Before) (last : Option Char) :
    (token rest : Text) → (next : Before) → Prop
  | escape {c : Char} {rest : Text} : Stays b before last ['\\', c] rest before
  | escapeEnd : Stays b before last ['\\'] [] before
  | quoted {quote : Char} {inside rest : Text} : isQuote quote = true →
      quotedRest quote (inside ++ rest) = inside → KeepsQuotes (quote :: inside) →
      Stays b before last (quote :: inside) rest .literal
  /-- A name goes on after something that was not read as a name. -/
  | nameTail {c : Char} {rest : Text} : last.any isNameChar = true → isNameChar c = true →
      Stays b before last [c] rest before
  | word {c : Char} {name rest : Text} : last.any isNameChar = false → isNameStart c = true →
      (∀ d ∈ name, isNameChar d = true) → rest.head?.any isNameChar = false →
      (callFollows rest = true → c :: name ≠ "fn".toList ∧ isRouted b (c :: name) before = false) →
      Stays b before last (c :: name) rest (.word (c :: name))
  | number {c : Char} {digits rest : Text} : last.any isNameChar = false → c.isDigit = true →
      number (c :: (digits ++ rest)) = c :: digits → Stays b before last (c :: digits) rest .literal
  | optional {rest : Text} : Stays b before last ['?', '.'] rest (.sign '.')
  | spread {rest : Text} : Stays b before last ['.', '.', '.'] rest (.sign ',')
  | dot {rest : Text} : Text.startsWith ".." rest = false → rest.head? ≠ some '=' →
      concatenates last rest = false → Stays b before last ['.'] rest (.sign '.')
  | bracket {rest : Text} : Group.read? ('[' :: rest) = none →
      Stays b before last ['['] rest (.sign '[')
  | blank {c : Char} {rest : Text} : isBlank c = true → Stays b before last [c] rest before
  | sign {c : Char} {rest : Text} : isSign c = true →
      (c = '$' → last.any isNameChar = false ∧ rest.head?.any isNameStart = false) →
      (∀ arrow ∈ ["->", "?->", "?.", "::"], Text.startsWith arrow.toList (c :: rest) = false) →
      Stays b before last [c] rest (.sign c)

/-- A text that the pass writes as it reads it, from a token and a character on. The inside of an
index is a settled text by itself; an array has settled items without keys, one comma and one space
apart. -/
inductive Settled (b : Bindings) : Before → Option Char → Text → Prop
  | nil {before : Before} {last : Option Char} : Settled b before last []
  | token {before next : Before} {last : Option Char} {token rest : Text} :
      Stays b before last token rest next → Settled b next token.getLast? rest →
      Settled b before last (token ++ rest)
  | index {before : Before} {last : Option Char} {inner rest : Text} :
      before.takesIndex = true →
      Group.read? ('[' :: (inner ++ ']' :: rest)) = some (inner, rest) →
      Text.trim inner = inner → Settled b .nothing none inner →
      Settled b (.sign ']') (some ']') rest → Settled b before last ('[' :: (inner ++ ']' :: rest))
  | array {before : Before} {last : Option Char} {inner rest : Text} :
      before.takesIndex = false →
      Group.read? ('[' :: (inner ++ ']' :: rest)) = some (inner, rest) →
      inner = Text.join ", " (TopLevel.split inner) →
      (∀ item ∈ TopLevel.split inner, pair? item = none) →
      (∀ item ∈ TopLevel.split inner, Settled b .nothing none item) →
      Settled b (.sign ']') (some ']') rest → Settled b before last ('[' :: (inner ++ ']' :: rest))

/-! ## Tokens that stay -/

section Pass

variable {b : Bindings} {convert : Text → Text} {p : Pass}

theorem head?_of_enclosed? {opening closing : Char}
    (h : Text.enclosed? opening closing t = some inner) : t.head? = some opening := by
  cases t with
  | nil => cases h
  | cons c cs =>
    simp only [Text.enclosed?] at h
    obtain ⟨hc, h⟩ := Option.ite_none_right_eq_some.1 h
    simpa using hc

theorem literal_eq_self_iff : literal t = t ↔ KeepsQuotes t := by
  unfold literal KeepsQuotes
  cases henclosed : Text.enclosed? '\x27' '\x27' t with
  | none => simp
  | some inner =>
    have hhead := head?_of_enclosed? henclosed
    simp only [Option.some.injEq, forall_eq']
    by_cases hany : (inner.any fun c => c == '\x22' || c == '\\') = true
    · rw [if_pos hany]
      simpa using hany
    · rw [if_neg hany]
      refine iff_of_false (fun heq => ?_) (by simpa using hany)
      rw [← heq] at hhead
      cases hhead

theorem Stays.turn (hname : p.endsName = p.last.any isNameChar)
    (h : Stays b p.before p.last token rest next) :
    Turn b convert p token rest
      { p with before := next, written := token.reverse ++ p.written } := by
  cases h with
  | escape => exact .escape
  | escapeEnd => exact .escapeEnd
  | quoted hquote hinside hkeeps =>
    have hturn := @Turn.quoted b convert p _ _ rest hquote hinside
    rwa [literal_eq_self_iff.mpr hkeeps] at hturn
  | nameTail hlast hc => exact .nameTail (hname.trans hlast) hc
  | word hlast hc hchars hend hcall => exact .word (hname.trans hlast) hc hchars hend hcall
  | number hlast hc hnumber => exact .number (hname.trans hlast) hc hnumber
  | optional => exact .optional
  | spread => exact .spread
  | dot hspread happend hconcat => exact .dot hspread happend hconcat
  | bracket hread => exact .bracket hread
  | blank hc => exact .blank hc
  | sign hc hsigil harrows =>
    exact .sign hc (fun h => ⟨hname.trans (hsigil h).1, (hsigil h).2⟩) harrows

/-- **The pass writes a token that stays as it reads it.** -/
theorem run_of_stays (hname : p.endsName = p.last.any isNameChar)
    (h : Stays b p.before p.last token rest next) :
    run b convert p 0 (token ++ rest)
      = run b convert ⟨next, token.getLast?, token.reverse ++ p.written⟩ 0 rest :=
  (h.turn hname).run

theorem Stays.ne_nil {last : Option Char} (h : Stays b before last token rest next) :
    token ≠ [] := by
  cases h <;> exact List.cons_ne_nil _ _

/-- After a token the last character written is the last one read. -/
theorem endsName_append (htoken : token ≠ []) (next : Before) (written : Text) :
    Pass.endsName ⟨next, token.getLast?, token.reverse ++ written⟩
      = token.getLast?.any isNameChar := by
  obtain ⟨c, hc⟩ := Option.ne_none_iff_exists'.mp (mt List.getLast?_eq_none_iff.mp htoken)
  simp [Pass.endsName, List.head?_append, hc]

/-- A closed bracket. -/
theorem run_group (h : Group.read? ('[' :: (inner ++ ']' :: rest)) = some (inner, rest)) :
    run b convert p 0 ('[' :: (inner ++ ']' :: rest))
      = run b convert ⟨.sign ']', some ']', (bracketed convert p.before inner).reverse ++ p.written⟩ 0
          rest := by
  have hrun := (@Turn.group b convert p inner rest h).run
  rwa [← List.cons_append, List.getLast?_concat, List.append_assoc] at hrun

/-- A closed bracket that the step writes as it reads it. -/
theorem run_of_group (h : Group.read? ('[' :: (inner ++ ']' :: rest)) = some (inner, rest))
    (hscript : bracketed convert p.before inner = '[' :: (inner ++ [']'])) :
    run b convert p 0 ('[' :: (inner ++ ']' :: rest))
      = run b convert ⟨.sign ']', some ']', ']' :: (inner.reverse ++ '[' :: p.written)⟩ 0 rest := by
  rw [run_group h, hscript]
  simp

/-- An index stays if its inside does. -/
theorem bracketed_index (hindex : before.takesIndex = true) (hinner : convert inner = inner) :
    bracketed convert before inner = '[' :: (inner ++ [']']) := by
  rw [bracketed, if_pos hindex, hinner]
  rfl

/-- An array stays if its items do, are one comma and one space apart, and have no keys. -/
theorem bracketed_array (hindex : before.takesIndex = false)
    (hjoin : inner = Text.join ", " (TopLevel.split inner))
    (hpair : ∀ item ∈ TopLevel.split inner, pair? item = none)
    (hitems : ∀ item ∈ TopLevel.split inner, convert item = item) :
    bracketed convert before inner = '[' :: (inner ++ [']']) := by
  have hconverted : (TopLevel.split inner).map convert = TopLevel.split inner :=
    (List.map_congr_left hitems).trans (List.map_id _)
  have hpairs : ((TopLevel.split inner).any fun item => (pair? item).isSome) = false := by
    simpa using hpair
  simp only [bracketed, hindex, array, hpairs, hconverted, ← hjoin, Bool.false_eq_true, if_false]
  rfl

/-- **The pass writes a settled text as it reads it**, if it does so with the shorter ones. -/
theorem run_of_settled {last : Option Char} (h : Settled b before last t)
    (hbefore : p.before = before) (hlast : p.last = last)
    (hname : p.endsName = p.last.any isNameChar)
    (hconvert : ∀ u : Text, u.length < t.length → Text.trim u = u → Settled b .nothing none u →
      convert u = u) : run b convert p 0 t = p.written.reverse ++ t := by
  induction h generalizing p with
  | nil => simp [run]
  | @token before next last token rest hstays _ ih =>
    subst hbefore hlast
    rw [run_of_stays hname hstays]
    rw [ih rfl rfl (endsName_append hstays.ne_nil _ _)]
    · simp
    · intro u hu
      exact hconvert u (by simp; omega)
  | @index before last inner rest hindex hread htrim hinner hrest _ ih =>
    subst hbefore hlast
    have hinside : convert inner = inner := by
      refine hconvert inner ?_ htrim hinner
      rw [List.length_cons, List.length_append]
      omega
    rw [run_of_group hread (bracketed_index hindex hinside), ih rfl rfl rfl]
    · simp
    · intro u hu
      exact hconvert u (by simp; omega)
  | @array before last inner rest hindex hread hjoin hpair hitems hrest _ ih =>
    subst hbefore hlast
    have hitems' : ∀ item ∈ TopLevel.split inner, convert item = item := by
      intro item hitem
      obtain ⟨htrim, hlength⟩ := TopLevel.mem_split hitem
      exact hconvert item (by simp; omega) htrim (hitems item hitem)
    rw [run_of_group hread (bracketed_array hindex hjoin hpair hitems'), ih rfl rfl rfl]
    · simp
    · intro u hu
      exact hconvert u (by simp; omega)

end Pass
end Expression
end BladeView
