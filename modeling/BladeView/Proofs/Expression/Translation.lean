import BladeView.Proofs.Expression.Reading

/-!
# The translation of expressions

The conversion takes the text of a tree in a template to the text of the same tree in a script, and
leaves the latter alone. The inside of a bracket is converted by itself and is shorter than what
it stands in, so the induction is on the length up to which texts of trees are converted.

## Main statements

* `Expression.toScript_text`: the conversion translates trees.
-/
namespace BladeView.Expression

open List (any_cons forall_mem_cons length_append length_cons)
open Dialect (entry keyed string)
open Text (join)

variable {b : Bindings} {convert : Text → Text}

/-- The texts of trees of a dialect are converted, those that are shorter than `n`. -/
structure Converts (b : Bindings) (d : Dialect) (convert : Text → Text) (n : Nat) : Prop where
  fits : d = .template ∨ d = .script b
  tree : ∀ e : Tree, (e.text d).length < n → convert (e.text d) = e.text (.script b)

theorem Tree.isItem (d : Dialect) (e : Tree) : IsItem (e.text d) := ⟨e.closed d, e.isTrimmed d⟩

theorem isItem_of_mem_texts {d : Dialect} {es : List Tree} {t : Text} (ht : t ∈ texts d es) :
    IsItem t := by
  induction es with
  | nil =>
    rw [texts] at ht
    cases ht
  | cons e es ih =>
    rw [texts, List.mem_cons] at ht
    rcases ht with rfl | ht
    · exact e.isItem d
    · exact ih ht

theorem length_le_argumentList {args : List Text} {t : Text} (ht : t ∈ args) :
    t.length ≤ (argumentList args).length := by
  have hjoin := Text.length_le_length_join ", " ht
  simp only [argumentList, length_cons, length_append]
  omega

theorem Dialect.length_lt_keyed (d : Dialect) (inner : Text) :
    inner.length < (d.keyed inner).length := by
  cases d <;> simp only [keyed, length_cons, length_append] <;> omega

theorem Dialect.length_le_entry (d : Dialect) (key value : Text) :
    key.length ≤ (d.entry key value).length ∧ value.length ≤ (d.entry key value).length := by
  cases d <;> simp only [entry, length_append] <;> omega

namespace Converts

variable {d : Dialect} {n : Nat}

theorem map_texts (h : Converts b d convert n) {es : List Tree}
    (hlength : ∀ t ∈ texts d es, t.length < n) :
    (texts d es).map convert = texts (.script b) es := by
  induction es with
  | nil =>
    rw [texts, texts]
    rfl
  | cons e es ih =>
    rw [texts] at hlength ⊢
    obtain ⟨he, hes⟩ := forall_mem_cons.1 hlength
    rw [texts, List.map_cons, h.tree e he, ih hes]

/-- An entry of a template becomes one of a script. -/
theorem entries_cons (h : Converts b .template convert n) (index : Nat) (key : PlainString)
    (value : Tree) (items : List Text)
    (hlength : (entry .template (string .template key.inside)
      (value.text .template)).length < n) :
    entries convert index
        (entry .template (string .template key.inside) (value.text .template) ::
          items) =
      entry (.script b) (string (.script b) key.inside) (value.text (.script b)) ::
        entries convert index items := by
  obtain ⟨hkeyLength, hvalueLength⟩ := Dialect.length_le_entry .template
    (string .template key.inside) (value.text .template)
  have hkey := h.tree (.string key)
  rw [Tree.text, Tree.text] at hkey
  have hentry : Expression.key convert (string .template key.inside) =
      string (.script b) key.inside := by
    rw [Expression.key, unquote?_string, if_pos rfl, hkey (by omega)]
  rw [entries, pair?_entry key (value.isTrimmed .template)]
  simp only [hentry, h.tree value (by omega)]
  rfl

theorem entries_texts (h : Converts b .template convert n) (index : Nat) :
    (es : Entries) → (∀ t ∈ es.texts .template, t.length < n) →
      entries convert index (es.texts .template) = es.texts (.script b)
  | .last key value, hlength => by
    rw [Entries.texts] at hlength ⊢
    rw [entries_cons h index key value [] (hlength _ (List.mem_singleton_self _)), Entries.texts]
    rfl
  | .cons key value more, hlength => by
    rw [Entries.texts] at hlength ⊢
    obtain ⟨hentry, hmore⟩ := forall_mem_cons.1 hlength
    rw [entries_cons h index key value _ hentry, entries_texts h index more hmore, Entries.texts]

theorem array_entries (h : Converts b .template convert n) (es : Entries)
    (hlength : ∀ t ∈ es.texts .template, t.length < n) :
    array convert (join ", " (es.texts .template)) =
      keyed (.script b) (join ", " (es.texts (.script b))) := by
  have hsplit : TopLevel.split (join ", " (es.texts .template)) = es.texts .template :=
    ClosedCode.split_join fun t ht =>
      ⟨es.closed .template t ht, (es.isTrimmed .template t ht).ne_nil,
        (es.isTrimmed .template t ht).trim⟩
  have hkeyed : ((es.texts .template).any fun item => (pair? item).isSome) = true := by
    cases es with
    | last key value =>
      rw [Entries.texts, any_cons, pair?_entry key (value.isTrimmed .template)]
      rfl
    | cons key value more =>
      rw [Entries.texts, any_cons, pair?_entry key (value.isTrimmed .template)]
      rfl
  unfold array
  rw [hsplit]
  simp only [hkeyed, if_true, entries_texts h 0 es hlength]
  rfl

theorem reads_keyed_template (h : Converts b d convert n) (hd : d = .template) (es : Entries)
    (hlength : ∀ t ∈ es.texts d, t.length < n) :
    Reads b convert (d.keyed (join ", " (es.texts d)))
      (keyed (.script b) (join ", " (es.texts (.script b)))) := by
  subst hd
  intro p rest hp hrest
  refine ⟨.sign ']', some ']', ?_⟩
  have hclosed : ClosedCode (fun _ => true) (join ", " (es.texts .template)) :=
    closed_join fun t ht => (es.closed .template t ht).mono fun _ _ => rfl
  have hbracket := @run_group _ _ b convert p (hclosed.read?_append rest)
  rw [bracketed, hp.takesIndex, if_neg (by decide), h.array_entries es hlength] at hbracket
  have hsplit : keyed .template (join ", " (es.texts .template)) ++ rest =
      '[' :: (join ", " (es.texts .template) ++ ']' :: rest) := by
    simp [keyed]
  rw [hsplit, hbracket]

end Converts

/-- An object of a script. -/
theorem reads_keyed_script {d : Dialect} (hd : d = .script b) {ts ws : List Text}
    (h : List.Forall₂ (Reads b convert) ts ws) :
    Reads b convert (d.keyed (join ", " ts))
      (keyed (.script b) (join ", " ws)) := by
  subst hd
  intro p rest hp hrest
  obtain ⟨next, last, hlist⟩ := @run_list b convert ⟨.sign '\x7b', some '\x7b', '\x7b' :: p.written⟩
    ts ws h '\x7d' (by simp) (isFresh_sign (by simp) _ (.inl rfl)) rest
  refine ⟨.sign '\x7d', some '\x7d', ?_⟩
  have hsplit : keyed (.script b) (join ", " ts) ++ rest =
      '\x7b' :: (join ", " ts ++ '\x7d' :: rest) := by simp [keyed]
  rw [hsplit, run_sign (by simp), hlist, run_sign (by simp)]
  simp [keyed]

section Trees

variable {d : Dialect} {n : Nat}

mutual

theorem Access.reads (h : Converts b d convert n) : (a : Access) → (a.text d).length ≤ n →
    ReadsAccess b convert (a.text d) (a.text (.script b))
  | .var name, _ => by
    rw [Access.text, Access.text]
    exact readsAccess_var h.fits name
  | .call name args, hlength => by
    rw [Access.text] at hlength
    rw [Access.text, Access.text]
    refine readsAccess_call h.fits name (reads_texts h args ?_)
    intro t ht
    have := length_le_argumentList ht
    simp only [length_append] at hlength
    omega
  | .member object name, hlength => by
    rw [Access.text] at hlength
    rw [Access.text, Access.text]
    refine readsAccess_member h.fits (object.reads h ?_) name
    simp only [length_append] at hlength
    omega
  | .method object name args, hlength => by
    rw [Access.text] at hlength
    rw [Access.text, Access.text]
    simp only [length_append] at hlength
    refine readsAccess_method h.fits (object.reads h (by omega)) name (reads_texts h args ?_)
    intro t ht
    have := length_le_argumentList ht
    omega
  | .index object key, hlength => by
    rw [Access.text] at hlength
    simp only [length_append, length_cons] at hlength
    rw [Access.text, Access.text, ← h.tree key (by omega)]
    exact readsAccess_index (object.reads h (by omega)) (key.isItem d)

theorem Tree.reads (h : Converts b d convert n) : (e : Tree) → (e.text d).length ≤ n →
    Reads b convert (e.text d) (e.text (.script b))
  | .access a, hlength => by
    rw [Tree.text] at hlength
    rw [Tree.text, Tree.text]
    exact (a.reads h hlength).reads
  | .integer m, _ => by
    rw [Tree.text, Tree.text]
    exact reads_integer m
  | .string s, _ => by
    rw [Tree.text, Tree.text]
    exact reads_string h.fits s
  | .list items, hlength => by
    rw [Tree.text] at hlength
    rw [Tree.text, Tree.text, ← h.map_texts]
    · exact reads_list fun t ht => isItem_of_mem_texts ht
    · intro t ht
      have := Text.length_le_length_join ", " ht
      simp only [length_append, length_cons] at hlength
      omega
  | .keyed entries, hlength => by
    rw [Tree.text] at hlength
    rw [Tree.text, Tree.text]
    have hpart : ∀ t ∈ entries.texts d, t.length < n := by
      intro t ht
      have := Text.length_le_length_join ", " ht
      have := d.length_lt_keyed (join ", " (entries.texts d))
      omega
    rcases h.fits with hd | hd
    · exact h.reads_keyed_template hd entries hpart
    · exact reads_keyed_script hd (entries.reads h hd fun t ht => Nat.le_of_lt (hpart t ht))
  | .concat left right, hlength => by
    rw [Tree.text] at hlength
    simp only [length_append] at hlength
    rw [Tree.text, Tree.text]
    exact reads_concat h.fits (left.reads h (by omega)) (right.reads h (by omega))
      (left.isTrimmed _) (right.isTrimmed d)

theorem reads_texts (h : Converts b d convert n) : (es : List Tree) →
    (∀ t ∈ texts d es, t.length ≤ n) →
    List.Forall₂ (Reads b convert) (texts d es) (texts (.script b) es)
  | [], _ => by
    rw [texts, texts]
    exact .nil
  | e :: es, hlength => by
    rw [texts] at hlength
    obtain ⟨he, hes⟩ := forall_mem_cons.1 hlength
    rw [texts, texts]
    exact .cons (e.reads h he) (reads_texts h es hes)

theorem Entries.reads (h : Converts b d convert n) (hd : d = .script b) : (es : Entries) →
    (∀ t ∈ es.texts d, t.length ≤ n) →
    List.Forall₂ (Reads b convert) (es.texts d) (es.texts (.script b))
  | .last key value, hlength => by
    rw [Entries.texts] at hlength
    have hvalue := (d.length_le_entry (d.string key.inside) (value.text d)).2
    have hentry := hlength _ (List.mem_singleton_self _)
    rw [Entries.texts, Entries.texts]
    exact .cons (reads_entry hd key (value.reads h (by omega))) .nil
  | .cons key value more, hlength => by
    rw [Entries.texts] at hlength
    have hvalue := (d.length_le_entry (d.string key.inside) (value.text d)).2
    obtain ⟨hentry, hmore⟩ := forall_mem_cons.1 hlength
    rw [Entries.texts, Entries.texts]
    exact .cons (reads_entry hd key (value.reads h (by omega))) (more.reads h hd hmore)

end

/-- The conversion within a depth, of texts that are shorter. -/
theorem toScriptWithin_text (hd : d = .template ∨ d = .script b) (e : Tree)
    (hlength : (e.text d).length < n) : toScriptWithin b n (e.text d) = e.text (.script b) := by
  induction n generalizing e with
  | zero => exact absurd hlength (Nat.not_lt_zero _)
  | succ n ih =>
    have hconverts : Converts b d (toScriptWithin b n) n := ⟨hd, fun e he => ih e he⟩
    obtain ⟨next, last, hrun⟩ := e.reads hconverts (Nat.le_of_lt_succ hlength) {} [] isFresh_start
      endsExpression_nil
    rw [List.append_nil] at hrun
    rw [toScriptWithin, (e.isTrimmed d).trim, hrun, run, List.append_nil, List.reverse_reverse]

end Trees

/-- **An expression of a template is translated part by part.** Variables lose their sigils, arrows
become dots, concatenations become sums, strings get double quotes, keyed arrays become objects, and
a plain call goes to the view engine or to the helpers unless its name is a word or a global of the
script language or is bound. The script form is left as it is. -/
theorem toScript_text (b : Bindings) (e : Tree) :
    toScript b (e.text .template) = e.text (.script b) ∧
      toScript b (e.text (.script b)) = e.text (.script b) :=
  ⟨toScriptWithin_text (.inl rfl) e (Nat.lt_succ_self _),
    toScriptWithin_text (.inr rfl) e (Nat.lt_succ_self _)⟩

example : toScript .empty "count($user->items['all']) . ' of ' . $max" =
    "App.Helper.count(user.items[\"all\"]) + \" of \" + max".toList := by decide +kernel

end BladeView.Expression
