import BladeView.Proofs.Reference.Mention
import BladeView.Proofs.Text.Replace

/-!
# Searches with a cursor

Whether code refers to a name is decided at every place of the code. A search with a cursor looks
only where the name, or an interpolation, begins, and starts again a little further on. It finds the
same as long as it does not step over a place where the next one could begin: names may overlap, and
interpolations may stand inside of others, or behind one that is never closed.

## Main statements

* `Text.seek_eq_holdsSomewhere`: a search with a cursor misses nothing.
* `Reference.search_iff`: what the searches for names find.
-/
namespace BladeView

namespace Text

variable {test : Option Char → Text → Bool}

/-- What fails at every place of a beginning is looked for behind it. -/
theorem holdsSomewhere_append {skipped t : Text}
    (h : ∀ u d v, skipped = u ++ d :: v → ∀ before, test before (d :: v ++ t) = false)
    (before : Option Char) :
    holdsSomewhere test before (skipped ++ t) =
      holdsSomewhere test (skipped.getLast?.or before) t := by
  induction skipped generalizing before with
  | nil => rfl
  | cons c skipped ih =>
    rw [List.cons_append, holdsSomewhere, ← List.cons_append, h [] c skipped rfl, Bool.false_or,
      ih fun u d v hcut => h (c :: u) d v (by rw [hcut, List.cons_append]), getLast?_cons_or]

/-- A search with a cursor. It goes to the next place where a piece stands, tests the text there,
and otherwise starts again behind the first character of the piece, or further on by a stride. -/
def seek (c : Char) (cs : Text) (test : Option Char → Text → Bool) (stride : Text → Nat)
    (before : Option Char) (t : Text) : Bool :=
  match _hcut : cut? (c :: cs) t with
  | none => false
  | some (skipped, rest) =>
    let tail := cs ++ rest
    test (skipped.getLast?.or before) (c :: tail) ||
      seek c cs test stride ((tail.take (stride tail)).getLast?.or (some c))
        (tail.drop (stride tail))
termination_by t.length
decreasing_by
  rw [cut?_eq_append _hcut]
  simp only [List.length_drop, List.length_append, List.length_cons]
  omega

/-- A search with a cursor misses nothing, if what is tested begins with the piece and no stride
leads over a character that the piece begins with. -/
theorem seek_eq_holdsSomewhere {c : Char} {cs : Text} {stride : Text → Nat}
    (hpiece : ∀ before v, test before v = true → c :: cs <+: v)
    (hstride : ∀ rest, c ∉ (cs ++ rest).take (stride (cs ++ rest)))
    (before : Option Char) (t : Text) :
    seek c cs test stride before t = holdsSomewhere test before t := by
  fun_induction seek c cs test stride before t with
  | case1 before t hcut =>
    rw [eq_comm, Bool.eq_false_iff, ne_eq, holdsSomewhere_iff]
    rintro ⟨u, v, rfl, htest⟩
    refine (cut?_eq_none_iff (by simp)).1 hcut ?_
    exact (hpiece _ _ htest).isInfix.trans (List.suffix_append u v).isInfix
  | case2 before t skipped rest hcut tail ih =>
    have hfalse {before : Option Char} {v : Text} (hv : ¬ c :: cs <+: v) : test before v = false :=
      Bool.eq_false_iff.2 fun htest => hv (hpiece before v htest)
    rw [ih, cut?_eq_append hcut, holdsSomewhere_append
      (fun u d v hskipped _ => hfalse (not_prefix_of_cut? hcut hskipped)), List.cons_append,
      holdsSomewhere]
    congr 1
    rw [← List.take_append_drop (stride tail) (cs ++ rest), holdsSomewhere_append]
    intro u d v htake _
    refine hfalse fun hprefix => ?_
    obtain rfl := (List.cons_prefix_cons.1 hprefix).1
    refine hstride rest ?_
    rw [htake]
    simp

end Text

namespace Reference

/-- The search for a name with a cursor, which starts again one character behind the last place. -/
def seekName : Text → Text → Bool
  | [], _ => false
  | c :: cs, code => Text.seek c cs (standsHere (c :: cs)) (fun _ => 0) none code

/-- The search for an interpolation with a cursor. It starts again behind the brace of one that is
closed, and at the brace of one that is not. -/
def seekInterpolation (names : List Text) (template : Text) : Bool :=
  Text.seek '$' ['\x7b']
    (fun _ t => (interpolation? t).any fun found => mentionsAny names found.1)
    (fun t => if (Group.read? t).isSome then 1 else 0) none template

theorem seekName_eq_mentions (name code : Text) : seekName name code = mentions name code := by
  cases name with
  | nil => rfl
  | cons c cs =>
    refine Text.seek_eq_holdsSomewhere ?_ (by simp) none code
    intro before v htest
    obtain ⟨-, after, rfl, -⟩ := standsHere_iff.1 htest
    exact ⟨after, rfl⟩

theorem seekInterpolation_eq_interpolatesAny (names : List Text) (template : Text) :
    seekInterpolation names template = interpolatesAny names template := by
  refine Text.seek_eq_holdsSomewhere ?_ ?_ none template
  · intro _ v htest
    obtain ⟨⟨inner, rest⟩, hread, -⟩ := (Option.any_eq_true _ _).1 htest
    obtain ⟨cs, rfl, -⟩ := interpolation?_eq_some.1 hread
    exact ⟨cs, rfl⟩
  · -- A stride leads over the brace alone.
    intro rest
    split <;> simp

/-- **The searches for names are exact.** A name is found if it stands somewhere as a whole and not
behind a dot, and a template is found to hold a name if the group at the brace of one of its
interpolations does, be that inside of others or not. The searches with a cursor, which end because
the text that is left gets shorter, find the same. -/
theorem search_iff :
    (∀ name code, mentions name code = true ↔ name ≠ [] ∧ ∃ before after,
      code = before ++ name ++ after ∧ IsWhole before after ∧ before.getLast? ≠ some '.') ∧
    (∀ names template, interpolatesAny names template = true ↔ ∃ before after span,
      template = before ++ '$' :: '\x7b' :: after ∧
        Group.at? template (Text.byteSize before + 1) = some span ∧
        ∃ name ∈ names, mentions name span.inner = true) ∧
    (∀ name code, mentions name code = seekName name code) ∧
    ∀ names template, interpolatesAny names template = seekInterpolation names template := by
  refine ⟨fun name code => mentions_iff, fun names template => ?_,
    fun name code => (seekName_eq_mentions name code).symm,
    fun names template => (seekInterpolation_eq_interpolatesAny names template).symm⟩
  simp only [interpolatesAny, Text.holdsSomewhere_iff, Option.any_eq_true, mentionsAny,
    List.any_eq_true]
  constructor
  · rintro ⟨before, t, rfl, ⟨inner, rest⟩, hread, hname⟩
    obtain ⟨after, rfl, hgroup⟩ := interpolation?_eq_some.1 hread
    exact ⟨before, after, _, rfl, by rw [Group.at?_brace, hgroup, Option.map_some], hname⟩
  · rintro ⟨before, after, span, rfl, hspan, hname⟩
    rw [Group.at?_brace] at hspan
    obtain ⟨⟨inner, rest⟩, hgroup, rfl⟩ := Option.map_eq_some_iff.1 hspan
    exact ⟨before, _, rfl, _, interpolation?_eq_some.2 ⟨after, rfl, hgroup⟩, hname⟩

end Reference
end BladeView
