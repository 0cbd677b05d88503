import BladeView.Proofs.Markup.Pairs
import Mathlib.Algebra.BigOperators.Group.Finset.Piecewise

/-!
# Tags that keep their yielded attributes

Lists of yielded attributes are merged line by line, not tag by tag. A tag ends up with one list of
just its own pairs if the line that carries them carries nothing else, carries all of them and, when
there are several, has the tag as the one that its first closing bracket ends.

Lines and tags both cut the directives of a text into runs, one after the other. A list has as many
characters as its pairs and the commas between them, so if each tag has one list of its own pairs,
no pair can have been lost, and runs of the same length are the same runs.

## Main statements

* `Attribute.keepsTags_iff`: the texts whose tags keep their pairs.
-/
namespace BladeView.Attribute

open Text (join weight)
open Prod (fst snd)
open List (append_nil flatMap_cons forall_mem_cons map_singleton mem_cons_self pairwise_cons)

/-- What a tag has among the texts of several tags. -/
def ofTag (n : Nat) (xs : List (Nat × Text)) : List Text :=
  (xs.filter fun x => x.1 == n).map Prod.snd

/-- A single list of some pairs, or no list if there are none. -/
def oneList (xs : List Text) : List Text := if xs.isEmpty then [] else [join [','] xs]

/-- In the compiled text each tag has just one list, of the pairs that it carries and in their order,
and a tag that carries none has no list. -/
def KeepsTags (t : Text) : Prop :=
  ∀ n, ofTag n (tagLists (.text 0) (substituteYields t)) =
    oneList (ofTag n ((lines t).flatMap Line.carried))

/-! ## What a line leaves -/

theorem eq_singleton_of_mem {xs : List (Nat × Text)} (h : xs.length < 2) {x : Nat × Text}
    (hx : x ∈ xs) : xs = [x] := by
  rcases xs with _ | ⟨y, _ | ⟨z, more⟩⟩
  · cases hx
  · rw [List.mem_singleton.1 hx]
  · rw [List.length_cons, List.length_cons] at h
    omega

/-- A line leaves one list of all its pairs, or nothing. -/
theorem Line.found_cases (l : Line) :
    l.found = [] ∨ l.carried ≠ [] ∧ ∃ n, l.found = [(n, join [','] (l.carried.map snd))] := by
  by_cases hnil : l.carried = []
  · exact .inl (by simp [found, hnil])
  · obtain ⟨x, hx⟩ := List.exists_mem_of_ne_nil _ hnil
    unfold found
    split
    case isTrue hfew =>
      refine .inr ⟨hnil, x.1, ?_⟩
      rw [eq_singleton_of_mem hfew hx, map_singleton, Text.join_singleton]
    case isFalse =>
      cases l.mergePlace.tag? with
      | none => exact .inl rfl
      | some n => exact .inr ⟨hnil, n, rfl⟩

/-- All pairs of a line go into the tag that carries them. -/
def Line.IsKept (l : Line) : Prop :=
  ∀ x ∈ l.carried, l.found = [(x.1, join [','] (l.carried.map Prod.snd))]

/-- A single pair always is kept. Several are if the tag that carries them is open, outside quotes,
at the line's first closing bracket or at its end. -/
theorem Line.isKept_iff {l : Line} :
    l.IsKept ↔ (2 ≤ l.carried.length → ∀ x ∈ l.carried, l.mergePlace.tag? = some x.1) := by
  constructor
  · intro h htwo x hx
    have hfound := h x hx
    rw [found, if_neg (Nat.not_lt.2 htwo), Option.toList_eq_singleton_iff,
      Option.map_eq_some_iff] at hfound
    obtain ⟨n, hn, hlist⟩ := hfound
    rw [hn, (Prod.mk.inj hlist).1]
  · intro h x hx
    unfold found
    split
    case isTrue hfew =>
      rw [eq_singleton_of_mem hfew hx, map_singleton, Text.join_singleton]
    case isFalse hmany =>
      rw [h (Nat.not_lt.1 hmany) x hx]
      rfl

/-! ## The texts of a tag -/

section OfTag

variable {n : Nat} {xs ys : List (Nat × Text)}

theorem ofTag_append : ofTag n (xs ++ ys) = ofTag n xs ++ ofTag n ys := by
  simp [ofTag]

theorem ofTag_eq_nil_iff : ofTag n xs = [] ↔ ∀ x ∈ xs, x.1 ≠ n := by
  simp [ofTag]

theorem ofTag_of_forall (h : ∀ x ∈ xs, x.1 = n) : ofTag n xs = xs.map snd := by
  rw [ofTag, List.filter_eq_self.2]
  simpa using h

theorem oneList_of_ne_nil {texts : List Text} (h : texts ≠ []) :
    oneList texts = [join [','] texts] :=
  if_neg (by simpa using h)

end OfTag

/-- If each line keeps its pairs and no tag carries pairs on two lines, each tag has one list. -/
theorem keeps_of_apart {ls : List Line} (hkept : ∀ l ∈ ls, l.IsKept)
    (hapart : ls.Pairwise fun l l' => ∀ x ∈ l.carried, ∀ y ∈ l'.carried, x.1 ≠ y.1) (n : Nat) :
    ofTag n (ls.flatMap Line.found) = oneList (ofTag n (ls.flatMap Line.carried)) := by
  induction ls with
  | nil => rfl
  | cons l ls ih =>
    obtain ⟨hl, hls⟩ := forall_mem_cons.1 hkept
    obtain ⟨hother, hapart⟩ := pairwise_cons.1 hapart
    rw [flatMap_cons, flatMap_cons, ofTag_append, ofTag_append, ih hls hapart]
    by_cases hn : ∃ x ∈ l.carried, x.1 = n
    · obtain ⟨x, hx, rfl⟩ := hn
      have hsame : ∀ y ∈ l.carried, y.1 = x.1 := by
        intro y hy
        have hfound := (hl y hy).symm.trans (hl x hx)
        exact (Prod.mk.inj (List.cons.inj hfound).1).1
      have hnone : ofTag x.1 (ls.flatMap Line.carried) = [] := by
        rw [ofTag_eq_nil_iff]
        intro y hy
        obtain ⟨l', hl', hy⟩ := List.mem_flatMap.1 hy
        exact Ne.symm (hother l' hl' x hx y hy)
      have hmap : l.carried.map snd ≠ [] := by
        simpa using List.ne_nil_of_mem hx
      rw [hnone, append_nil, ofTag_of_forall hsame, oneList_of_ne_nil hmap, hl x hx]
      simp [ofTag, oneList]
    · have hcarried : ofTag n l.carried = [] := by
        rw [ofTag_eq_nil_iff]
        exact fun x hx hxn => hn ⟨x, hx, hxn⟩
      have hfound : ofTag n l.found = [] := by
        rcases l.found_cases with hnil | ⟨hne, -⟩
        · rw [hnil]
          rfl
        · obtain ⟨x, hx⟩ := List.exists_mem_of_ne_nil _ hne
          rw [hl x hx, ofTag_eq_nil_iff, List.forall_mem_singleton]
          exact fun hxn => hn ⟨x, hx, hxn⟩
      rw [hcarried, hfound]
      rfl

/-! ## Lengths -/

/-- How many characters a text takes in a list, with the comma or quote after it. -/
def listedLength (t : Text) : Nat := t.length + 1

theorem listedLength_join {texts : List Text} (h : texts ≠ []) :
    listedLength (join [','] texts) = weight listedLength texts := by
  induction texts, h using List.recNeNil with
  | singleton first => simp [Text.join_singleton]
  | cons first others h ih =>
    rw [Text.join_cons_of_ne_nil _ _ h, Text.weight_cons, ← ih]
    simp [listedLength]
    omega

/-- The room of texts, tag by tag. -/
theorem weight_eq_sum (w : Text → Nat) {xs : List (Nat × Text)} {bound : Nat}
    (h : ∀ x ∈ xs, x.1 < bound) : weight w (xs.map snd) =
      ∑ n ∈ Finset.range bound, weight w (ofTag n xs) := by
  induction xs with
  | nil => simp [ofTag]
  | cons x xs ih =>
    obtain ⟨hx, hxs⟩ := forall_mem_cons.1 h
    have hcons (n : Nat) : weight w (ofTag n (x :: xs)) =
        (if x.1 = n then w x.2 else 0) + weight w (ofTag n xs) := by
      by_cases hn : x.1 = n <;> simp [ofTag, hn]
    simp [hcons, Finset.sum_add_distrib, hx, ih hxs]

/-- Texts that take the same room tag by tag take the same room. -/
theorem weight_of_ofTag {w : Text → Nat} {xs ys : List (Nat × Text)}
    (h : ∀ n, weight w (ofTag n xs) = weight w (ofTag n ys)) :
    weight w (xs.map snd) = weight w (ys.map snd) := by
  obtain ⟨bound, hbound⟩ := ((xs ++ ys).map fst).toFinset.exists_nat_subset_range
  have hlt : ∀ x ∈ xs ++ ys, x.1 < bound := fun x hx =>
    Finset.mem_range.1 (hbound (List.mem_toFinset.2 (List.mem_map_of_mem hx)))
  obtain ⟨hxs, hys⟩ := List.forall_mem_append.1 hlt
  rw [weight_eq_sum w hxs, weight_eq_sum w hys]
  exact Finset.sum_congr rfl fun n _ => h n

/-- A line does not leave more than it carries, and less only if it leaves nothing. -/
theorem Line.weight_found (l : Line) :
    weight listedLength (l.found.map snd) ≤
        weight listedLength (l.carried.map snd) ∧
      (l.carried ≠ [] → l.found = [] → weight listedLength (l.found.map snd) <
        weight listedLength (l.carried.map snd)) := by
  rcases l.found_cases with hnil | ⟨hne, n, hfound⟩
  · rw [hnil]
    refine ⟨Nat.zero_le _, fun hne _ => ?_⟩
    obtain ⟨x, more, hcarried⟩ := List.exists_cons_of_ne_nil hne
    rw [hcarried, List.map_cons, Text.weight_cons]
    exact Nat.lt_of_lt_of_le (Nat.succ_pos _) (Nat.le_add_right _ _)
  · have hmap : l.carried.map snd ≠ [] := by simpa using hne
    have hjoin := listedLength_join hmap
    rw [hfound]
    refine ⟨?_, fun _ hnil => by cases hnil⟩
    rw [map_singleton, Text.weight_cons, Text.weight_nil, Nat.add_zero, hjoin]

/-- If nothing is lost, each line that carries pairs leaves a list. -/
theorem found_ne_nil_of_weight {ls : List Line}
    (h : weight listedLength ((ls.flatMap Line.carried).map snd) ≤
      weight listedLength ((ls.flatMap Line.found).map snd)) :
    ∀ l ∈ ls, l.carried ≠ [] → l.found ≠ [] := by
  have hle (ls : List Line) : weight listedLength ((ls.flatMap Line.found).map snd) ≤
      weight listedLength ((ls.flatMap Line.carried).map snd) := by
    induction ls with
    | nil => exact Nat.le_refl _
    | cons l ls ih =>
      have hl := l.weight_found.1
      simp only [flatMap_cons, List.map_append, Text.weight_append]
      omega
  induction ls with
  | nil => simp
  | cons l ls ih =>
    obtain ⟨hl, hlost⟩ := l.weight_found
    have hrest := hle ls
    simp only [flatMap_cons, List.map_append, Text.weight_append] at h
    refine forall_mem_cons.2 ⟨fun hne hnil => ?_, ih (by omega)⟩
    have hlt := hlost hne hnil
    omega

/-- Two beginnings of a list that take the same room are the same. -/
theorem eq_of_prefix_of_weight {xs ys zs : List (Nat × Text)} (hxs : xs <+: zs) (hys : ys <+: zs)
    (h : weight listedLength (xs.map snd) = weight listedLength (ys.map snd)) :
    xs = ys := by
  have hnil {front more : List (Nat × Text)} (hsame : weight listedLength (front.map snd) =
      weight listedLength ((front ++ more).map snd)) : more = [] := by
    cases more with
    | nil => rfl
    | cons x more =>
      simp [listedLength] at hsame
  rcases List.prefix_or_prefix_of_prefix hxs hys with ⟨more, rfl⟩ | ⟨more, rfl⟩
  · rw [hnil h, append_nil]
  · rw [hnil h.symm, append_nil]

/-! ## Tags and lines -/

/-- The texts of the first tag come first. -/
theorem filter_prefix_of_pairwise {n : Nat} {xs : List (Nat × Text)}
    (hordered : xs.Pairwise fun x y => x.1 ≤ y.1) (hle : ∀ x ∈ xs, n ≤ x.1) :
    xs.filter (fun x => x.1 == n) <+: xs := by
  induction xs with
  | nil => exact List.nil_prefix
  | cons x xs ih =>
    obtain ⟨hx, hxs⟩ := pairwise_cons.1 hordered
    obtain ⟨hn, hle⟩ := forall_mem_cons.1 hle
    by_cases heq : x.1 = n
    · rw [List.filter_cons_of_pos (by simpa using heq)]
      exact List.cons_prefix_cons.2 ⟨rfl, ih hxs hle⟩
    · have hnone : (x :: xs).filter (fun y => y.1 == n) = [] := by
        rw [List.filter_eq_nil_iff, forall_mem_cons]
        refine ⟨by simpa using heq, fun y hy => ?_⟩
        have hxy := hx y hy
        simp only [beq_iff_eq]
        omega
      rw [hnone]
      exact List.nil_prefix

section FirstLine

variable {l : Line} {found carried : List (Nat × Text)}
  (hkeeps : ∀ n, ofTag n (l.found ++ found) = oneList (ofTag n (l.carried ++ carried)))

include hkeeps

theorem ofTag_ne_nil_iff (n : Nat) :
    ofTag n (l.found ++ found) ≠ [] ↔ ofTag n (l.carried ++ carried) ≠ [] := by
  rw [hkeeps n, oneList]
  split
  case isTrue h => simp [List.isEmpty_iff.1 h]
  case isFalse h => simpa using h

/-- If each tag has one list, the first line with pairs leaves its list in the first tag that carries
some, and this list has all pairs of the line and of the tag. -/
theorem found_of_first (hne : l.carried ≠ []) (hleft : l.found ≠ [])
    (hfound : (l.found ++ found).Pairwise fun x y => x.1 ≤ y.1)
    (hcarried : (l.carried ++ carried).Pairwise fun x y => x.1 ≤ y.1) :
    ∃ n, l.found = [(n, join [','] (l.carried.map snd))] ∧ (∀ x ∈ l.carried, x.1 = n) ∧
      ofTag n found = [] ∧ ofTag n carried = [] := by
  obtain ⟨-, n, hlist⟩ := l.found_cases.resolve_left hleft
  obtain ⟨x, more, hfirst⟩ := List.exists_cons_of_ne_nil hne
  have hle : ∀ y ∈ l.carried ++ carried, x.1 ≤ y.1 := by
    rw [hfirst, List.cons_append] at hcarried ⊢
    exact forall_mem_cons.2 ⟨Nat.le_refl _, (pairwise_cons.1 hcarried).1⟩
  have hle' : ∀ y ∈ l.found ++ found, n ≤ y.1 := by
    rw [hlist, List.singleton_append] at hfound ⊢
    exact forall_mem_cons.2 ⟨Nat.le_refl _, (pairwise_cons.1 hfound).1⟩
  have hmem {n : Nat} {xs : List (Nat × Text)} : ofTag n xs ≠ [] ↔ ∃ y ∈ xs, y.1 = n := by
    rw [ne_eq, ofTag_eq_nil_iff]
    simp
  -- the tag that the list is left in carries a pair, and the first tag that carries a pair has a list
  have hn : n = x.1 := by
    obtain ⟨y, hy, rfl⟩ := hmem.1 ((ofTag_ne_nil_iff hkeeps n).1
      (hmem.2 ⟨_, by rw [hlist]; exact mem_cons_self, rfl⟩))
    obtain ⟨z, hz, hzx⟩ := hmem.1 ((ofTag_ne_nil_iff hkeeps x.1).2
      (hmem.2 ⟨x, by rw [hfirst]; exact mem_cons_self, rfl⟩))
    have hyx := hle y hy
    have hzy := hle' z hz
    omega
  subst hn
  have hmap : l.carried.map snd ≠ [] := by simpa using hne
  have hown : ofTag x.1 (l.carried ++ carried) ≠ [] :=
    hmem.2 ⟨x, by rw [hfirst]; exact mem_cons_self, rfl⟩
  have hone : join [','] (l.carried.map snd) :: ofTag x.1 found =
      [join [','] (ofTag x.1 (l.carried ++ carried))] := by
    rw [← oneList_of_ne_nil hown, ← hkeeps, hlist, ofTag_append]
    simp [ofTag]
  obtain ⟨hjoin, hrest⟩ := List.cons.inj hone
  -- both are beginnings of what is carried, and their lists have the same length
  have hsame : l.carried = (l.carried ++ carried).filter fun y => y.1 == x.1 := by
    refine eq_of_prefix_of_weight (List.prefix_append ..) (filter_prefix_of_pairwise hcarried hle) ?_
    rw [← listedLength_join hmap, hjoin]
    exact listedLength_join hown
  have htag : ∀ y ∈ l.carried, y.1 = x.1 := by
    intro y hy
    rw [hsame] at hy
    simpa using (List.mem_filter.1 hy).2
  refine ⟨x.1, hlist, htag, hrest, ?_⟩
  rw [List.filter_append, List.filter_eq_self.2 (by simpa using htag)] at hsame
  rw [ofTag, List.self_eq_append_right.1 hsame]
  rfl

end FirstLine

/-- If each tag has one list, each line keeps its pairs, and no tag carries pairs on two lines. -/
theorem found_of_keeps {ls : List Line}
    (hfound : (ls.flatMap Line.found).Pairwise fun x y => x.1 ≤ y.1)
    (hcarried : (ls.flatMap Line.carried).Pairwise fun x y => x.1 ≤ y.1)
    (hkeeps : ∀ n, ofTag n (ls.flatMap Line.found) = oneList (ofTag n (ls.flatMap Line.carried)))
    (hleft : ∀ l ∈ ls, l.carried ≠ [] → l.found ≠ []) :
    (∀ l ∈ ls, l.IsKept) ∧
      ls.Pairwise fun l l' => ∀ x ∈ l.carried, ∀ y ∈ l'.carried, x.1 ≠ y.1 := by
  induction ls with
  | nil => exact ⟨by simp, List.Pairwise.nil⟩
  | cons l ls ih =>
    obtain ⟨hl, hls⟩ := forall_mem_cons.1 hleft
    rw [flatMap_cons] at hfound hcarried
    have hfound' := (List.pairwise_append.1 hfound).2.1
    have hcarried' := (List.pairwise_append.1 hcarried).2.1
    simp only [flatMap_cons, ofTag_append] at hkeeps
    by_cases hnil : l.carried = []
    · -- a line without pairs leaves nothing
      have hempty : l.found = [] := by
        rcases l.found_cases with hempty | ⟨hne, -⟩
        · exact hempty
        · exact absurd hnil hne
      rw [hnil, hempty] at hkeeps
      obtain ⟨hkept, hapart⟩ := ih hfound' hcarried' hkeeps hls
      refine ⟨forall_mem_cons.2 ⟨by simp [Line.IsKept, hnil], hkept⟩, ?_⟩
      exact pairwise_cons.2 ⟨by simp [hnil], hapart⟩
    · obtain ⟨n, hlist, htag, hrest, hrest'⟩ := found_of_first (by simpa [ofTag_append] using hkeeps)
        hnil (hl hnil) hfound hcarried
      have hkeeps' (m : Nat) :
          ofTag m (ls.flatMap Line.found) = oneList (ofTag m (ls.flatMap Line.carried)) := by
        by_cases hm : m = n
        · rw [hm, hrest, hrest']
          rfl
        · have hnone : ofTag m l.carried = [] := by
            rw [ofTag_eq_nil_iff]
            exact fun x hx hxm => hm (hxm.symm.trans (htag x hx))
          have hnone' : ofTag m l.found = [] := by
            rw [hlist, ofTag_eq_nil_iff, List.forall_mem_singleton]
            exact Ne.symm hm
          have hother := hkeeps m
          rwa [hnone, hnone', List.nil_append, List.nil_append] at hother
      obtain ⟨hkept, hapart⟩ := ih hfound' hcarried' hkeeps' hls
      have hfirst : l.IsKept := by
        intro x hx
        rw [hlist, htag x hx]
      refine ⟨forall_mem_cons.2 ⟨hfirst, hkept⟩, pairwise_cons.2 ⟨?_, hapart⟩⟩
      intro l' hl' x hx y hy
      rw [htag x hx]
      exact Ne.symm (ofTag_eq_nil_iff.1 hrest' y (List.mem_flatMap.2 ⟨l', hl', hy⟩))

/-! ## Texts -/

/-- A text whose directives all are pairs inside opening tags, and that has no list of its own, keeps
the pairs of each tag just if the lines do: several pairs on one line belong to one tag, which is open
and outside quotes at the line's first closing bracket or at its end, and no tag has pairs on two
lines. -/
theorem keepsTags_iff {t : Text} (hpairs : ∀ s ∈ Occurrence.segments yield? t, isPairs s = true)
    (hinside : ∀ l ∈ lines t, l.IsInside) (hown : ¬ yieldList <:+: bareText (parts t)) :
    KeepsTags t ↔
      (∀ l ∈ lines t, 2 ≤ l.carried.length → ∀ x ∈ l.carried, l.mergePlace.tag? = some x.1) ∧
        (lines t).Pairwise fun l l' => ∀ x ∈ l.carried, ∀ y ∈ l'.carried, x.1 ≠ y.1 := by
  have hlists := tagLists_substituteYields hpairs hinside hown
  unfold KeepsTags
  rw [hlists]
  constructor
  · intro hkeeps
    have hfound := (pairwise_tagLists (.text 0) (substituteYields t)).2
    rw [hlists] at hfound
    have hweight : Text.weight listedLength (((lines t).flatMap Line.found).map Prod.snd) =
        Text.weight listedLength (((lines t).flatMap Line.carried).map Prod.snd) := by
      refine weight_of_ofTag fun n => ?_
      rw [hkeeps n]
      by_cases hnil : ofTag n ((lines t).flatMap Line.carried) = []
      · rw [hnil]
        rfl
      · rw [oneList_of_ne_nil hnil, Text.weight_cons, Text.weight_nil, listedLength_join hnil,
          Nat.add_zero]
    have hcarried := (pairwise_tagLists (.text 0) (Occurrence.substitute yield? t)).2
    rw [tagLists_substitute hpairs hinside hown] at hcarried
    obtain ⟨hkept, hapart⟩ := found_of_keeps hfound hcarried hkeeps
      (found_ne_nil_of_weight (Nat.le_of_eq hweight.symm))
    exact ⟨fun l hl => Line.isKept_iff.1 (hkept l hl), hapart⟩
  · rintro ⟨hmerged, hapart⟩
    exact keeps_of_apart (fun l hl => Line.isKept_iff.2 (hmerged l hl)) hapart

/-- Two tags on one line: the first gets the pair of the second. On two lines both keep their own,
also where a closing bracket stands in quotes after them. -/
theorem keepsTags_iff_two_tags :
    ¬ KeepsTags "<a @yieldattr('x', 'k')><b @yieldattr('y', 'm')>" ∧
      KeepsTags "<a @yieldattr('x', 'k') @yieldOn(\"y\", 'm')\n><b @yieldattr('z', 'n') title='>'/>" := by
  constructor
  · rw [keepsTags_iff (by decide +kernel) (by decide +kernel) (by decide +kernel)]
    decide +kernel
  · rw [keepsTags_iff (by decide +kernel) (by decide +kernel) (by decide +kernel)]
    decide +kernel

end BladeView.Attribute
