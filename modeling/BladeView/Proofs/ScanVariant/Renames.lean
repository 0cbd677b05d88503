import BladeView.Proofs.Script.Delimiters
import BladeView.Proofs.Text.Calls
import BladeView.ViewModule.ScanVariant

/-!
# Calls of the scan variant

The two tables of calls can be applied to each call on its own. What the first one changes the
second one changes back, but for a few calls that have no way back, or that were written in the
other form from the start.
-/
namespace BladeView.ScanVariant

open Text (calls mapCalls rewriteEnd)

/-- The name of a call, without its parenthesis. -/
def nameOf (call : String) : Text := call.toList.dropLast

/-- A character of the names of calls. -/
def isPathChar (c : Char) : Bool := c.isAlpha || c == '.' || c == '_'

/-- A table whose entries do not get in each other's way: all are calls with plain names, no text
ends in two of the old names, and none ends in an old and a new name. -/
def Separated (table : List (String × String)) : Prop :=
  ∀ e ∈ table,
    (e.1.toList = nameOf e.1 ++ ['('] ∧ e.2.toList = nameOf e.2 ++ ['(']) ∧
    (nameOf e.1 ++ nameOf e.2).all isPathChar = true ∧
    ∀ e' ∈ table, (nameOf e.1 <:+ nameOf e'.1 → e = e') ∧
      ¬ nameOf e.1 <:+ nameOf e'.2 ∧ ¬ nameOf e'.2 <:+ nameOf e.1

/-! ## One call -/

/-- The piece before a parenthesis, with the name at its end changed as a table says. -/
def rewriteAll (table : List (String × String)) (piece : Text) : Text :=
  table.foldl (fun piece entry => rewriteEnd (nameOf entry.1) (nameOf entry.2) piece) piece

namespace Separated

variable {table : List (String × String)} {e : String × String} {piece t : Text} {c : Char}

theorem notMem (h : Separated table) (he : e ∈ table) (hc : isPathChar c = false) :
    c ∉ nameOf e.1 ∧ c ∉ nameOf e.2 := by
  have hplain := List.all_eq_true.mp (h e he).2.1
  constructor
  all_goals
    intro hmem
    have hpath := hplain c (by simp [hmem])
    rw [hc] at hpath
    cases hpath

theorem old_ne_nil (h : Separated table) (he : e ∈ table) : nameOf e.1 ≠ [] := by
  intro hnil
  exact ((h e he).2.2 e he).2.1 (hnil ▸ List.nil_suffix)

/-- A name that no old name of the table ends in is left as it is. -/
theorem rewriteAll_of_forall_not (hnot : ∀ e ∈ table, ¬ nameOf e.1 <:+ piece) :
    rewriteAll table piece = piece := by
  induction table with
  | nil => rfl
  | cons e table ih =>
    rw [List.forall_mem_cons] at hnot
    rw [rewriteAll, List.foldl_cons, Text.rewriteEnd_of_not hnot.1]
    exact ih hnot.2

/-- An old name at the end of a piece becomes the new one. -/
theorem rewriteAll_append (h : Separated table) (he : e ∈ table) (front : Text) :
    rewriteAll table (front ++ nameOf e.1) = front ++ nameOf e.2 := by
  obtain ⟨before, after, hsplit, hfirst⟩ := List.eq_append_cons_of_mem he
  have hbefore : rewriteAll before (front ++ nameOf e.1) = front ++ nameOf e.1 := by
    refine rewriteAll_of_forall_not fun e' he' hend => ?_
    have hmem : e' ∈ table := by simp [hsplit, he']
    rcases List.suffix_or_suffix_of_suffix hend (List.suffix_append front _) with hcase | hcase
    · exact hfirst (((h e' hmem).2.2 e he).1 hcase ▸ he')
    · exact hfirst (((h e he).2.2 e' hmem).1 hcase ▸ he')
  have hafter : rewriteAll after (front ++ nameOf e.2) = front ++ nameOf e.2 := by
    refine rewriteAll_of_forall_not fun e' he' hend => ?_
    have hmem : e' ∈ table := by simp [hsplit, he']
    rcases List.suffix_or_suffix_of_suffix hend (List.suffix_append front _) with hcase | hcase
    · exact ((h e' hmem).2.2 e he).2.1 hcase
    · exact ((h e' hmem).2.2 e he).2.2 hcase
  calc rewriteAll table (front ++ nameOf e.1)
      = rewriteAll after (rewriteEnd (nameOf e.1) (nameOf e.2)
          (rewriteAll before (front ++ nameOf e.1))) := by
        rw [rewriteAll, hsplit, List.foldl_append]
        rfl
    _ = front ++ nameOf e.2 := by rw [hbefore, Text.rewriteEnd_append, hafter]

/-- A piece ends in an old name, which is changed, or is left as it is. -/
theorem rewriteAll_cases (h : Separated table) (piece : Text) :
    (∃ e ∈ table, ∃ front, piece = front ++ nameOf e.1 ∧
        rewriteAll table piece = front ++ nameOf e.2) ∨
      (∀ e ∈ table, ¬ nameOf e.1 <:+ piece) ∧ rewriteAll table piece = piece := by
  by_cases hsome : ∃ e ∈ table, nameOf e.1 <:+ piece
  · obtain ⟨e, he, front, rfl⟩ := hsome
    exact .inl ⟨e, he, front, rfl, h.rewriteAll_append he front⟩
  · have hnot : ∀ e ∈ table, ¬ nameOf e.1 <:+ piece := fun e he hend => hsome ⟨e, he, hend⟩
    exact .inr ⟨hnot, rewriteAll_of_forall_not hnot⟩

/-- No old name is left at the end. -/
theorem not_suffix_rewriteAll (h : Separated table) (he : e ∈ table) (piece : Text) :
    ¬ nameOf e.1 <:+ rewriteAll table piece := by
  rcases h.rewriteAll_cases piece with ⟨e', he', front, -, hnew⟩ | ⟨hnot, hsame⟩
  · rw [hnew]
    intro hend
    rcases List.suffix_or_suffix_of_suffix hend (List.suffix_append front _) with hcase | hcase
    · exact ((h e he).2.2 e' he').2.1 hcase
    · exact ((h e he).2.2 e' he').2.2 hcase
  · rw [hsame]
    exact hnot e he

theorem rewriteAll_append_cons (h : Separated table) (hc : isPathChar c = false) (x y : Text) :
    rewriteAll table (x ++ c :: y) = x ++ c :: rewriteAll table y := by
  have hold : ∀ e ∈ table, c ∉ nameOf e.1 := fun e he => (h.notMem he hc).1
  clear h
  induction table generalizing y with
  | nil => rfl
  | cons e table ih =>
    rw [List.forall_mem_cons] at hold
    rw [rewriteAll, List.foldl_cons, Text.rewriteEnd_append_cons hold.1]
    exact ih _ hold.2

/-- The characters that names do not have are kept as they are. -/
theorem mem_rewriteAll (h : Separated table) (hc : isPathChar c = false) :
    c ∈ rewriteAll table piece ↔ c ∈ piece := by
  rcases h.rewriteAll_cases piece with ⟨e, he, front, rfl, hnew⟩ | ⟨-, hsame⟩
  · rw [hnew]
    simp [h.notMem he hc]
  · rw [hsame]

/-! ## Code -/

/-- A table is applied to each call on its own. -/
theorem replaceAll_eq (h : Separated table) (t : Text) :
    replaceAll table t = mapCalls (rewriteAll table) t := by
  have hcall : ∀ e ∈ table, e.1.toList = nameOf e.1 ++ ['('] ∧ e.2.toList = nameOf e.2 ++ ['('] ∧
      '(' ∉ nameOf e.1 ∧ '(' ∉ nameOf e.2 ∧ nameOf e.1 ≠ [] := fun e he =>
    ⟨(h e he).1.1, (h e he).1.2, (h.notMem he (by decide)).1, (h.notMem he (by decide)).2,
      h.old_ne_nil he⟩
  clear h
  induction table generalizing t with
  | nil => exact (Text.mapCalls_eq_self fun _ _ => rfl).symm
  | cons e table ih =>
    rw [List.forall_mem_cons] at hcall
    obtain ⟨⟨hold, hnew, hparen, hparen', hne⟩, hrest⟩ := hcall
    have hkeep : ∀ piece, '(' ∉ piece → '(' ∉ rewriteEnd (nameOf e.1) (nameOf e.2) piece :=
      fun _ => Text.notMem_rewriteEnd hparen'
    rw [replaceAll, List.foldl_cons, hold, hnew, Text.replace_eq_mapCalls hparen hne]
    exact (ih _ hrest).trans (Text.mapCalls_mapCalls hkeep _ t)

theorem rewriteAll_noParen (h : Separated table) : ∀ piece, '(' ∉ piece →
    '(' ∉ rewriteAll table piece :=
  fun _ hpiece hmem => hpiece ((h.mem_rewriteAll (by decide)).mp hmem)

theorem replaceAll_paren (h : Separated table) (hpiece : '(' ∉ piece) (t : Text) :
    replaceAll table (piece ++ '(' :: t) = rewriteAll table piece ++ '(' :: replaceAll table t := by
  rw [h.replaceAll_eq, h.replaceAll_eq, Text.mapCalls_paren _ hpiece]

/-- A character that names do not have divides code, parentheses apart. -/
theorem replaceAll_append_cons (h : Separated table) (hc : isPathChar c = false) (hc' : c ≠ '(')
    (s t : Text) :
    replaceAll table (s ++ c :: t) = replaceAll table s ++ c :: replaceAll table t := by
  rw [h.replaceAll_eq, h.replaceAll_eq, h.replaceAll_eq,
    Text.mapCalls_append_cons hc' (h.rewriteAll_append_cons hc)]

theorem replaceAll_nil (table : List (String × String)) : replaceAll table [] = [] := by
  induction table with
  | nil => rfl
  | cons e table ih => exact ih

theorem replaceAll_cons (h : Separated table) (hc : isPathChar c = false) (hc' : c ≠ '(')
    (t : Text) : replaceAll table (c :: t) = c :: replaceAll table t := by
  have happend := h.replaceAll_append_cons hc hc' [] t
  rwa [replaceAll_nil] at happend

theorem isPathChar_of_isDelimiter (hc : isDelimiter c = true) :
    isPathChar c = false ∧ c ≠ '(' := by
  simp only [isDelimiter, isQuote, Bool.or_eq_true, beq_iff_eq] at hc
  rcases hc with ((((rfl | rfl) | rfl) | rfl) | rfl) | rfl <;> decide

/-- A table changes the text between delimiters only. -/
theorem keepsDelimiters (h : Separated table) : KeepsDelimiters (replaceAll table) where
  nil := replaceAll_nil table
  split s c t hc :=
    h.replaceAll_append_cons (isPathChar_of_isDelimiter hc).1 (isPathChar_of_isDelimiter hc).2 s t
  plain p hp c hmem := by
    refine Bool.eq_false_iff.mpr fun hc => ?_
    have hpath := (isPathChar_of_isDelimiter hc).1
    rw [h.replaceAll_eq, Text.mem_mapCalls fun _ => h.mem_rewriteAll hpath] at hmem
    rw [hp c hmem] at hc
    cases hc
  ne_nil p hnil := Text.mapCalls_eq_nil (h.replaceAll_eq p ▸ hnil)

/-- No call of a table is left. -/
theorem not_infix_replaceAll (h : Separated table) (he : e ∈ table) (t : Text) :
    ¬ e.1.toList <:+: replaceAll table t := by
  rw [(h e he).1.1, h.replaceAll_eq, Text.infix_iff_calls (h.notMem he (by decide)).1,
    Text.calls_mapCalls h.rewriteAll_noParen]
  rintro ⟨piece, hpiece, hend⟩
  obtain ⟨piece', -, rfl⟩ := List.mem_map.mp hpiece
  exact h.not_suffix_rewriteAll he piece' hend

end Separated

/-! ## There and back -/

/-- The calls that do not survive both tables: those that the second table does not change back to
what they were, and those that it changes although the first table did not. -/
def lossy : List String :=
  (renames.filter fun e => !reverts.contains (e.2, e.1)).map Prod.fst ++ reverts.map Prod.fst

/-- The entries of a table do not get in each other's way, and those of the two tables only where
one undoes the other. All of it is read off the tables at once. -/
theorem separated_tables : Separated renames ∧ Separated reverts ∧
    ∀ e ∈ renames, ∀ e' ∈ reverts,
      (¬ nameOf e.1 <:+ nameOf e'.1 ∧ ¬ nameOf e'.1 <:+ nameOf e.1) ∧
        (nameOf e.2 <:+ nameOf e'.1 ∨ nameOf e'.1 <:+ nameOf e.2 → e.2 = e'.1) ∧
        (nameOf e'.2 = nameOf e.1 → e'.2 = e.1) := by
  unfold Separated
  decide +kernel

theorem separated_renames : Separated renames := separated_tables.1

theorem separated_reverts : Separated reverts := separated_tables.2.1

/-- What the second table has to do with the first one. -/
theorem renames_reverts : ∀ e ∈ renames, ∀ e' ∈ reverts,
    (¬ nameOf e.1 <:+ nameOf e'.1 ∧ ¬ nameOf e'.1 <:+ nameOf e.1) ∧
      (nameOf e.2 <:+ nameOf e'.1 ∨ nameOf e'.1 <:+ nameOf e.2 → e.2 = e'.1) ∧
      (nameOf e'.2 = nameOf e.1 → e'.2 = e.1) :=
  separated_tables.2.2

theorem mem_lossy {call : String} :
    call ∈ lossy ↔ (∃ e ∈ renames, (e.2, e.1) ∉ reverts ∧ e.1 = call) ∨
      ∃ e ∈ reverts, e.1 = call := by
  simp [lossy, and_assoc]

theorem lossy_call {call : String} (h : call ∈ lossy) :
    call.toList = nameOf call ++ ['('] ∧ '(' ∉ nameOf call := by
  rcases mem_lossy.mp h with ⟨e, he, -, rfl⟩ | ⟨e, he, rfl⟩
  · exact ⟨(separated_renames e he).1.1, (separated_renames.notMem he (by decide)).1⟩
  · exact ⟨(separated_reverts e he).1.1, (separated_reverts.notMem he (by decide)).1⟩

/-- A piece that ends in an old name of the first table comes back exactly if the second table has
the entry the other way round. -/
theorem revert_append {e : String × String} (he : e ∈ renames) (front : Text) :
    rewriteAll reverts (front ++ nameOf e.2) = front ++ nameOf e.1 ↔ (e.2, e.1) ∈ reverts := by
  rcases separated_reverts.rewriteAll_cases (front ++ nameOf e.2) with
    ⟨e', he', front', hsplit, hback⟩ | ⟨hnot, hsame⟩
  · have hend : nameOf e'.1 <:+ front ++ nameOf e.2 := ⟨front', hsplit.symm⟩
    have hcall : e.2 = e'.1 :=
      (renames_reverts e he e' he').2.1
        (List.suffix_or_suffix_of_suffix (List.suffix_append front _) hend)
    rw [hcall, List.append_left_inj] at hsplit
    rw [hback, ← hsplit, List.append_right_inj]
    constructor
    · intro hname
      rw [hcall, ← (renames_reverts e he e' he').2.2 hname]
      exact he'
    · intro hmem
      have hentry := ((separated_reverts e' he').2.2 _ hmem).1 (hcall ▸ List.suffix_rfl)
      rw [hentry]
  · rw [hsame, List.append_right_inj]
    constructor
    · intro hname
      exact absurd (hname ▸ List.suffix_rfl) ((separated_renames e he).2.2 e he).2.1
    · intro hmem
      exact absurd (List.suffix_append front _) (hnot _ hmem)

theorem revert_rename_piece (piece : Text) :
    rewriteAll reverts (rewriteAll renames piece) = piece ↔
      ∀ call ∈ lossy, ¬ nameOf call <:+ piece := by
  rcases separated_renames.rewriteAll_cases piece with ⟨e, he, front, rfl, hnew⟩ | ⟨hnot, hsame⟩
  · rw [hnew, revert_append he]
    constructor
    · intro hmem call hcall hend
      have hcomparable := List.suffix_or_suffix_of_suffix hend (List.suffix_append front _)
      rcases mem_lossy.mp hcall with ⟨e', he', hlost, rfl⟩ | ⟨e', he', rfl⟩
      · have hentry : e' = e := hcomparable.elim ((separated_renames e' he').2.2 e he).1
          fun h => (((separated_renames e he).2.2 e' he').1 h).symm
        exact hlost (hentry ▸ hmem)
      · exact hcomparable.elim (renames_reverts e he e' he').1.2 (renames_reverts e he e' he').1.1
    · intro hlossy
      refine Decidable.byContradiction fun hlost => ?_
      exact hlossy e.1 (mem_lossy.mpr (.inl ⟨e, he, hlost, rfl⟩)) (List.suffix_append front _)
  · rw [hsame]
    constructor
    · intro hback call hcall hend
      rcases mem_lossy.mp hcall with ⟨e, he, -, rfl⟩ | ⟨e, he, rfl⟩
      · exact hnot e he hend
      · exact separated_reverts.not_suffix_rewriteAll he piece (hback.symm ▸ hend)
    · intro hlossy
      exact Separated.rewriteAll_of_forall_not fun e he =>
        hlossy e.1 (mem_lossy.mpr (.inr ⟨e, he, rfl⟩))

/-- Code survives both tables exactly if it holds none of the lossy calls. If it does hold one, the
place shows whatever comes after the code. -/
theorem revert_rename_iff (t x y : Text) :
    replaceAll reverts (replaceAll renames t) ++ x = t ++ y ↔
      (∀ call ∈ lossy, ¬ call.toList <:+: t) ∧ x = y := by
  have htwice : replaceAll reverts (replaceAll renames t) =
      mapCalls (fun piece => rewriteAll reverts (rewriteAll renames piece)) t := by
    rw [separated_renames.replaceAll_eq, separated_reverts.replaceAll_eq,
      Text.mapCalls_mapCalls separated_renames.rewriteAll_noParen]
  have hpieces : (∀ call ∈ lossy, ¬ call.toList <:+: t) ↔
      ∀ piece ∈ calls t, rewriteAll reverts (rewriteAll renames piece) = piece := by
    simp only [revert_rename_piece]
    constructor
    · intro h piece hpiece call hcall hend
      refine h call hcall ?_
      rw [(lossy_call hcall).1]
      exact (Text.infix_iff_calls (lossy_call hcall).2 t).mpr ⟨piece, hpiece, hend⟩
    · intro h call hcall hstands
      rw [(lossy_call hcall).1] at hstands
      obtain ⟨piece, hpiece, hend⟩ := (Text.infix_iff_calls (lossy_call hcall).2 t).mp hstands
      exact h piece hpiece call hcall hend
  rw [htwice, hpieces]
  constructor
  · intro h
    have hsame := Text.eq_of_mapCalls_append
      (fun piece hpiece => separated_reverts.rewriteAll_noParen _
        (separated_renames.rewriteAll_noParen piece hpiece)) h
    rw [Text.mapCalls_eq_self hsame, List.append_right_inj] at h
    exact ⟨hsame, h⟩
  · rintro ⟨hsame, rfl⟩
    rw [Text.mapCalls_eq_self hsame]

end BladeView.ScanVariant
