import BladeView.Proofs.Text.Replace

/-!
# Calls in code

Where a call is renamed, a name with its opening parenthesis is replaced. An occurrence ends at a
parenthesis and holds no other, so what stands before each parenthesis can be looked at on its
own: a replacement changes the end of that piece, and different pieces do not meet.
-/
namespace BladeView.Text

variable {c : Char}

/-- What stands before each opening parenthesis, back to the parenthesis before it. -/
def calls (t : Text) : List Text := (splitOn '(' t).dropLast

/-- Changes what stands before each opening parenthesis. -/
def mapCalls (f : Text → Text) (t : Text) : Text := mapPieces (splitOn '(' t)
where
  /-- All pieces but the last one end at a parenthesis. -/
  mapPieces : List Text → Text
    | [] => []
    | [last] => last
    | piece :: pieces => f piece ++ '(' :: mapPieces pieces

section Calls

variable {f g : Text → Text} {t piece : Text}

theorem calls_paren (h : '(' ∉ piece) (t : Text) :
    calls (piece ++ '(' :: t) = piece :: calls t := by
  rw [calls, splitOn_break h, List.dropLast_cons_of_ne_nil (splitOn_ne_nil _ _), calls]

theorem calls_of_notMem (h : '(' ∉ t) : calls t = [] := by
  rw [calls, splitOn_of_notMem h]
  rfl

theorem mapCalls_paren (f : Text → Text) (h : '(' ∉ piece) (t : Text) :
    mapCalls f (piece ++ '(' :: t) = f piece ++ '(' :: mapCalls f t := by
  obtain ⟨first, rest, hpieces⟩ := List.exists_cons_of_ne_nil (splitOn_ne_nil '(' t)
  rw [mapCalls, mapCalls, splitOn_break h, hpieces]
  rfl

theorem mapCalls_of_notMem (f : Text → Text) (h : '(' ∉ t) : mapCalls f t = t := by
  rw [mapCalls, splitOn_of_notMem h]
  rfl

/-- Induction over the pieces before parentheses. -/
theorem calls_induction {P : Text → Prop} (last : ∀ t, '(' ∉ t → P t)
    (call : ∀ piece t, '(' ∉ piece → P t → P (piece ++ '(' :: t)) (t : Text) : P t :=
  splitOn_induction last call t

theorem mapCalls_eq_self (h : ∀ piece ∈ calls t, f piece = piece) : mapCalls f t = t := by
  induction t using calls_induction with
  | last t ht => exact mapCalls_of_notMem f ht
  | call piece t hpiece ih =>
    rw [calls_paren hpiece, List.forall_mem_cons] at h
    rw [mapCalls_paren f hpiece, h.1, ih h.2]

/-- Texts that go on in any way are told apart by a piece that was changed. -/
theorem eq_of_mapCalls_append (hf : ∀ piece, '(' ∉ piece → '(' ∉ f piece) {x y : Text}
    (h : mapCalls f t ++ x = t ++ y) : ∀ piece ∈ calls t, f piece = piece := by
  induction t using calls_induction with
  | last t ht => simp [calls_of_notMem ht]
  | call piece t hpiece ih =>
    rw [mapCalls_paren f hpiece, List.append_assoc, List.append_assoc] at h
    obtain ⟨hsame, hrest⟩ := append_cons_inj (hf piece hpiece) hpiece h
    rw [calls_paren hpiece, List.forall_mem_cons]
    exact ⟨hsame, ih hrest⟩

theorem mapCalls_mapCalls (hf : ∀ piece, '(' ∉ piece → '(' ∉ f piece) (g : Text → Text)
    (t : Text) : mapCalls g (mapCalls f t) = mapCalls (fun piece => g (f piece)) t := by
  induction t using calls_induction with
  | last t ht => rw [mapCalls_of_notMem f ht, mapCalls_of_notMem g ht, mapCalls_of_notMem _ ht]
  | call piece t hpiece ih =>
    rw [mapCalls_paren f hpiece, mapCalls_paren g (hf piece hpiece), ih, mapCalls_paren _ hpiece]

theorem calls_mapCalls (hf : ∀ piece, '(' ∉ piece → '(' ∉ f piece) (t : Text) :
    calls (mapCalls f t) = (calls t).map f := by
  induction t using calls_induction with
  | last t ht => rw [mapCalls_of_notMem f ht, calls_of_notMem ht, List.map_nil]
  | call piece t hpiece ih =>
    rw [mapCalls_paren f hpiece, calls_paren (hf piece hpiece), calls_paren hpiece, ih,
      List.map_cons]

theorem mem_mapCalls (hf : ∀ piece, c ∈ f piece ↔ c ∈ piece) (t : Text) :
    c ∈ mapCalls f t ↔ c ∈ t := by
  induction t using calls_induction with
  | last t ht => rw [mapCalls_of_notMem f ht]
  | call piece t hpiece ih => simp [mapCalls_paren f hpiece, hf piece, ih]

theorem mapCalls_eq_nil (h : mapCalls f t = []) : t = [] := by
  induction t using calls_induction with
  | last t ht => rwa [mapCalls_of_notMem f ht] at h
  | call piece t hpiece _ => simp [mapCalls_paren f hpiece] at h

/-- A call stands in a text exactly if one of the pieces before parentheses ends in its name. -/
theorem infix_iff_calls {name : Text} (hname : '(' ∉ name) (t : Text) :
    name ++ ['('] <:+: t ↔ ∃ piece ∈ calls t, name <:+ piece := by
  induction t using calls_induction with
  | last t ht =>
    rw [calls_of_notMem ht]
    constructor
    · intro h
      exact absurd (h.subset (by simp)) ht
    · simp
  | call piece t hpiece ih =>
    simp only [calls_paren hpiece, List.mem_cons, exists_eq_or_imp, ← ih]
    constructor
    · rintro ⟨a, b, h⟩
      by_cases ha : '(' ∈ a
      · obtain ⟨p, q, rfl, hp⟩ := List.eq_append_cons_of_mem ha
        have hsplit : p ++ '(' :: (q ++ name ++ ['('] ++ b) = piece ++ '(' :: t := by
          simpa using h
        obtain ⟨-, hrest⟩ := append_cons_inj hp hpiece hsplit
        exact .inr ⟨q, b, by simpa using hrest⟩
      · have hsplit : (a ++ name) ++ '(' :: b = piece ++ '(' :: t := by simpa using h
        obtain ⟨hfront, -⟩ := append_cons_inj (by simp [ha, hname]) hpiece hsplit
        exact .inl ⟨a, hfront⟩
    · rintro (⟨a, ha⟩ | h)
      · exact ⟨a, t, by simp [← ha]⟩
      · exact h.trans ⟨piece ++ ['('], [], by simp⟩

/-! ### Marked calls -/

/-- Changes what stands before each opening parenthesis, as the mark of the call says. -/
def mapMarked (f : Bool → Text → Text) (marks : List Bool) (t : Text) : Text :=
  mapPieces marks (splitOn '(' t)
where
  /-- All pieces but the last one have a mark. -/
  mapPieces : List Bool → List Text → Text
    | mark :: marks, piece :: next :: pieces => f mark piece ++ '(' :: mapPieces marks (next :: pieces)
    | _, pieces => join ['('] pieces

theorem mapMarked_paren (f : Bool → Text → Text) (mark : Bool) (marks : List Bool)
    (h : '(' ∉ piece) (t : Text) :
    mapMarked f (mark :: marks) (piece ++ '(' :: t) = f mark piece ++ '(' :: mapMarked f marks t := by
  obtain ⟨first, rest, hpieces⟩ := List.exists_cons_of_ne_nil (splitOn_ne_nil '(' t)
  rw [mapMarked, mapMarked, splitOn_break h, hpieces]
  rfl

theorem mapMarked_of_notMem (f : Bool → Text → Text) (marks : List Bool) (h : '(' ∉ t) :
    mapMarked f marks t = t := by
  rw [mapMarked, splitOn_of_notMem h]
  cases marks <;> simp [mapMarked.mapPieces, join, List.intercalate]

theorem mapMarked_nil (f : Bool → Text → Text) (t : Text) : mapMarked f [] t = t := by
  induction t using calls_induction with
  | last t ht => exact mapMarked_of_notMem f [] ht
  | call piece t hpiece ih =>
    obtain ⟨first, rest, hpieces⟩ := List.exists_cons_of_ne_nil (splitOn_ne_nil '(' t)
    rw [mapMarked, hpieces] at ih
    rw [mapMarked, splitOn_break hpiece, hpieces]
    simpa [mapMarked.mapPieces, join, List.intercalate] using ih

/-- A character that the changes do not reach across divides a text. The calls before it have one
mark. -/
theorem mapMarked_append_cons {f : Bool → Text → Text} (hc : c ≠ '(')
    (hf : ∀ mark x y, f mark (x ++ c :: y) = x ++ c :: f mark y) (mark : Bool) (marks : List Bool)
    (s t : Text) :
    mapMarked f (List.replicate (s.count '(') mark ++ marks) (s ++ c :: t) =
      mapCalls (f mark) s ++ c :: mapMarked f marks t := by
  induction s using calls_induction with
  | last s hs =>
    rw [mapCalls_of_notMem _ hs, List.count_eq_zero_of_not_mem hs]
    cases marks with
    | nil => exact (mapMarked_nil f _).trans (by rw [mapMarked_nil])
    | cons next marks =>
      induction t using calls_induction with
      | last t ht =>
        rw [mapMarked_of_notMem _ _ ht, mapMarked_of_notMem _ _ (by simp [hs, ht, hc.symm])]
      | call piece t hpiece _ =>
        have hfront : '(' ∉ s ++ c :: piece := by simp [hs, hpiece, hc.symm]
        have hsplit : s ++ c :: (piece ++ '(' :: t) = (s ++ c :: piece) ++ '(' :: t := by simp
        rw [hsplit, List.replicate_zero, List.nil_append, mapMarked_paren _ _ _ hfront, hf,
          mapMarked_paren _ _ _ hpiece]
        simp
  | call piece s hpiece ih =>
    rw [List.append_assoc, List.cons_append, mapCalls_paren _ hpiece, List.count_append,
      List.count_eq_zero_of_not_mem hpiece, List.count_cons_self, Nat.zero_add,
      List.replicate_succ, List.cons_append, mapMarked_paren _ _ _ hpiece, ih]
    simp

theorem mapMarked_replicate (f : Bool → Text → Text) (mark : Bool) (t : Text) :
    mapMarked f (List.replicate (t.count '(') mark) t = mapCalls (f mark) t := by
  induction t using calls_induction with
  | last t ht => rw [mapMarked_of_notMem _ _ ht, mapCalls_of_notMem _ ht]
  | call piece t hpiece ih =>
    rw [List.count_append, List.count_eq_zero_of_not_mem hpiece, List.count_cons_self,
      Nat.zero_add, List.replicate_succ, mapMarked_paren _ _ _ hpiece, ih,
      mapCalls_paren _ hpiece]

/-- A character that the changes do not reach across divides a text. -/
theorem mapCalls_append_cons (hc : c ≠ '(') (hf : ∀ x y, f (x ++ c :: y) = x ++ c :: f y)
    (s t : Text) :
    mapCalls f (s ++ c :: t) = mapCalls f s ++ c :: mapCalls f t := by
  have hcount : (s ++ c :: t).count '(' = s.count '(' + t.count '(' := by simp [hc]
  have hmarked :=
    mapMarked_append_cons hc (fun _ => hf) true (List.replicate (t.count '(') true) s t
  rwa [List.replicate_append_replicate, ← hcount, mapMarked_replicate, mapMarked_replicate]
    at hmarked

/-- Two ways to change the calls of a text agree if they agree on each call. -/
theorem mapMarked_eq_iff {f g : Bool → Text → Text}
    (hf : ∀ mark piece, '(' ∉ piece → '(' ∉ f mark piece)
    (hg : ∀ mark piece, '(' ∉ piece → '(' ∉ g mark piece) {marks marks' : List Bool} {t : Text}
    (h : marks.length = t.count '(') (h' : marks'.length = t.count '(') :
    mapMarked f marks t = mapMarked g marks' t ↔
      ∀ x ∈ (marks.zip marks').zip (calls t), f x.1.1 x.2 = g x.1.2 x.2 := by
  induction t using calls_induction generalizing marks marks' with
  | last t ht => simp [mapMarked_of_notMem _ _ ht, calls_of_notMem ht]
  | call piece t hpiece ih =>
    have hcount : (piece ++ '(' :: t).count '(' = t.count '(' + 1 := by
      simp [List.count_eq_zero_of_not_mem hpiece]
    rw [hcount] at h h'
    obtain ⟨mark, marks, rfl⟩ := List.exists_cons_of_length_eq_add_one h
    obtain ⟨mark', marks', rfl⟩ := List.exists_cons_of_length_eq_add_one h'
    rw [mapMarked_paren _ _ _ hpiece, mapMarked_paren _ _ _ hpiece, calls_paren hpiece,
      List.zip_cons_cons, List.zip_cons_cons, List.forall_mem_cons,
      ← ih (by simpa using h) (by simpa using h')]
    constructor
    · exact append_cons_inj (hf _ _ hpiece) (hg _ _ hpiece)
    · rintro ⟨hfirst, hrest⟩
      rw [hfirst, hrest]

end Calls

/-! ## Renaming a call -/

section Rename

variable {old new piece : Text}

/-- Changes the end of a piece. -/
def rewriteEnd (old new piece : Text) : Text :=
  if old <:+ piece then piece.take (piece.length - old.length) ++ new else piece

theorem rewriteEnd_append (old new front : Text) :
    rewriteEnd old new (front ++ old) = front ++ new := by
  simp [rewriteEnd]

theorem rewriteEnd_of_not (h : ¬ old <:+ piece) : rewriteEnd old new piece = piece := if_neg h

theorem notMem_rewriteEnd (hnew : c ∉ new) (hpiece : c ∉ piece) : c ∉ rewriteEnd old new piece := by
  by_cases hend : old <:+ piece
  · obtain ⟨front, rfl⟩ := hend
    rw [rewriteEnd_append, List.mem_append, not_or]
    exact ⟨fun hmem => hpiece (List.mem_append_left _ hmem), hnew⟩
  · rwa [rewriteEnd_of_not hend]

theorem rewriteEnd_cons (old new : Text) (c : Char) (piece : Text) :
    rewriteEnd old new (c :: piece) =
      if old = c :: piece then new else c :: rewriteEnd old new piece := by
  by_cases hwhole : old = c :: piece
  · rw [if_pos hwhole, hwhole]
    exact rewriteEnd_append (c :: piece) new []
  · rw [if_neg hwhole]
    by_cases hend : old <:+ piece
    · obtain ⟨front, rfl⟩ := hend
      rw [rewriteEnd_append, ← List.cons_append, rewriteEnd_append, List.cons_append]
    · rw [rewriteEnd_of_not hend, rewriteEnd_of_not]
      intro h
      exact (List.suffix_cons_iff.mp h).elim hwhole hend

theorem replace_paren (hold : '(' ∉ old) (hne : old ≠ []) (hpiece : '(' ∉ piece) (new t : Text) :
    replace (old ++ ['(']) (new ++ ['(']) (piece ++ '(' :: t) =
      rewriteEnd old new piece ++ '(' :: replace (old ++ ['(']) (new ++ ['(']) t := by
  -- an occurrence that begins here ends at the parenthesis after the piece
  have hwhole : ∀ {piece}, '(' ∉ piece → old ++ ['('] <+: piece ++ '(' :: t → old = piece := by
    rintro piece hpiece ⟨rest, h⟩
    rw [List.append_assoc] at h
    exact (append_cons_inj hold hpiece h).1
  induction piece with
  | nil =>
    have hprefix : ¬ old ++ ['('] <+: '(' :: t := fun h => hne (hwhole (by simp) h)
    rw [List.nil_append, replace_cons hprefix, rewriteEnd_of_not (by simpa using hne)]
    rfl
  | cons c piece ih =>
    rw [List.mem_cons, not_or] at hpiece
    rw [rewriteEnd_cons]
    split
    case isTrue heq =>
      have hsplit : c :: piece ++ '(' :: t = (old ++ ['(']) ++ t := by simp [heq]
      rw [hsplit, replace_old_append (by simp)]
      simp
    case isFalse heq =>
      have hprefix : ¬ old ++ ['('] <+: c :: (piece ++ '(' :: t) := fun h =>
        heq (hwhole (by simp [hpiece]) h)
      rw [List.cons_append, replace_cons hprefix, ih hpiece.2, List.cons_append]

/-- Renaming a call changes the ends of the pieces before parentheses. -/
theorem replace_eq_mapCalls (hold : '(' ∉ old) (hne : old ≠ []) (new t : Text) :
    replace (old ++ ['(']) (new ++ ['(']) t = mapCalls (rewriteEnd old new) t := by
  induction t using calls_induction with
  | last t ht =>
    rw [mapCalls_of_notMem _ ht, replace_eq_self]
    intro h
    exact ht (h.subset (by simp))
  | call piece t hpiece ih => rw [mapCalls_paren _ hpiece, ← ih, replace_paren hold hne hpiece]

theorem suffix_append_cons_iff (hc : c ∉ old) (x y : Text) : old <:+ x ++ c :: y ↔ old <:+ y := by
  constructor
  · intro h
    rcases List.suffix_or_suffix_of_suffix h (List.suffix_append x (c :: y)) with hshort | hlong
    · rcases List.suffix_cons_iff.mp hshort with heq | hy
      · exact absurd (heq ▸ List.mem_cons_self) hc
      · exact hy
    · exact absurd (hlong.subset List.mem_cons_self) hc
  · intro h
    exact h.trans (List.suffix_append_of_suffix (List.suffix_cons c y))

theorem rewriteEnd_append_cons (hc : c ∉ old) (new x y : Text) :
    rewriteEnd old new (x ++ c :: y) = x ++ c :: rewriteEnd old new y := by
  by_cases hend : old <:+ y
  · obtain ⟨front, rfl⟩ := hend
    have hsplit : x ++ c :: (front ++ old) = (x ++ c :: front) ++ old := by simp
    rw [hsplit, rewriteEnd_append, rewriteEnd_append]
    simp
  · rw [rewriteEnd_of_not hend, rewriteEnd_of_not (by rwa [suffix_append_cons_iff hc])]

/-- A character that is not in the name of a call divides a text. -/
theorem replace_call_append_cons (hold : '(' ∉ old) (hne : old ≠ []) (hc : c ≠ '(')
    (hc' : c ∉ old) (new x y : Text) :
    replace (old ++ ['(']) (new ++ ['(']) (x ++ c :: y) =
      replace (old ++ ['(']) (new ++ ['(']) x ++ c :: replace (old ++ ['(']) (new ++ ['(']) y := by
  simp only [replace_eq_mapCalls hold hne]
  exact mapCalls_append_cons hc (rewriteEnd_append_cons hc' new) x y

end Rename

end BladeView.Text
