import BladeView.Proofs.Expression.Outcome

/-!
# Converting a script again

The conversion leaves exactly the settled texts alone. A text that is not settled is changed beyond
repair: the output differs from it at a place that both have. So a script that is converted again
comes out the same exactly if it is settled.
-/
namespace BladeView.Expression

open Text (join trim_trim)

/-- What is known of the conversion of texts shorter than `n`: blanks around a text are left aside,
settled texts stay, any other is in conflict with its script, and a script starts with a blank only
if a dot concatenates there. -/
structure Reproduces (b : Bindings) (convert : Text → Text) (n : Nat) : Prop where
  trim {t : Text} : t.length < n → convert t = convert (Text.trim t)
  settled {t : Text} : t.length < n → Text.trim t = t → Settled b .nothing none t → convert t = t
  conflict {t : Text} : t.length < n → Text.trim t = t →
    Settled b .nothing none t ∨ Conflict (convert t) t
  head {c : Char} {cs : Text} : (c :: cs).length < n → Text.trim (c :: cs) = c :: cs →
    (∃ d rest, isBlank d = false ∧ convert (c :: cs) = d :: rest) ∨
      c = '.' ∧ ∃ rest, convert (c :: cs) = ' ' :: '+' :: rest

/-- A plus after one blank is no dot after blanks. -/
theorem conflict_concatenation {blanks : Text} (h : ∀ c ∈ blanks, isBlank c = true) (t u : Text) :
    Conflict (' ' :: '+' :: t) (blanks ++ '.' :: u) := by
  match blanks with
  | [] => exact .cons (by decide) _ _
  | [c] =>
    by_cases hc : c = ' '
    · subst hc
      exact Conflict.append_left (.cons (by decide) t u) [' ']
    · exact .cons (Ne.symm hc) _ _
  | c :: d :: blanks =>
    have hd : d ≠ '+' := by
      rintro rfl
      cases h '+' (by simp)
    by_cases hc : c = ' '
    · subst hc
      exact Conflict.append_left (.cons hd.symm _ _) [' ']
    · exact .cons (Ne.symm hc) _ _

/-- The pieces of the inside of an array as its items. -/
def itemsOf (pieces : List Text) : List Text := TopLevel.dropEmptyLast (pieces.map Text.trim)

theorem itemsOf_cons_cons (s s' : Text) (rest : List Text) :
    itemsOf (s :: s' :: rest) = Text.trim s :: itemsOf (s' :: rest) := rfl

/-- A blank before the first item is left aside. -/
theorem itemsOf_blank (s : Text) (rest : List Text) :
    itemsOf ((' ' :: s) :: rest) = itemsOf (s :: rest) := rfl

/-- What is written after a comma starts with a space. -/
theorem space_or_conflict {s : Text} {rest : List Text} (h : itemsOf (s :: rest) ≠ [])
    (t u : Text) :
    (∃ s', s = ' ' :: s') ∨ Conflict (' ' :: t) (join [','] (s :: rest) ++ u) := by
  match s, rest with
  | [], [] => exact absurd rfl h
  | [], s' :: rest =>
    rw [Text.join_cons_cons]
    exact .inr (@Conflict.cons ' ' ',' (by decide) _ _)
  | c :: s, rest =>
    by_cases hc : c = ' '
    · exact .inl ⟨s, by rw [hc]⟩
    · rw [Text.join_cons_head]
      exact .inr (.cons (Ne.symm hc) _ _)

theorem mem_itemsOf_singleton {s item : Text} (h : item ∈ itemsOf [s]) : item = Text.trim s :=
  List.mem_singleton.mp (TopLevel.mem_of_mem_dropEmptyLast h)

theorem join_itemsOf_singleton {f : Text → Text} {s : Text} (hf : f [] = []) :
    join ", " ((itemsOf [s]).map f) = f (Text.trim s) := by
  rw [itemsOf, List.map_singleton]
  cases Text.trim s with
  | nil => exact hf.symm
  | cons c cs => exact Text.join_singleton _ _

/-- There are delimiters at the two ends of the script of a closed bracket. -/
theorem bracketed_ends (convert : Text → Text) (before : Before) (inner : Text) :
    ∃ first t last, bracketed convert before inner = first :: (t ++ [last]) ∧
      (first = '[' ∨ first = '\x7b') ∧ isBlank last = false := by
  simp only [bracketed, Expression.array]
  split
  · exact ⟨'[', _, ']', rfl, .inl rfl, rfl⟩
  split
  · exact ⟨'\x7b', _, '\x7d', rfl, .inr rfl, rfl⟩
  · exact ⟨'[', _, ']', rfl, .inl rfl, rfl⟩

/-- The script of a closed bracket is in the output. -/
theorem exists_run_of_group {b : Bindings} {convert : Text → Text} {p : Pass} {inner rest : Text}
    (h : Group.read? ('[' :: (inner ++ ']' :: rest)) = some (inner, rest)) :
    ∃ after, run b convert p 0 ('[' :: (inner ++ ']' :: rest))
      = p.written.reverse ++ (bracketed convert p.before inner ++ after) := by
  obtain ⟨first, t, last, hscript, -, hlast⟩ := bracketed_ends convert p.before inner
  rw [run_group h]
  refine run_written ?_ ?_ _ _ _ _
  · simp [hscript]
  · rw [hscript, ← List.cons_append, List.getLast?_concat]
    exact hlast

namespace Reproduces

variable {b : Bindings} {convert : Text → Text} {n : Nat}

/-- Blanks at the front of a text do not come out. -/
theorem conflict_of_blank (h : Reproduces b convert n) {s : Text} (hs : s.length < n)
    (hblank : s.head?.any isBlank = true) {d : Char} (hd : isBlank d = false) (t u : Text) :
    Conflict (convert s ++ d :: t) (s ++ u) := by
  have hne : ∀ c e, isBlank c = false → isBlank e = true → c ≠ e := by
    rintro c e hc he rfl
    simp [hc] at he
  obtain ⟨before, after, heq, hbefore, -⟩ := Text.trim_spec s
  have hlength := Nat.lt_of_le_of_lt (Text.length_trim_le s) hs
  rw [h.trim hs]
  cases hcore : Text.trim s with
  | nil =>
    cases s with
    | nil => cases hblank
    | cons e s =>
      rw [h.settled (by simp; omega) rfl .nil]
      exact .cons (hne d e hd (by simpa using hblank)) _ _
  | cons c cs =>
    rw [hcore] at heq hlength
    have htrim : Text.trim (c :: cs) = c :: cs := by rw [← hcore, trim_trim]
    rw [heq, List.append_assoc, List.append_assoc]
    rcases h.head hlength htrim with ⟨first, rest, hfirst, hscript⟩ | ⟨rfl, rest, hscript⟩
    · cases before with
      | nil =>
        have hc : isBlank c = false := by simpa [hcore] using Text.head?_trim s
        rw [heq] at hblank
        simp [hc] at hblank
      | cons e before =>
        rw [hscript]
        exact .cons (hne first e hfirst (hbefore e (by simp))) _ _
    · rw [hscript]
      exact conflict_concatenation hbefore _ _

/-- The part of a text before a delimiter: it is trimmed and settled, or the difference shows before
or at the delimiter. -/
theorem part (h : Reproduces b convert n) {s : Text} (hs : s.length < n) {d : Char}
    (hd : isBlank d = false) (t u : Text) :
    (Text.trim s = s ∧ Settled b .nothing none s) ∨ Conflict (convert s ++ d :: t) (s ++ u) := by
  cases hblank : s.head?.any isBlank with
  | true => exact .inr (h.conflict_of_blank hs hblank hd t u)
  | false =>
    obtain ⟨after, heq, hafter⟩ := Text.dropEndWhile_append isBlank s
    have htrim : Text.trim s = Text.dropEndWhile isBlank s := by
      rw [Text.trim, Text.trimStart, Text.dropWhile_eq_self_of_head? hblank, Text.trimEnd]
    rw [← htrim] at heq
    have hlength := Nat.lt_of_le_of_lt (Text.length_trim_le s) hs
    rcases h.conflict hlength (trim_trim s) with hsettled | hconflict
    · cases after with
      | nil =>
        rw [List.append_nil] at heq
        exact .inl ⟨heq.symm, heq ▸ hsettled⟩
      | cons e after =>
        have hne : d ≠ e := by
          rintro rfl
          simp [hd] at hafter
        refine .inr ?_
        rw [h.trim hs, h.settled hlength (trim_trim s) hsettled]
        conv => arg 2; rw [heq, List.append_assoc]
        exact Conflict.append_left (.cons hne _ _) _
    · refine .inr ?_
      rw [h.trim hs]
      conv => arg 2; rw [heq, List.append_assoc]
      exact hconflict.append_right _ _

/-- The items of an array without keys: they are settled and one comma and one space apart, or the
difference shows before the array ends. -/
theorem items (h : Reproduces b convert n) {s : Text} {rest : List Text}
    (hlength : ∀ piece ∈ s :: rest, piece.length < n) (t u : Text) :
    (join ", " (itemsOf (s :: rest)) = join [','] (s :: rest) ∧
      ∀ item ∈ itemsOf (s :: rest), Settled b .nothing none item) ∨
    Conflict (join ", " ((itemsOf (s :: rest)).map convert) ++ ']' :: t)
      (join [','] (s :: rest) ++ ']' :: u) := by
  have hs : s.length < n := hlength s (by simp)
  have hempty : convert [] = [] := h.settled (by simp; omega) rfl .nil
  induction rest generalizing s with
  | nil =>
    rw [join_itemsOf_singleton hempty, ← h.trim hs, Text.join_singleton]
    rcases @part _ _ _ h s hs ']' rfl t (']' :: u) with ⟨htrim, hsettled⟩ | hconflict
    · refine .inl ⟨?_, fun item hitem => ?_⟩
      · simpa [htrim] using @join_itemsOf_singleton id s rfl
      · rwa [mem_itemsOf_singleton hitem, htrim]
    · exact .inr hconflict
  | cons s' rest ih =>
    rw [itemsOf_cons_cons, Text.join_cons_cons]
    by_cases hitems : itemsOf (s' :: rest) = []
    · -- an empty last piece is dropped, and the comma before it
      refine .inr ?_
      rw [hitems, List.map_singleton, Text.join_singleton, ← h.trim hs, List.append_assoc,
        List.append_assoc]
      rcases @part _ _ _ h s hs ']' rfl t ([','] ++ (join [','] (s' :: rest) ++ ']' :: u))
        with ⟨htrim, hsettled⟩ | hconflict
      · rw [h.settled hs htrim hsettled]
        exact Conflict.append_left (@Conflict.cons ']' ',' (by decide) _ _) s
      · exact hconflict
    · rw [List.map_cons, Text.join_cons_of_ne_nil _ _ hitems,
        Text.join_cons_of_ne_nil _ _ (mt List.map_eq_nil_iff.mp hitems), ← h.trim hs]
      rcases @part _ _ _ h s hs ',' rfl (' ' :: (join ", " ((itemsOf (s' :: rest)).map convert)
        ++ ']' :: t)) ([','] ++ (join [','] (s' :: rest) ++ ']' :: u))
        with ⟨htrim, hsettled⟩ | hconflict
      · rw [h.settled hs htrim hsettled, htrim]
        rcases space_or_conflict hitems
          (join ", " ((itemsOf (s' :: rest)).map convert) ++ ']' :: t) (']' :: u)
          with ⟨s', rfl⟩ | hconflict
        · have hs' : s'.length < n := Nat.lt_of_succ_lt (hlength (' ' :: s') (by simp))
          have hlength' : ∀ piece ∈ s' :: rest, piece.length < n :=
            List.forall_mem_cons.mpr ⟨hs', fun piece hpiece => hlength piece (by simp [hpiece])⟩
          rw [itemsOf_blank, Text.join_cons_head]
          rcases ih hlength' hs' with ⟨hjoin, hitems'⟩ | hconflict
          · exact .inl ⟨by rw [hjoin]; simp, List.forall_mem_cons.mpr ⟨hsettled, hitems'⟩⟩
          · exact .inr (by simpa using hconflict.append_left (s ++ [',', ' ']))
        · exact .inr (by simpa using hconflict.append_left (s ++ [',']))
      · exact .inr (by simpa using hconflict)

/-- An array: it has settled items without keys, one comma and one space apart, or it is written in
another way. -/
theorem array (h : Reproduces b convert n) {inner : Text} (hlength : inner.length < n)
    (t u : Text) :
    (inner = join ", " (TopLevel.split inner) ∧
      (∀ item ∈ TopLevel.split inner, pair? item = none) ∧
      ∀ item ∈ TopLevel.split inner, Settled b .nothing none item) ∨
    Conflict (Expression.array convert inner ++ t) ('[' :: (inner ++ ']' :: u)) := by
  cases hkeys : (TopLevel.split inner).any fun item => (pair? item).isSome with
  | true =>
    simp only [Expression.array, hkeys, if_true]
    exact .inr (@Conflict.cons '\x7b' '[' (by decide) _ _)
  | false =>
    have hpairs : ∀ item ∈ TopLevel.split inner, pair? item = none := by simpa using hkeys
    have hinner := TopLevel.join_pieces ',' Level.start inner
    obtain ⟨s, rest, hpieces⟩ :=
      List.exists_cons_of_ne_nil (TopLevel.pieces_ne_nil ',' Level.start inner)
    have hsplit : TopLevel.split inner = itemsOf (s :: rest) := by
      rw [← hpieces, TopLevel.split_eq, itemsOf]
    have hshort : ∀ piece ∈ s :: rest, piece.length < n := by
      intro piece hpiece
      have hle := Text.length_le_length_join [','] hpiece
      rw [← hpieces, hinner] at hle
      omega
    rw [hpieces] at hinner
    simp only [Expression.array, hkeys, Bool.false_eq_true, if_false]
    rw [hsplit] at hpairs ⊢
    rcases h.items hshort t u with ⟨hjoin, hitems⟩ | hconflict
    · exact .inl ⟨hinner.symm.trans hjoin.symm, hpairs, hitems⟩
    · rw [hinner] at hconflict
      exact .inr (by simpa using hconflict.append_left ['['])

/-- A closed bracket: it stays with its inside, or it is written in another way. -/
theorem bracket (h : Reproduces b convert n) {before : Before} {last : Option Char}
    {inner rest : Text} (hlength : inner.length < n)
    (hread : Group.read? ('[' :: (inner ++ ']' :: rest)) = some (inner, rest)) (t : Text) :
    (bracketed convert before inner = '[' :: (inner ++ [']']) ∧
      (Settled b (.sign ']') (some ']') rest →
        Settled b before last ('[' :: (inner ++ ']' :: rest)))) ∨
    Conflict (bracketed convert before inner ++ t) ('[' :: (inner ++ ']' :: rest)) := by
  cases hindex : before.takesIndex with
  | true =>
    rcases @part _ _ _ h inner hlength ']' rfl t (']' :: rest) with ⟨htrim, hinner⟩ | hconflict
    · exact .inl ⟨bracketed_index hindex (h.settled hlength htrim hinner),
        .index hindex hread htrim hinner⟩
    · rw [bracketed, if_pos hindex]
      exact .inr (by simpa using hconflict.append_left ['['])
  | false =>
    rcases h.array hlength t rest with ⟨hjoin, hpairs, hitems⟩ | hconflict
    · have hconvert : ∀ item ∈ TopLevel.split inner, convert item = item := by
        intro item hitem
        obtain ⟨htrim, hle⟩ := TopLevel.mem_split hitem
        exact h.settled (Nat.lt_of_le_of_lt hle hlength) htrim (hitems item hitem)
      exact .inl ⟨bracketed_array hindex hjoin hpairs hconvert,
        .array hindex hread hjoin hpairs hitems⟩
    · rw [bracketed, hindex]
      exact .inr hconflict

/-- **The pass over a text that is not settled writes something else**, whatever was written
before. -/
theorem run (h : Reproduces b convert n) {p : Pass} {t : Text} (hlength : t.length ≤ n)
    (hname : p.endsName = p.last.any isNameChar) :
    Settled b p.before p.last t ∨
      Conflict (Expression.run b convert p 0 t) (p.written.reverse ++ t) := by
  induction hk : t.length using Nat.strongRecOn generalizing p t with
  | ind k ih =>
  cases t with
  | nil => exact .inl .nil
  | cons c cs =>
    cases @outcome b convert p c cs hname with
    | @stays token rest next heq hstays =>
      have htoken : 0 < token.length := List.length_pos_iff.mpr hstays.ne_nil
      rw [heq] at hlength hk ⊢
      rw [List.length_append] at hlength hk
      rw [run_of_stays hname hstays]
      rcases @ih rest.length (by omega) ⟨next, token.getLast?, token.reverse ++ p.written⟩ rest
        (by omega) (endsName_append hstays.ne_nil _ _) rfl with hsettled | hconflict
      · exact .inl (.token hstays hsettled)
      · exact .inr (by simpa using hconflict)
    | @group inner rest heq hread =>
      rw [heq] at hlength hk hread ⊢
      rw [List.length_cons, List.length_append, List.length_cons] at hlength hk
      obtain ⟨after, hafter⟩ := @exists_run_of_group b convert p inner rest hread
      rcases @bracket _ _ _ h p.before p.last inner rest (by omega) hread after
        with ⟨heq, hgroup⟩ | hconflict
      · rw [run_of_group hread heq]
        rcases @ih rest.length (by omega)
          ⟨.sign ']', some ']', ']' :: (inner.reverse ++ '[' :: p.written)⟩ rest (by omega) rfl rfl
          with hsettled | hconflict
        · exact .inl (hgroup hsettled)
        · exact .inr (by simpa using hconflict)
      · rw [hafter]
        exact .inr (hconflict.append_left _)
    | @rewritten d rest hd hrun hconflict =>
      rw [hrun]
      exact .inr (hconflict.append_left _)
    | @concatenated rest hc hrun =>
      subst hc
      have hwritten : p.written.reverse
          = (p.written.dropWhile isBlank).reverse ++ (p.written.takeWhile isBlank).reverse := by
        rw [← List.reverse_append, List.takeWhile_append_dropWhile]
      have hblanks : ∀ c ∈ (p.written.takeWhile isBlank).reverse, isBlank c = true := by
        intro c hc
        exact List.all_eq_true.mp List.all_takeWhile c (List.mem_reverse.mp hc)
      rw [hrun, hwritten, List.append_assoc]
      exact .inr ((conflict_concatenation hblanks _ _).append_left _)

end Reproduces

/-! ## The conversion -/

/-- Whether a character opens an array or an object. -/
def opensLiteral (c : Char) : Bool := c == '[' || c == '\x7b'

theorem opensLiteral_eq_false {q : Char → Bool} {c : Char} (hc : q c = true)
    (hq : q '[' = false ∧ q '\x7b' = false) : opensLiteral c = false := by
  simp only [opensLiteral, Bool.or_eq_false_iff, beq_eq_false_iff_ne]
  constructor <;> rintro rfl
  · simp [hq.1] at hc
  · simp [hq.2] at hc

/-- The script of a literal is in quotes. -/
theorem literal_cons (quote : Char) (inside : Text) :
    ∃ mark more, literal (quote :: inside) = mark :: more ∧ (mark = quote ∨ mark = '\x22') := by
  unfold literal
  split
  case h_2 => exact ⟨quote, inside, rfl, .inl rfl⟩
  case h_1 =>
    split
    · exact ⟨quote, inside, rfl, .inl rfl⟩
    · exact ⟨'\x22', _, rfl, .inr rfl⟩

/-- A script opens an array or an object just where its expression does, and starts with a blank
only if a dot concatenates there. -/
theorem head_run (b : Bindings) (convert : Text → Text) {c : Char} (cs : Text)
    (hc : isBlank c = false) :
    ∃ d rest, run b convert {} 0 (c :: cs) = d :: rest ∧ opensLiteral d = opensLiteral c ∧
      (isBlank d = false ∨ c = '.' ∧ ∃ more, d :: rest = ' ' :: '+' :: more) := by
  obtain ⟨read, rest, p', heq, hturn⟩ := exists_turn b convert {} c cs
  have hrun := hturn.run
  rw [← heq] at hrun
  -- What the turn writes first comes first.
  have hfirst : ∀ {d : Char} {more : Text}, p'.written = (d :: more).reverse ++ [] →
      isBlank d = false → opensLiteral d = opensLiteral c →
      ∃ d rest, run b convert {} 0 (c :: cs) = d :: rest ∧ opensLiteral d = opensLiteral c ∧
        (isBlank d = false ∨ c = '.' ∧ ∃ more, d :: rest = ' ' :: '+' :: more) := by
    intro d more hwritten hd hopens
    have hsuffix : [d] <:+ p'.written.dropWhile isBlank := by
      rw [hwritten, List.append_nil, List.reverse_cons]
      simpa [hd] using Text.dropWhile_suffix_append isBlank more.reverse [d]
    obtain ⟨after, hafter⟩ := (List.reverse_prefix.mpr hsuffix).trans
      (written_prefix_run b convert { p' with last := read.getLast? } 0 rest)
    exact ⟨d, after, hrun.trans hafter.symm, hopens, .inl hd⟩
  have hname : ∀ {d : Char}, isNameChar d = true → opensLiteral d = false := fun hd =>
    opensLiteral_eq_false hd (by decide)
  cases hturn with
  | nameTail hends => cases hends
  | blank hblank =>
    obtain ⟨rfl, -⟩ := List.cons.inj heq
    simp [hblank] at hc
  | word | number | sign =>
    obtain ⟨rfl, -⟩ := List.cons.inj heq
    exact hfirst rfl hc rfl
  | escape | escapeEnd | arrow | optionalArrow | optional | static | append | spread | dot
  | bracket =>
    obtain ⟨rfl, -⟩ := List.cons.inj heq
    exact hfirst rfl rfl rfl
  | @quoted quote inside _ hquote =>
    obtain ⟨rfl, -⟩ := List.cons.inj heq
    obtain ⟨mark, more, hliteral, hmark⟩ := literal_cons c inside
    have hmark : isQuote mark = true := by
      rcases hmark with rfl | rfl
      · exact hquote
      · rfl
    refine hfirst (congrArg (List.reverse · ++ []) hliteral) ?_ ?_
    · rcases (by simpa [isQuote, or_assoc] using hmark) with rfl | rfl | rfl <;> rfl
    · rw [opensLiteral_eq_false hmark (by decide), opensLiteral_eq_false hquote (by decide)]
  | sigil _ hd =>
    obtain ⟨rfl, -⟩ := List.cons.inj heq
    have hchar := isNameChar_of_isNameStart hd
    exact hfirst rfl (isBlank_eq_false_of_isNameChar hchar) (hname hchar)
  | @parameters _ more =>
    obtain ⟨rfl, -⟩ := List.cons.inj heq
    obtain ⟨after, hafter⟩ := @run_of_token b convert _ '(' more ['('] (.sign '(') 0
      (List.cons_ne_nil _ _) rfl rfl
    exact ⟨'(', after, hrun.trans hafter, rfl, .inl rfl⟩
  | @routed d name _ _ hd =>
    obtain ⟨rfl, -⟩ := List.cons.inj heq
    obtain ⟨owner, howner⟩ := qualify_eq (c :: name)
    exact hfirst (congrArg (List.reverse · ++ []) howner) rfl
      (hname (isNameChar_of_isNameStart hd)).symm
  | concatenation =>
    obtain ⟨rfl, -⟩ := List.cons.inj heq
    obtain ⟨after, hafter⟩ := written_prefix_run b convert _ 0 rest
    exact ⟨' ', '+' :: after, hrun.trans hafter.symm, rfl, .inr ⟨rfl, after, rfl⟩⟩
  | @group inner =>
    obtain ⟨rfl, -⟩ := List.cons.inj heq
    obtain ⟨first, t, last, hscript, hopens, -⟩ := bracketed_ends convert .nothing inner
    rcases hopens with rfl | rfl <;>
      exact hfirst (congrArg (List.reverse · ++ []) hscript) rfl rfl

/-- Every depth of the conversion reproduces exactly the settled texts that are short enough. -/
theorem reproduces (b : Bindings) (depth : Nat) :
    Reproduces b (toScriptWithin b depth) depth := by
  induction depth with
  | zero => exact ⟨nofun, nofun, nofun, nofun⟩
  | succ depth ih =>
    have hrun : ∀ t, toScriptWithin b (depth + 1) t
        = run b (toScriptWithin b depth) {} 0 (Text.trim t) := fun _ => rfl
    refine ⟨?_, ?_, ?_, ?_⟩
    · intro t _
      rw [hrun, hrun, trim_trim]
    · intro t hlength htrim hsettled
      rw [hrun, htrim, run_of_settled hsettled rfl rfl rfl]
      · rfl
      · intro u hu
        exact ih.settled (by omega)
    · intro t hlength htrim
      rw [hrun, htrim]
      exact @Reproduces.run _ _ _ ih {} t (by omega) rfl
    · intro c cs hlength htrim
      rw [hrun, htrim]
      obtain ⟨d, rest, hrun, -, hd | ⟨hdot, more, hmore⟩⟩ := head_run b (toScriptWithin b depth) cs
        (by simpa [htrim] using Text.head?_trim (c :: cs))
      · exact .inl ⟨d, rest, hd, hrun⟩
      · exact .inr ⟨hdot, more, hrun.trans hmore⟩

/-- **A text is its own script exactly if it is trimmed and settled.** -/
theorem toScript_eq_self_iff (b : Bindings) (t : Text) :
    toScript b t = t ↔ Text.trim t = t ∧ Settled b .nothing none t := by
  have hreproduces := reproduces b (t.length + 1)
  constructor
  · intro hself
    rcases @Reproduces.part _ _ _ hreproduces t (Nat.lt_succ_self _) ';' rfl [] [';']
      with hsettled | hconflict
    · exact hsettled
    · exact absurd (congrArg (· ++ [';']) hself) hconflict.ne
  · rintro ⟨htrim, hsettled⟩
    exact hreproduces.settled (Nat.lt_succ_self _) htrim hsettled

/-- **Converting again changes nothing exactly if the script is trimmed and settled.** -/
theorem toScript_toScript_iff (b : Bindings) (e : Text) :
    toScript b (toScript b e) = toScript b e ↔
      Text.trim (toScript b e) = toScript b e ∧ Settled b .nothing none (toScript b e) :=
  toScript_eq_self_iff b (toScript b e)

/-! ## Variables that are called -/

section Call

variable {b : Bindings} {c : Char} {name : Text}

/-- A call that would be routed is not settled. -/
theorem not_settled_of_isRouted (hc : isNameStart c = true)
    (hname : ∀ d ∈ name, isNameChar d = true) (hrouted : isRouted b (c :: name) .nothing = true)
    (rest : Text) : ¬Settled b .nothing none (c :: name ++ '(' :: rest) := by
  intro h
  generalize heq : c :: name ++ '(' :: rest = t at h
  cases h with
  | nil => cases heq
  | index =>
    obtain ⟨rfl, -⟩ := List.cons.inj heq
    cases hc
  | array =>
    obtain ⟨rfl, -⟩ := List.cons.inj heq
    cases hc
  | @token _ next _ token rest' hstays _ =>
    cases hstays with
    | @word d name' _ _ hd hname' hend hcall =>
      have hfull : ∀ e ∈ c :: name, isNameChar e = true :=
        List.forall_mem_cons.mpr ⟨isNameChar_of_isNameStart hc, hname⟩
      have hfull' : ∀ e ∈ d :: name', isNameChar e = true :=
        List.forall_mem_cons.mpr ⟨isNameChar_of_isNameStart hd, hname'⟩
      obtain ⟨htake, hdrop⟩ := @takeWhile_dropWhile_append _ _ ('(' :: rest) hfull rfl
      obtain ⟨htake', hdrop'⟩ := takeWhile_dropWhile_append hfull' hend
      rw [heq] at htake hdrop
      obtain rfl : '(' :: rest = rest' := hdrop.symm.trans hdrop'
      have hkept := (hcall rfl).2
      rw [← htake', htake, hrouted] at hkept
      cases hkept
    | nameTail hlast => cases hlast
    | quoted hquote =>
      obtain ⟨rfl, -⟩ := List.cons.inj heq
      have hplain := isPlainCode_of_isNameChar (isNameChar_of_isNameStart hc)
      simp [isQuote_eq_false_of_isPlainCode hplain] at hquote
    | number _ hdigit =>
      obtain ⟨rfl, -⟩ := List.cons.inj heq
      simp [isNameStart_eq_false_of_isDigit hdigit] at hc
    | blank hblank =>
      obtain ⟨rfl, -⟩ := List.cons.inj heq
      simp [isBlank_eq_false_of_isNameChar (isNameChar_of_isNameStart hc)] at hblank
    | sign hsign =>
      obtain ⟨rfl, -⟩ := List.cons.inj heq
      simp [isSign, hc] at hsign
    | _ =>
      obtain ⟨rfl, -⟩ := List.cons.inj heq
      cases hc

/-- The sigil of a variable that is called is left out, and the call is not routed. -/
theorem toScript_variable_call (hc : isNameStart c = true)
    (hname : ∀ d ∈ name, isNameChar d = true) (args : Text) :
    ∃ rest, toScript b ('$' :: c :: name ++ '(' :: args) = c :: name ++ '(' :: rest := by
  obtain ⟨args', htrim⟩ := @Text.trim_append_cons ('$' :: c :: name) '(' rfl rfl args
  rw [toScript, toScriptWithin, htrim]
  generalize toScriptWithin b _ = convert
  have hsigil := (@Turn.sigil b convert {} c name ('(' :: args') rfl hc hname rfl).run
  obtain ⟨rest, hrest⟩ := @run_of_token b convert _ '(' args' ['('] (.sign '(') 0
    (List.cons_ne_nil _ _) rfl rfl
  refine ⟨rest, hsigil.trans (hrest.trans ?_)⟩
  simp [Pass.token, Pass.write]

/-- A variable that is called does not keep its script: without the sigil it is a plain call. -/
theorem toScript_toScript_ne (hc : isNameStart c = true)
    (hname : ∀ d ∈ name, isNameChar d = true) (hrouted : isRouted b (c :: name) .nothing = true)
    (args : Text) :
    toScript b (toScript b ('$' :: c :: name ++ '(' :: args))
      ≠ toScript b ('$' :: c :: name ++ '(' :: args) := by
  obtain ⟨rest, hrest⟩ := @toScript_variable_call b c name hc hname args
  rw [hrest]
  intro hself
  exact not_settled_of_isRouted hc hname hrouted rest ((toScript_eq_self_iff b _).mp hself).2

example : toScript .empty "$count($x)" = "count(x)".toList ∧
    toScript .empty "count(x)" = "App.Helper.count(x)".toList := by
  decide +kernel

end Call
end BladeView.Expression
