import BladeView.Group
import BladeView.Proofs.Text.Basic

/-!
# What reading a group gives

A group that is read is the text up to its closing delimiter, and it is read in the same way
whatever follows it.
-/
namespace BladeView.Group

variable {inner rest t s : Text} {opening closing c : Char} {depth : Nat} {quote : Option Char}

theorem extend_eq_some {before : Text} {read : Option (Text × Text)} :
    extend before read = some (inner, rest) ↔
      ∃ more, read = some (more, rest) ∧ inner = before ++ more := by
  unfold extend
  rw [Option.map_eq_some_iff]
  constructor
  · rintro ⟨⟨more, after⟩, hread, heq⟩
    obtain ⟨rfl, rfl⟩ := Prod.mk.inj heq
    exact ⟨more, hread, rfl⟩
  · rintro ⟨more, hread, rfl⟩
    exact ⟨_, hread, rfl⟩

/-- The depth and the quote of the reader of groups after a character that no backslash hides. -/
def next (opening closing c : Char) : Nat × Option Char → Nat × Option Char
  | (depth, some quote) => (depth, if c = quote then none else some quote)
  | (depth, none) =>
    if isQuote c then (depth, some c)
    else if c = opening then (depth + 1, none)
    else if c = closing then (depth - 1, none)
    else (depth, none)

/-- A character that does not end the group is part of it. -/
theorem inside?_cons (hc : c ≠ '\\') (hends : quote = none → c = closing → 0 < depth) (t : Text) :
    inside? opening closing depth quote (c :: t) =
      extend [c] (inside? opening closing (next opening closing c (depth, quote)).1
        (next opening closing c (depth, quote)).2 t) := by
  rw [inside?.eq_def]
  cases quote with
  | some quote => simp [hc, next]
  | none =>
    simp only [beq_iff_eq, hc, if_false, next]
    split
    · rfl
    split
    · rfl
    split
    case isTrue hclosing =>
      obtain ⟨outer, rfl⟩ := Nat.exists_eq_add_of_lt (hends rfl hclosing)
      rfl
    case isFalse => rfl

/-- The text of a group is its inside, the delimiter that closes it, and the rest. -/
theorem inside?_eq_some (h : inside? opening closing depth quote t = some (inner, rest)) :
    t = inner ++ closing :: rest := by
  fun_induction inside? opening closing depth quote t generalizing inner with
  | case1 => cases h
  | case2 => cases h
  | case7 c cs _ _ _ hclosing =>
    obtain ⟨rfl, rfl⟩ := Prod.mk.inj (Option.some.inj h)
    simpa using hclosing
  | _ =>
    rename_i ih
    obtain ⟨more, hmore, rfl⟩ := extend_eq_some.mp h
    simp [ih hmore]

/-- The inside of a group does not depend on what follows the group. -/
theorem inside?_rest (h : inside? opening closing depth quote t = some (inner, rest))
    (rest' : Text) :
    inside? opening closing depth quote (inner ++ closing :: rest') = some (inner, rest') := by
  fun_induction inside? opening closing depth quote t generalizing inner with
  | case1 => cases h
  | case2 => cases h
  | case4 depth c cs hslash q ih =>
    obtain ⟨more, hmore, rfl⟩ := extend_eq_some.mp h
    rw [List.append_assoc, inside?.eq_def]
    simp only [List.singleton_append, hslash, Bool.false_eq_true, if_false, ih hmore]
    rfl
  | case7 c cs hslash hquote hopening hclosing =>
    obtain ⟨rfl, rfl⟩ := Prod.mk.inj (Option.some.inj h)
    obtain rfl : c = closing := by simpa using hclosing
    rw [List.nil_append, inside?.eq_def]
    simp [hslash, hquote, hopening]
  | _ =>
    rename_i ih
    obtain ⟨more, hmore, rfl⟩ := extend_eq_some.mp h
    rw [List.append_assoc, inside?.eq_def]
    simp [*, extend]

theorem read?_append_right (h : read? s = some (inner, rest)) (u : Text) :
    read? (s ++ u) = some (inner, rest ++ u) := by
  cases s with
  | nil => cases h
  | cons c s =>
    rw [List.cons_append, read?]
    rw [read?] at h
    split at h
    case h_1 closing hcloser =>
      have hsplit := inside?_eq_some h
      have hgroup := inside?_rest h (rest ++ u)
      rw [hsplit, List.append_assoc, List.cons_append]
      simp only [hgroup]
    case h_2 => cases h

/-! ## Argument lists -/

/-- An argument list stands after spaces and tabs. -/
theorem args?_eq_some {args : Text} (h : args? t = some (args, rest)) :
    ∃ blanks, (∀ c ∈ blanks, isSpaceOrTab c = true) ∧
      t = blanks ++ '(' :: (args ++ ')' :: rest) := by
  rw [args?] at h
  split at h
  case h_1 cs hdrop =>
    have hinside : cs = args ++ ')' :: rest := inside?_eq_some h
    refine ⟨t.takeWhile isSpaceOrTab, List.all_eq_true.1 List.all_takeWhile, ?_⟩
    rw [← hinside, ← hdrop, List.takeWhile_append_dropWhile]
  case h_2 => cases h

theorem args?_append_right (h : args? s = some (inner, rest)) (u : Text) :
    args? (s ++ u) = some (inner, rest ++ u) := by
  rw [args?] at h
  split at h
  case h_1 cs hparen =>
    rw [args?, List.dropWhile_append, hparen]
    exact read?_append_right h u
  case h_2 => cases h

theorem args?_eq_none (h : opensArgs t = false) : args? t = none := by
  unfold args?
  split
  case h_1 cs hdrop =>
    rw [opensArgs, hdrop] at h
    simp [Text.startsWith] at h
  case h_2 => rfl

theorem opensArgs_append_cons (hblank : isSpaceOrTab c = false) (hc : c ≠ '(') (t u : Text) :
    opensArgs (t ++ c :: u) = opensArgs t := by
  rw [opensArgs, opensArgs, Text.dropWhile_append_cons hblank]
  cases t.dropWhile isSpaceOrTab with
  | nil => simp [Text.startsWith, List.isPrefixOf, hc.symm]
  | cons d ds => rfl

/-- Blanks before an argument list. -/
theorem args?_blanks {blanks : Text} (hblanks : ∀ c ∈ blanks, isBlank c = true) (t : Text) :
    args? (blanks ++ '(' :: t) =
      if blanks.all isSpaceOrTab then read? ('(' :: t) else none := by
  induction blanks with
  | nil => rfl
  | cons c blanks ih =>
    obtain ⟨hc, hblanks⟩ := List.forall_mem_cons.1 hblanks
    cases hspace : isSpaceOrTab c with
    | true =>
      rw [List.all_cons, hspace, Bool.true_and, ← ih hblanks]
      simp [args?, hspace]
    | false =>
      have hne : c ≠ '(' := by
        rintro rfl
        cases hc
      have hdrop : (c :: blanks ++ '(' :: t).dropWhile isSpaceOrTab = c :: blanks ++ '(' :: t :=
        List.dropWhile_cons_of_neg (by simp [hspace])
      rw [List.all_cons, hspace, Bool.false_and, args?, hdrop]
      split
      · next heq => exact absurd (List.cons.inj heq).1 hne
      · rfl

/-- The group at the brace of an interpolation. -/
theorem at?_brace (before after : Text) :
    at? (before ++ '$' :: '\x7b' :: after) (Text.byteSize before + 1) =
      (read? ('\x7b' :: after)).map fun found =>
        ⟨Text.byteSize before + 1, Text.byteSize before + 2 + Text.byteSize found.1, found.1⟩ := by
  have hfrom : Text.fromByte? (Text.byteSize before + 1) (before ++ '$' :: '\x7b' :: after)
      = some ('\x7b' :: after) := by
    rw [Text.fromByte?_append]
    rfl
  rw [at?, hfrom, Option.bind_eq_bind, Option.bind_some]
  cases read? ('\x7b' :: after) <;> rfl

end BladeView.Group
