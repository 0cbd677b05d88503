import BladeView.Proofs.Expression.Flat
import BladeView.Proofs.Expression.Settled

/-!
# Closed code

The readers of groups, of lists and of keys all skip quoted runs and brackets. Code in which these
are closed is passed through as a whole by each of them, so a group around it, a list of it and a
key before it are read as one expects.
-/
namespace BladeView

open BladeView.Group (inside?)
open TopLevel (cut? cutWhere?)
open List (append_assoc append_nil cons_append forall_mem_cons map_cons nil_append)
open Level (sees)
open Text (consFirst join startsWith)

variable {quote separator : Char}

/-- Code in which every quoted run and every bracket is closed. Outside of them only the characters
that `ok` accepts stand; inside of brackets any others may. -/
inductive ClosedCode : (ok : Char → Bool) → Text → Prop
  | nil {ok : Char → Bool} : ClosedCode ok []
  | plain {ok : Char → Bool} {c : Char} {t : Text} : isPlainCode c = true → ok c = true →
      ClosedCode ok t → ClosedCode ok (c :: t)
  | quoted {ok : Char → Bool} {quote : Char} {inside t : Text} : isQuote quote = true →
      (∀ c ∈ inside, c ≠ quote ∧ c ≠ '\\') → ClosedCode ok t →
      ClosedCode ok (quote :: (inside ++ quote :: t))
  | group {ok : Char → Bool} {opening closing : Char} {inner t : Text} :
      Group.closer? opening = some closing → ClosedCode (fun _ => true) inner → ClosedCode ok t →
      ClosedCode ok (opening :: (inner ++ closing :: t))

namespace ClosedCode

variable {ok : Char → Bool} {t u : Text}

theorem append (ht : ClosedCode ok t) (hu : ClosedCode ok u) : ClosedCode ok (t ++ u) := by
  induction ht with
  | nil => exact hu
  | plain hc hok _ ih => exact .plain hc hok (ih hu)
  | quoted hquote hinside _ ih =>
    rw [cons_append, append_assoc, cons_append]
    exact .quoted hquote hinside (ih hu)
  | group hcloser hinner _ _ ih =>
    rw [cons_append, append_assoc, cons_append]
    exact .group hcloser hinner (ih hu)

/-- More characters may be accepted. -/
theorem mono {ok' : Char → Bool} (ht : ClosedCode ok t) (h : ∀ c, ok c = true → ok' c = true) :
    ClosedCode ok' t := by
  induction ht with
  | nil => exact .nil
  | plain hc hok _ ih => exact .plain hc (h _ hok) (ih h)
  | quoted hquote hinside _ ih => exact .quoted hquote hinside (ih h)
  | group hcloser hinner _ _ ih => exact .group hcloser hinner (ih h)

theorem of_plain (h : ∀ c ∈ t, isPlainCode c = true ∧ ok c = true) : ClosedCode ok t := by
  induction t with
  | nil => exact .nil
  | cons c t ih =>
    obtain ⟨hc, ht⟩ := forall_mem_cons.1 h
    exact .plain hc.1 hc.2 (ih ht)

/-- Flat code is closed. -/
theorem of_flat (h : IsFlat t) (hok : ∀ c ∈ t, ok c = true) : ClosedCode ok t := by
  revert hok
  refine IsFlat.induction (fun _ => .nil) (fun c t hplain ih hok => ?_)
    (fun quote inside t hquote hinside ih hok => ?_) h
  · exact .plain hplain (hok c (by simp)) (ih fun d hd => hok d (by simp [hd]))
  · refine .quoted hquote (fun d hd => ⟨(hinside d hd).1, ?_⟩) (ih fun d hd => hok d (by simp [hd]))
    rintro rfl
    exact absurd (hinside _ hd).2 (by simp [Flat.isQuoted, isNameChar])

theorem of_all (h : t.all (fun c => isPlainCode c && ok c) = true) : ClosedCode ok t :=
  of_plain fun c hc => by simpa using List.all_eq_true.1 h c hc

end ClosedCode

theorem ne_backslash_of_isQuote (h : isQuote quote = true) : quote ≠ '\\' := by
  rintro rfl
  cases h

namespace Group

theorem extend_nil (read : Option (Text × Text)) : extend [] read = read := by
  cases read <;> rfl

theorem extend_extend (before more : Text) (read : Option (Text × Text)) :
    extend before (extend more read) = extend (before ++ more) read := by
  cases read with
  | none => rfl
  | some group => simp [extend]

end Group

/-! ## Levels -/

/-- A plain character does not change the level. -/
theorem Level.next_of_isPlainCode {c : Char} (h : isPlainCode c = true) (n : Int) :
    Level.next ⟨none, n⟩ c = ⟨none, n⟩ := by
  have hquote := isQuote_eq_false_of_isPlainCode h
  simp only [isPlainCode, Bool.not_eq_true', Bool.or_eq_false_iff] at h
  simp [next, isOpening, isClosing, hquote, h]

namespace ClosedCode

variable {ok : Char → Bool} {t : Text}

section Absorb

variable {α : Type} {read : Level → Text → α} {put : Char → α → α} {stops : Char → Bool}
  (hread : ∀ level c rest, c ≠ '\\' → (level.sees c = true → stops c = false) →
    read level (c :: rest) = put c (read (level.next c) rest))

include hread

theorem read_quoted {inside : Text} (hquote : isQuote quote = true)
    (hinside : ∀ c ∈ inside, c ≠ quote ∧ c ≠ '\\') (n : Int) (rest : Text) :
    read ⟨some quote, n⟩ (inside ++ quote :: rest) =
      inside.foldr put (put quote (read ⟨none, n⟩ rest)) := by
  induction inside with
  | nil =>
    rw [nil_append, hread _ _ _ (ne_backslash_of_isQuote hquote) (by simp [sees, Level.isTop])]
    simp [Level.next]
  | cons c inside ih =>
    obtain ⟨⟨hne, hslash⟩, hinside⟩ := forall_mem_cons.1 hinside
    have hnext : Level.next ⟨some quote, n⟩ c = ⟨some quote, n⟩ := by simp [Level.next, hne]
    rw [cons_append, hread _ _ _ hslash (by simp [sees, Level.isTop]), hnext, ih hinside]
    rfl

/-- **A reader that follows the levels goes through closed code** character by character, if it
stops at nothing that the code has outside of quotes and brackets. -/
theorem read_append (ht : ClosedCode ok t) {n : Int} (hn : 0 ≤ n)
    (hstops : 0 < n ∨ ∀ c, ok c = true → stops c = false) (rest : Text) :
    read ⟨none, n⟩ (t ++ rest) = t.foldr put (read ⟨none, n⟩ rest) := by
  induction ht generalizing n rest with
  | nil => rfl
  | @plain ok c t hc hok _ ih =>
    have hslash : c ≠ '\\' := by
      rintro rfl
      cases hc
    have hsees : sees ⟨none, n⟩ c = true → stops c = false := by
      intro hsees
      rcases hstops with hpos | hstops
      · have hdepth : n ≠ 0 := by omega
        simp [sees, Level.isTop, hdepth] at hsees
      · exact hstops c hok
    rw [cons_append, hread _ _ _ hslash hsees, Level.next_of_isPlainCode hc, ih hn hstops]
    rfl
  | @quoted ok quote inside t hquote hinside _ ih =>
    have hslash := ne_backslash_of_isQuote hquote
    have hnext : Level.next ⟨none, n⟩ quote = ⟨some quote, n⟩ := by simp [Level.next, hquote]
    rw [cons_append, append_assoc, cons_append,
      hread _ _ _ hslash (by simp [sees, Level.isTop, hquote]), hnext, read_quoted hread hquote hinside,
      ih hn hstops]
    simp
  | @group ok opening closing inner t hcloser _ _ ihinner ih =>
    have hdelimiters := Group.closer?_eq_some.1 hcloser
    have hopening : opening ≠ '\\' ∧ (∀ n, Level.next ⟨none, n⟩ opening = ⟨none, n + 1⟩) ∧
        ∀ n, sees ⟨none, n⟩ opening = false := by
      rcases hdelimiters with ⟨rfl, -⟩ | ⟨rfl, -⟩ | ⟨rfl, -⟩
      all_goals exact ⟨by decide, fun _ => rfl, fun _ => by simp [sees, Level.isTop, Level.isOpening]⟩
    have hclosing : closing ≠ '\\' ∧ (∀ n, Level.next ⟨none, n⟩ closing = ⟨none, n - 1⟩) ∧
        ∀ n, sees ⟨none, n⟩ closing = false := by
      rcases hdelimiters with ⟨-, rfl⟩ | ⟨-, rfl⟩ | ⟨-, rfl⟩
      all_goals exact ⟨by decide, fun _ => rfl, fun _ => by simp [sees, Level.isTop, Level.isClosing]⟩
    obtain ⟨hslash, hup, hsees⟩ := hopening
    obtain ⟨hslash', hdown, hsees'⟩ := hclosing
    rw [cons_append, append_assoc, cons_append,
      hread _ _ _ hslash (by simp [hsees]), hup, ihinner (by omega) (.inl (by omega)),
      hread _ _ _ hslash' (by simp [hsees']), hdown, Int.add_sub_cancel, ih hn hstops]
    simp

end Absorb

/-! ## Groups -/

section SquareBrackets

variable {c : Char} {depth : Nat}

theorem inside?_openQuote (hquote : isQuote c = true) (rest : Text) :
    inside? '[' ']' depth none (c :: rest) =
      Group.extend [c] (inside? '[' ']' depth (some c) rest) := by
  rw [Group.inside?.eq_def]
  simp [hquote, ne_backslash_of_isQuote hquote]

theorem inside?_openBracket (rest : Text) :
    inside? '[' ']' depth none ('[' :: rest) =
      Group.extend ['['] (inside? '[' ']' (depth + 1) none rest) := by
  rw [Group.inside?.eq_def]
  simp [isQuote]

theorem inside?_closeBracket (rest : Text) :
    inside? '[' ']' (depth + 1) none (']' :: rest) =
      Group.extend [']'] (inside? '[' ']' depth none rest) := by
  rw [Group.inside?.eq_def]
  simp [isQuote]

theorem inside?_passes (hquote : isQuote c = false) (hc : c ≠ '\\' ∧ c ≠ '[' ∧ c ≠ ']')
    (rest : Text) :
    inside? '[' ']' depth none (c :: rest) =
      Group.extend [c] (inside? '[' ']' depth none rest) := by
  rw [Group.inside?.eq_def]
  simp [hquote, hc]

end SquareBrackets

theorem inside?_quoted {inside : Text} (hquote : isQuote quote = true)
    (hinside : ∀ c ∈ inside, c ≠ quote ∧ c ≠ '\\') (depth : Nat) (rest : Text) :
    inside? '[' ']' depth (some quote) (inside ++ quote :: rest) =
      Group.extend (inside ++ [quote]) (inside? '[' ']' depth none rest) := by
  induction inside with
  | nil =>
    rw [nil_append, Group.inside?.eq_def]
    simp [ne_backslash_of_isQuote hquote]
  | cons c inside ih =>
    obtain ⟨⟨hne, hslash⟩, hinside⟩ := forall_mem_cons.1 hinside
    rw [cons_append, Group.inside?.eq_def]
    simp [hslash, hne, ih hinside, Group.extend_extend]

/-- Within square brackets, closed code is read as a whole. -/
theorem inside?_append (ht : ClosedCode ok t) (depth : Nat) (rest : Text) :
    inside? '[' ']' depth none (t ++ rest) =
      Group.extend t (inside? '[' ']' depth none rest) := by
  induction ht generalizing depth rest with
  | nil => rw [nil_append, Group.extend_nil]
  | @plain ok c t hc hok _ ih =>
    have hne : ∀ d, isPlainCode d = false → c ≠ d := by
      rintro d hd rfl
      rw [hc] at hd
      cases hd
    rw [cons_append, inside?_passes (isQuote_eq_false_of_isPlainCode hc)
      ⟨hne _ rfl, hne _ rfl, hne _ rfl⟩, ih, Group.extend_extend]
    rfl
  | @quoted ok quote inside t hquote hinside _ ih =>
    rw [cons_append, append_assoc, cons_append, inside?_openQuote hquote,
      inside?_quoted hquote hinside, ih, Group.extend_extend, Group.extend_extend]
    simp
  | @group ok opening closing inner t hcloser _ _ ihinner ih =>
    rw [cons_append, append_assoc, cons_append]
    rcases Group.closer?_eq_some.1 hcloser with ⟨rfl, rfl⟩ | ⟨rfl, rfl⟩ | ⟨rfl, rfl⟩
    · rw [inside?_passes rfl (by decide), ihinner, inside?_passes rfl (by decide), ih]
      simp [Group.extend_extend]
    · rw [inside?_passes rfl (by decide), ihinner, inside?_passes rfl (by decide), ih]
      simp [Group.extend_extend]
    · -- A bracket of the same kind goes one deeper and comes back.
      rw [inside?_openBracket, ihinner, inside?_closeBracket, ih]
      simp [Group.extend_extend]

/-- A pair of square brackets around closed code is a group. -/
theorem read?_append (ht : ClosedCode ok t) (rest : Text) :
    Group.read? ('[' :: (t ++ ']' :: rest)) = some (t, rest) := by
  have hcloses : inside? '[' ']' 0 none (']' :: rest) = some ([], rest) := by
    rw [Group.inside?.eq_def]
    simp [isQuote]
  have hread : Group.read? ('[' :: (t ++ ']' :: rest)) =
      inside? '[' ']' 0 none (t ++ ']' :: rest) := rfl
  rw [hread, ht.inside?_append, hcloses]
  simp [Group.extend]

end ClosedCode

/-! ## Separators -/

namespace TopLevel

theorem pieces_cons {c : Char} {level : Level} (hslash : c ≠ '\\')
    (hc : (level.sees c && c == separator) = false) (t : Text) :
    pieces separator level (c :: t) = consFirst c (pieces separator (level.next c) t) := by
  rw [pieces.eq_def]
  simp [hslash, hc]

theorem foldr_consFirst (t : Text) (first : Text) (rest : List Text) :
    t.foldr consFirst (first :: rest) = (t ++ first) :: rest := by
  induction t with
  | nil => rfl
  | cons c t ih => rw [List.foldr_cons, ih, cons_append, consFirst]

/-- A text that is not cut: it goes with the first piece of what follows. -/
def IsWhole (separator : Char) (t : Text) : Prop :=
  ∀ rest, pieces separator Level.start (t ++ rest) =
    t.foldr Text.consFirst (pieces separator Level.start rest)

/-- Whole texts with separators between them, and maybe a gap after each separator. -/
theorem pieces_join {gap : Text}
    (hcut : ∀ t, pieces separator Level.start (separator :: t) = [] :: pieces separator Level.start t)
    (hgap : IsWhole separator gap) {p : Text} {ps : List Text}
    (hps : ∀ q ∈ p :: ps, IsWhole separator q) :
    pieces separator Level.start (join (separator :: gap) (p :: ps)) =
      p :: ps.map (gap ++ ·) := by
  induction ps generalizing p with
  | nil =>
    have hpieces := hps p List.mem_cons_self []
    rw [append_nil, pieces, foldr_consFirst, append_nil] at hpieces
    rw [Text.join_singleton, hpieces, List.map_nil]
  | cons q ps ih =>
    obtain ⟨hp, hrest⟩ := forall_mem_cons.1 hps
    rw [Text.join_cons_cons, append_assoc, hp, cons_append, hcut, hgap, ih hrest,
      foldr_consFirst, foldr_consFirst, append_nil, map_cons]

theorem pieces_comma (t : Text) :
    pieces ',' Level.start (',' :: t) = [] :: pieces ',' Level.start t := by
  rw [pieces.eq_def]
  rfl

end TopLevel

namespace ClosedCode

variable {ok : Char → Bool} {t : Text}

theorem isWhole (ht : ClosedCode (· != separator) t) : TopLevel.IsWhole separator t := by
  have hread : ∀ (level : Level) (c : Char) (rest : Text), c ≠ '\\' →
      (level.sees c = true → (c == separator) = false) →
      TopLevel.pieces separator level (c :: rest) =
        consFirst c (TopLevel.pieces separator (level.next c) rest) := by
    intro level c rest hslash hsees
    refine TopLevel.pieces_cons hslash ?_ rest
    cases hsee : level.sees c with
    | false => rfl
    | true => exact hsees hsee
  exact read_append hread ht (Int.le_refl 0) (.inr fun c hc => by simpa using hc)

/-- The parts of a list are closed, and no blanks stand around them. -/
structure IsPart (part : Text) : Prop where
  closed : ClosedCode (· != ',') part
  ne_nil : part ≠ []
  trim : Text.trim part = part

/-- A list is split into its parts. -/
theorem split_join {parts : List Text} (hparts : ∀ part ∈ parts, IsPart part) :
    TopLevel.split (join ", " parts) = parts := by
  cases parts with
  | nil => rfl
  | cons part parts =>
    have hspace : ClosedCode (· != ',') [' '] := .plain rfl rfl .nil
    have hpieces : TopLevel.pieces ',' Level.start (join ", " (part :: parts)) =
        part :: parts.map ([' '] ++ ·) :=
      TopLevel.pieces_join TopLevel.pieces_comma hspace.isWhole
        fun p hp => (hparts p hp).closed.isWhole
    have htrim : (parts.map ([' '] ++ ·)).map Text.trim = parts := by
      rw [List.map_map]
      exact (List.map_congr_left fun p hp => (hparts p (by simp [hp])).trim).trans (List.map_id parts)
    rw [TopLevel.split_eq, hpieces, map_cons, (hparts part List.mem_cons_self).trim, htrim]
    exact TopLevel.dropEmptyLast_eq_self fun p hp => (hparts p hp).ne_nil

/-! ## Keys -/

theorem cutWhere?_before (found : Text → Bool) (level : Level) (before before' : Option Char)
    (t : Text) :
    cutWhere? (fun _ => found) level before t =
      cutWhere? (fun _ => found) level before' t := by
  cases t with
  | nil => rfl
  | cons c t => rw [TopLevel.cutWhere?.eq_def, TopLevel.cutWhere?.eq_def]

theorem foldr_extend (t : Text) (read : Option (Text × Text)) :
    t.foldr (fun c read => Group.extend [c] read) read = Group.extend t read := by
  induction t with
  | nil => rw [List.foldr_nil, Group.extend_nil]
  | cons c t ih => rw [List.foldr_cons, ih, Group.extend_extend, List.singleton_append]

/-- ClosedCode code is no place to cut at a piece that begins with a character outside of it. -/
theorem cutWhere?_append {c : Char} (piece : Text) (ht : ClosedCode (· != c) t) (rest : Text) :
    cutWhere? (fun _ => startsWith (c :: piece)) Level.start none (t ++ rest) =
      Group.extend t
        (cutWhere? (fun _ => startsWith (c :: piece)) Level.start none rest) := by
  have hread : ∀ (level : Level) (d : Char) (rest : Text), d ≠ '\\' →
      (level.sees d = true → (d == c) = false) →
      cutWhere? (fun _ => startsWith (c :: piece)) level none (d :: rest) =
        Group.extend [d]
          (cutWhere? (fun _ => startsWith (c :: piece)) (level.next d) none rest) := by
    intro level d rest hslash hsees
    have hfound : (level.sees d && startsWith (c :: piece) (d :: rest)) = false := by
      cases hsee : level.sees d with
      | false => rfl
      | true =>
        have hne := hsees hsee
        rw [beq_eq_false_iff_ne] at hne
        exact Expression.startsWith_cons_eq_false hne
    rw [TopLevel.cutWhere?.eq_def]
    simp only [hslash, beq_iff_eq, hfound, if_false, Bool.false_eq_true]
    rw [cutWhere?_before _ _ (some d) none]
  rw [← foldr_extend]
  exact read_append hread ht (Int.le_refl 0) (.inr fun d hd => by simpa using hd) rest

theorem cut?_eq_none {c : Char} (piece : Text) (ht : ClosedCode (· != c) t) :
    cut? (c :: piece) t = none := by
  have hcut := cutWhere?_append piece ht []
  rw [append_nil] at hcut
  rw [cut?, hcut]
  rfl

/-- ClosedCode code before the first piece is cut off. -/
theorem cut?_append {c : Char} (piece : Text) (ht : ClosedCode (· != c) t)
    (hc : isPlainCode c = true) (rest : Text) :
    cut? (c :: piece) (t ++ c :: (piece ++ rest)) = some (t, rest) := by
  have hquote := isQuote_eq_false_of_isPlainCode hc
  simp only [isPlainCode, Bool.not_eq_true', Bool.or_eq_false_iff] at hc
  have hsees : sees Level.start c = true := by
    simp [sees, Level.isTop, Level.start, Level.isOpening, Level.isClosing, hquote, hc]
  have hstarts : startsWith (c :: piece) (c :: (piece ++ rest)) = true := by
    simp [startsWith]
  have hfound : cutWhere? (fun _ => startsWith (c :: piece)) Level.start none
      (c :: (piece ++ rest)) = some ([], c :: (piece ++ rest)) := by
    rw [TopLevel.cutWhere?.eq_def]
    simp [hc, hsees, hstarts]
  have hcut := cutWhere?_append piece ht (c :: (piece ++ rest))
  rw [hfound] at hcut
  rw [cut?, hcut]
  simp [Group.extend]

end ClosedCode
end BladeView
