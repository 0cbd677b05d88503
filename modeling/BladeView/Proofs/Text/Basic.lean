import BladeView.Text.Basic
import Mathlib.Data.List.Induction

/-!
# Facts about texts

What the operations on texts do, as far as the theory needs it: where the pieces of a text come
from, how lines are joined, what a pass that changes nothing leaves, and offsets in bytes.
-/
namespace BladeView.Text

open List (all_eq_true append_assoc cons_append mem_cons mem_cons_of_mem mem_cons_self recNeNil
  suffix_rfl)

variable {piece t : Text} {c separator : Char} {p : Char → Bool} {pieces : List Text}

/-! ## Ends -/

theorem after?_eq_some {rest : Text} : after? piece t = some rest ↔ t = piece ++ rest := by
  induction piece generalizing t with
  | nil => simp [after?, eq_comm]
  | cons p ps ih =>
    cases t with
    | nil => simp [after?]
    | cons c cs =>
      by_cases hc : p = c
      · simp [after?, hc, ih]
      · simp [after?, hc, Ne.symm hc]

/-- A piece without a character is read before it. -/
theorem after?_append (hc : c ∉ piece) (u w : Text) :
    after? piece (u ++ c :: w) = (after? piece u).map (· ++ c :: w) := by
  induction piece generalizing u with
  | nil => rfl
  | cons p ps ih =>
    rw [mem_cons, not_or] at hc
    cases u with
    | nil => simp [after?, Ne.symm hc.1]
    | cons d u =>
      simp only [cons_append, after?]
      split
      · exact ih hc.2 u
      · rfl

theorem takeWhile_append_cons (hc : p c = false) (u w : Text) :
    (u ++ c :: w).takeWhile p = u.takeWhile p := by
  induction u with
  | nil => simp [hc]
  | cons d u ih => cases hd : p d <;> simp [hd, ih]

theorem dropWhile_append_cons (hc : p c = false) (u w : Text) :
    (u ++ c :: w).dropWhile p = u.dropWhile p ++ c :: w := by
  induction u with
  | nil => simp [hc]
  | cons d u ih => cases hd : p d <;> simp [hd, ih]

theorem trimStart_suffix (t : Text) : trimStart t <:+ t := List.dropWhile_suffix _

/-- A text ends with the characters that are dropped from its end. -/
theorem dropEndWhile_append (p : Char → Bool) (t : Text) :
    ∃ dropped, t = dropEndWhile p t ++ dropped ∧ ∀ c ∈ dropped, p c = true := by
  refine ⟨(t.reverse.takeWhile p).reverse, ?_, ?_⟩
  · rw [dropEndWhile, ← List.reverse_append, List.takeWhile_append_dropWhile, List.reverse_reverse]
  · intro c hc
    exact all_eq_true.mp List.all_takeWhile c (List.mem_reverse.mp hc)

/-- Only blanks are trimmed. -/
theorem trim_spec (t : Text) :
    ∃ before after, t = before ++ trim t ++ after ∧ (∀ c ∈ before, isBlank c = true) ∧
      ∀ c ∈ after, isBlank c = true := by
  obtain ⟨after, hafter, hblank⟩ := dropEndWhile_append isBlank (trimStart t)
  refine ⟨t.takeWhile isBlank, after, ?_, ?_, hblank⟩
  · calc t = t.takeWhile isBlank ++ trimStart t := List.takeWhile_append_dropWhile.symm
      _ = t.takeWhile isBlank ++ (trim t ++ after) := congrArg _ hafter
      _ = t.takeWhile isBlank ++ trim t ++ after := (append_assoc ..).symm
  · exact all_eq_true.mp List.all_takeWhile

theorem mem_of_mem_trim (h : c ∈ trim t) : c ∈ t := by
  obtain ⟨before, after, heq, -, -⟩ := trim_spec t
  rw [heq]
  simp [h]

theorem dropWhile_eq_self (h : ∀ c ∈ t, p c = false) : t.dropWhile p = t := by
  cases t with
  | nil => rfl
  | cons c t => simp [h c (by simp)]

theorem dropWhile_eq_self_of_head? (h : t.head?.any p = false) : t.dropWhile p = t := by
  cases t with
  | nil => rfl
  | cons c t =>
    have hc : p c = false := by simpa using h
    simp [hc]

theorem head?_dropWhile (p : Char → Bool) (t : Text) : (t.dropWhile p).head?.any p = false := by
  induction t with
  | nil => rfl
  | cons c t ih => cases hc : p c <;> simp [hc, ih]

theorem dropEndWhile_eq_self (h : ∀ c ∈ t, p c = false) : dropEndWhile p t = t := by
  rw [dropEndWhile, dropWhile_eq_self fun c hc => h c (List.mem_reverse.mp hc),
    List.reverse_reverse]

theorem trim_eq_self (h : ∀ c ∈ t, isBlank c = false) : trim t = t := by
  rw [trim, trimStart, dropWhile_eq_self h, trimEnd, dropEndWhile_eq_self h]

theorem length_trim_le (t : Text) : (trim t).length ≤ t.length := by
  obtain ⟨before, after, heq, -, -⟩ := trim_spec t
  have hlength := congrArg List.length heq
  simp only [List.length_append] at hlength
  omega

/-- A trimmed text does not start with a blank. -/
theorem head?_trim (t : Text) : (trim t).head?.any isBlank = false := by
  obtain ⟨dropped, hdropped, -⟩ := dropEndWhile_append isBlank (trimStart t)
  have hstart := head?_dropWhile isBlank t
  change (trimStart t).head?.any isBlank = false at hstart
  rw [hdropped] at hstart
  change (dropEndWhile isBlank (trimStart t)).head?.any isBlank = false
  cases htrim : dropEndWhile isBlank (trimStart t) with
  | nil => rfl
  | cons c rest => simpa [htrim] using hstart

theorem trim_eq_self_of_ends (hfirst : t.head?.any isBlank = false)
    (hlast : t.getLast?.any isBlank = false) : trim t = t := by
  rw [← List.head?_reverse] at hlast
  rw [trim, trimStart, dropWhile_eq_self_of_head? hfirst, trimEnd, dropEndWhile,
    dropWhile_eq_self_of_head? hlast, List.reverse_reverse]

@[simp] theorem trim_trim (t : Text) : trim (trim t) = trim t := by
  refine trim_eq_self_of_ends (head?_trim t) ?_
  have hlast := head?_dropWhile isBlank (trimStart t).reverse
  rw [trim, trimEnd, dropEndWhile, List.getLast?_reverse]
  exact hlast

theorem dropWhile_suffix_append (q : Char → Bool) (w t : Text) :
    t.dropWhile q <:+ (w ++ t).dropWhile q := by
  induction w with
  | nil => exact suffix_rfl
  | cons c w ih =>
    rw [cons_append]
    cases hc : q c with
    | true => simpa [hc] using ih
    | false =>
      simp only [List.dropWhile_cons, hc]
      exact (List.dropWhile_suffix _).trans ((List.suffix_append _ _).trans (List.suffix_cons _ _))

theorem drop_length_takeWhile (p : Char → Bool) (t : Text) :
    t.drop (t.takeWhile p).length = t.dropWhile p := by
  induction t with
  | nil => rfl
  | cons c t ih => cases hc : p c <;> simp [hc, ih]

/-- Trimming keeps what stands between two characters that are no blanks. -/
theorem trim_append_cons (ht : t.head?.any isBlank = false) (hc : isBlank c = false) (rest : Text) :
    ∃ rest', trim (t ++ c :: rest) = t ++ c :: rest' := by
  have hstart : trimStart (t ++ c :: rest) = t ++ c :: rest := by
    refine dropWhile_eq_self_of_head? ?_
    cases t with
    | nil => exact hc
    | cons d t => exact ht
  have hsuffix : c :: t.reverse <:+ (t ++ c :: rest).reverse.dropWhile isBlank := by
    simpa [hc] using dropWhile_suffix_append isBlank rest.reverse (c :: t.reverse)
  obtain ⟨rest', hrest'⟩ := List.reverse_prefix.mpr hsuffix
  refine ⟨rest', ?_⟩
  rw [trim, hstart, trimEnd, dropEndWhile, ← hrest']
  simp

/-! ## Pieces -/

theorem mem_consFirst {d : Char} (h : piece ∈ consFirst c pieces) (hd : d ∈ piece) :
    d = c ∨ ∃ piece ∈ pieces, d ∈ piece := by
  cases pieces with
  | nil => simp_all [consFirst]
  | cons first rest =>
    simp only [consFirst, mem_cons] at h
    rcases h with rfl | h
    · rcases mem_cons.mp hd with rfl | hd
      · exact .inl rfl
      · exact .inr ⟨first, by simp, hd⟩
    · exact .inr ⟨piece, by simp [h], hd⟩

theorem mem_of_mem_splitOn (h : piece ∈ splitOn separator t) (hc : c ∈ piece) : c ∈ t := by
  induction t generalizing piece with
  | nil => simp_all [splitOn]
  | cons d t ih =>
    rw [splitOn] at h
    split at h
    · rcases mem_cons.mp h with rfl | h
      · simp at hc
      · exact mem_cons_of_mem _ (ih h hc)
    · rcases mem_consFirst h hc with rfl | ⟨piece', h', hc'⟩
      · exact mem_cons_self
      · exact mem_cons_of_mem _ (ih h' hc')

theorem mem_of_mem_lines {line : Text} (h : line ∈ lines t) (hc : c ∈ line) : c ∈ t := by
  fun_induction lines t generalizing line with
  | case1 => simp at h
  | case2 t ih =>
    rcases mem_cons.mp h with rfl | h
    · simp at hc
    · simp [ih h hc]
  | case3 t ih =>
    rcases mem_cons.mp h with rfl | h
    · simp at hc
    · simp [ih h hc]
  | case4 d t _ _ ih =>
    rcases mem_consFirst h hc with rfl | ⟨line', h', hc'⟩
    · exact mem_cons_self
    · exact mem_cons_of_mem _ (ih h' hc')

theorem splitOn_ne_nil (separator : Char) (t : Text) : splitOn separator t ≠ [] := by
  cases t with
  | nil => simp [splitOn]
  | cons c t =>
    rw [splitOn]
    split
    · simp
    · cases splitOn separator t <;> simp [consFirst]

theorem consFirst_ne_nil (c : Char) (pieces : List Text) : consFirst c pieces ≠ [] := by
  cases pieces <;> simp [consFirst]

theorem join_cons_head (separator : Text) (c : Char) (first : Text) (rest : List Text) :
    join separator ((c :: first) :: rest) = c :: join separator (first :: rest) := by
  cases rest with
  | nil => simp [join]
  | cons second rest => simp [join, List.intercalate_cons_cons]

theorem join_consFirst (separator : Text) (c : Char) (h : pieces ≠ []) :
    join separator (consFirst c pieces) = c :: join separator pieces := by
  cases pieces with
  | nil => exact absurd rfl h
  | cons first rest => exact join_cons_head ..

theorem join_singleton (separator t : Text) : join separator [t] = t :=
  List.intercalate_singleton

theorem join_cons_cons (separator first second : Text) (rest : List Text) :
    join separator (first :: second :: rest)
      = first ++ separator ++ join separator (second :: rest) :=
  List.intercalate_cons_cons

theorem join_char_cons (c : Char) (first second : Text) (rest : List Text) :
    join [c] (first :: second :: rest) = first ++ c :: join [c] (second :: rest) :=
  (join_cons_cons ..).trans (append_assoc ..)

theorem join_line_cons (line next : Text) (lines : List Text) :
    join "\n" (line :: next :: lines) = line ++ '\n' :: join "\n" (next :: lines) :=
  join_char_cons ..

theorem join_cons_of_ne_nil (separator first : Text) (h : pieces ≠ []) :
    join separator (first :: pieces) = first ++ separator ++ join separator pieces := by
  cases pieces with
  | nil => exact absurd rfl h
  | cons second rest => exact join_cons_cons ..

/-- What a test finds of all characters of a text holds of each. The quantifier itself is no goal to
decide: it can be read as one over every character there is. -/
theorem forall_mem_of_all {p : Char → Prop} [DecidablePred p]
    (h : (t.all fun c => decide (p c)) = true) : ∀ c ∈ t, p c :=
  fun c hc => of_decide_eq_true (all_eq_true.mp h c hc)

theorem join_append (separator : Text) {more : List Text} (h : pieces ≠ []) (hmore : more ≠ []) :
    join separator (pieces ++ more) =
      join separator pieces ++ separator ++ join separator more := by
  induction pieces, h using recNeNil with
  | singleton first => rw [List.singleton_append, join_cons_of_ne_nil _ _ hmore, join_singleton]
  | cons first rest h ih =>
    rw [cons_append, join_cons_of_ne_nil _ _ (by simp [h]), ih, join_cons_of_ne_nil _ _ h]
    simp only [append_assoc]

theorem isInfix_join_append (separator : Text) (before pieces after : List Text) :
    join separator pieces <:+: join separator (before ++ pieces ++ after) := by
  by_cases h : pieces = []
  · exact h ▸ List.nil_infix
  have hfront : join separator pieces <:+ join separator (before ++ pieces) := by
    by_cases hbefore : before = []
    · exact hbefore ▸ suffix_rfl
    · exact join_append separator hbefore h ▸ List.suffix_append _ _
  by_cases hafter : after = []
  · rw [hafter, List.append_nil]
    exact hfront.isInfix
  · rw [join_append separator (by simp [h]) hafter, append_assoc]
    exact hfront.isInfix.trans (List.prefix_append _ _).isInfix

theorem isInfix_join (separator : Text) (h : piece ∈ pieces) :
    piece <:+: join separator pieces := by
  obtain ⟨before, after, rfl⟩ := List.append_of_mem h
  simpa [join_singleton] using isInfix_join_append separator before [piece] after

theorem join_nil_cons (separator : Text) (h : pieces ≠ []) :
    join separator ([] :: pieces) = separator ++ join separator pieces :=
  join_cons_of_ne_nil separator [] h

section Join

variable {P : Text → Prop} {separator : Text}

/-- What holds of the pieces, and of two texts with the separator between them, holds of the
whole. -/
theorem join_rec (hnil : P []) (happend : ∀ t u, P t → P u → P (t ++ separator ++ u))
    (hpieces : ∀ piece ∈ pieces, P piece) : P (join separator pieces) := by
  induction pieces with
  | nil => exact hnil
  | cons first rest ih =>
    have hfirst := hpieces first (by simp)
    have hrest := ih fun piece hpiece => hpieces piece (by simp [hpiece])
    cases rest with
    | nil => rwa [join_singleton]
    | cons second rest =>
      rw [join_cons_cons]
      exact happend _ _ hfirst hrest

/-- What holds of the pieces and of the separator, and is kept by putting texts together, holds of
the whole. -/
theorem join_induction (hnil : P []) (happend : ∀ t u, P t → P u → P (t ++ u))
    (hseparator : P separator) (hpieces : ∀ piece ∈ pieces, P piece) : P (join separator pieces) :=
  join_rec hnil (fun _ _ ht hu => happend _ _ (happend _ _ ht hseparator) hu) hpieces

end Join

/-- Splitting is undone by joining. -/
theorem join_splitOn (separator : Char) (t : Text) :
    join [separator] (splitOn separator t) = t := by
  induction t with
  | nil => rfl
  | cons c t ih =>
    rw [splitOn]
    split
    case isTrue hc =>
      have hc : c = separator := by simpa using hc
      rw [join_nil_cons _ (splitOn_ne_nil _ _), ih, hc]
      rfl
    case isFalse => rw [join_consFirst _ _ (splitOn_ne_nil _ _), ih]

theorem splitOn_append (separator : Char) (s t : Text) :
    splitOn separator (s ++ separator :: t) =
      splitOn separator s ++ splitOn separator t := by
  induction s with
  | nil => simp [splitOn]
  | cons c s ih =>
    rw [cons_append, splitOn, splitOn, ih]
    split
    · rfl
    · obtain ⟨first, rest, hpieces⟩ := List.exists_cons_of_ne_nil (splitOn_ne_nil separator s)
      rw [hpieces]
      rfl

theorem splitOn_of_notMem (h : separator ∉ t) : splitOn separator t = [t] := by
  induction t with
  | nil => rfl
  | cons c t ih =>
    rw [mem_cons, not_or] at h
    have hne : (c == separator) = false := beq_eq_false_iff_ne.mpr fun heq => h.1 heq.symm
    rw [splitOn, hne, ih h.2]
    rfl

theorem splitOn_break (h : separator ∉ piece) (t : Text) :
    splitOn separator (piece ++ separator :: t) = piece :: splitOn separator t := by
  rw [splitOn_append, splitOn_of_notMem h, List.singleton_append]

theorem splitOn_append_of_notMem {front : Text} (h : separator ∉ front) (t : Text) :
    ∃ first rest, splitOn separator t = first :: rest ∧
      splitOn separator (front ++ t) = (front ++ first) :: rest := by
  induction front with
  | nil =>
    obtain ⟨first, rest, hpieces⟩ := List.exists_cons_of_ne_nil (splitOn_ne_nil separator t)
    exact ⟨first, rest, hpieces, hpieces⟩
  | cons c front ih =>
    rw [mem_cons, not_or] at h
    obtain ⟨first, rest, hpieces, hfront⟩ := ih h.2
    refine ⟨first, rest, hpieces, ?_⟩
    rw [cons_append, splitOn, if_neg fun hc => h.1 (eq_of_beq hc).symm, hfront]
    rfl

/-- Induction over the pieces before a separator. -/
theorem splitOn_induction {P : Text → Prop} (last : ∀ t, separator ∉ t → P t)
    (piece : ∀ piece t, separator ∉ piece → P t → P (piece ++ separator :: t)) (t : Text) :
    P t := by
  induction hlength : t.length using Nat.strongRecOn generalizing t with
  | _ n ih =>
    by_cases hmem : separator ∈ t
    · obtain ⟨front, rest, rfl, hfront⟩ := List.eq_append_cons_of_mem hmem
      refine piece front rest hfront (ih _ ?_ rest rfl)
      rw [← hlength]
      simp
      omega
    · exact last t hmem

theorem notMem_of_mem_splitOn (h : piece ∈ splitOn separator t) : separator ∉ piece := by
  induction t generalizing piece with
  | nil => simp_all [splitOn]
  | cons c t ih =>
    rw [splitOn] at h
    split at h
    · rcases mem_cons.mp h with rfl | h
      · simp
      · exact ih h
    case isFalse hc =>
      obtain ⟨first, rest, hpieces⟩ := List.exists_cons_of_ne_nil (splitOn_ne_nil separator t)
      rw [hpieces] at h ih
      rcases mem_cons.mp h with rfl | h
      · rw [mem_cons, not_or]
        exact ⟨fun heq => hc (by simp [heq]), ih mem_cons_self⟩
      · exact ih (mem_cons_of_mem _ h)

/-- The pieces of joined texts are the pieces of the texts. -/
theorem splitOn_join (separator : Char) {texts : List Text} (hne : texts ≠ []) :
    splitOn separator (join [separator] texts) = texts.flatMap (splitOn separator) := by
  induction texts, hne using recNeNil with
  | singleton first => rw [join_singleton, List.flatMap_singleton]
  | cons first rest h ih =>
    rw [join_cons_of_ne_nil _ _ h, append_assoc, List.singleton_append, splitOn_append, ih,
      ← List.flatMap_cons]

theorem splitOn_join_of_notMem (hne : pieces ≠ []) (h : ∀ piece ∈ pieces, separator ∉ piece) :
    splitOn separator (join [separator] pieces) = pieces := by
  rw [splitOn_join separator hne]
  have hsingle : pieces.map (splitOn separator) = pieces.map fun piece => [piece] :=
    List.map_congr_left fun piece hpiece => splitOn_of_notMem (h piece hpiece)
  rw [List.flatMap_def, hsingle, ← List.flatMap_def, List.flatMap_singleton']

theorem join_concat (separator last : Text) (h : pieces ≠ []) :
    join separator (pieces ++ [last]) = join separator pieces ++ separator ++ last := by
  rw [join_append _ h (List.cons_ne_nil _ _), join_singleton]

theorem endsWith_append_of_notMem (front : Text) (hne : t ≠ []) (h : c ∉ t) :
    endsWith [c] (front ++ t) = false := by
  refine Bool.eq_false_iff.mpr fun hend => h ?_
  obtain ⟨before, hbefore⟩ := List.isSuffixOf_iff_suffix.mp hend
  have hlast := congrArg List.getLast? hbefore
  rw [List.getLast?_concat, List.getLast?_append, List.getLast?_eq_some_getLast hne,
    Option.some_or, Option.some.injEq] at hlast
  exact hlast ▸ List.getLast_mem hne

/-- Joined pieces end with the last of them. -/
theorem exists_join_eq_append (separator : Text) (h : pieces ≠ []) :
    ∃ front, ∃ last ∈ pieces, join separator pieces = front ++ last := by
  induction pieces, h using recNeNil with
  | singleton first => exact ⟨[], first, mem_cons_self, join_singleton ..⟩
  | cons first rest h ih =>
    obtain ⟨front, last, hlast, heq⟩ := ih
    refine ⟨first ++ separator ++ front, last, mem_cons_of_mem _ hlast, ?_⟩
    rw [join_cons_of_ne_nil _ _ h, heq, append_assoc _ front]

/-- Texts that are cut at the first place of a character have the same parts. -/
theorem append_cons_inj {p q s u : Text} (hp : c ∉ p) (hq : c ∉ q) (h : p ++ c :: s = q ++ c :: u) :
    p = q ∧ s = u := by
  have hsplit := congrArg (splitOn c) h
  rw [splitOn_append, splitOn_append, splitOn_of_notMem hp, splitOn_of_notMem hq] at hsplit
  have hpq : p = q := (List.cons.inj hsplit).1
  rw [hpq] at h
  exact ⟨hpq, by simpa using h⟩

theorem length_le_length_join (separator : Text) (h : piece ∈ pieces) :
    piece.length ≤ (join separator pieces).length :=
  (isInfix_join separator h).length_le

/-- The last character of a text, or the one before it. -/
theorem getLast?_cons_or (c : Char) (t : Text) (before : Option Char) :
    (c :: t).getLast?.or before = t.getLast?.or (some c) := by
  rw [List.getLast?_cons]
  cases t.getLast? <;> rfl

/-! ## Lines -/

/-- Lines, each with its line break. -/
def closedLines (lines : List Text) : Text := lines.flatMap (· ++ ['\n'])

@[simp] theorem closedLines_nil : closedLines [] = [] := rfl

@[simp] theorem closedLines_cons (line : Text) (lines : List Text) :
    closedLines (line :: lines) = line ++ '\n' :: closedLines lines := by
  simp [closedLines]

@[simp] theorem closedLines_append (lines more : List Text) :
    closedLines (lines ++ more) = closedLines lines ++ closedLines more := by
  simp [closedLines]

theorem join_append_newline {lines : List Text} (h : lines ≠ []) :
    join "\n" lines ++ ['\n'] = closedLines lines := by
  induction lines, h using recNeNil with
  | singleton line => simp [join]
  | cons line lines h ih =>
    rw [join_cons_of_ne_nil _ _ h, append_assoc, ih, closedLines_cons]
    simp

/-- The first and the last of some lines. -/
theorem join_between {body : List Text} (h : body ≠ []) (first last : Text) :
    join "\n" (first :: (body ++ [last])) = first ++ ['\n'] ++ join "\n" body ++ '\n' :: last := by
  refine (List.append_left_inj ['\n']).mp ?_
  rw [join_append_newline (by simp), closedLines_cons, closedLines_append, ← join_append_newline h]
  simp

/-! ## Passes -/

section Sweep

variable {σ β : Type} {step : Option Char → σ → Text → List β × σ × Nat}

/-- Whatever a pass puts out, one of its steps does. -/
theorem exists_of_mem_sweep {x : β} {before : Option Char} {state : σ} {jump : Nat}
    (h : x ∈ sweep step before state jump t) : ∃ before state s, x ∈ (step before state s).1 := by
  fun_induction sweep step before state jump t with
  | case1 => cases h
  | case2 before state jump c t ih => exact ih h
  | case3 before state c t out state' jump hstep ih =>
    rcases List.mem_append.1 h with h | h
    · exact ⟨before, state, c :: t, by rwa [hstep]⟩
    · exact ih h

/-- A pass that sees nothing to change copies its text. -/
theorem sweep_eq_map {state : σ} {f : Char → β}
    (h : ∀ before c cs, c :: cs <:+ t → step before state (c :: cs) = ([f c], state, 0))
    (before : Option Char) : sweep step before state 0 t = t.map f := by
  induction t generalizing before with
  | nil => rfl
  | cons c t ih =>
    have hrest := ih fun before d ds hsuffix =>
      h before d ds (hsuffix.trans (List.suffix_cons c t))
    simp only [sweep, h before c t suffix_rfl, hrest]
    rfl

end Sweep

/-- Nothing is replaced where nothing can be read. -/
theorem substitute_eq_self {reader : Option Char → Text → Option (Text × Text)}
    (h : ∀ before c cs, c :: cs <:+ t → reader before (c :: cs) = none) :
    substitute reader t = t := by
  rw [substitute, sweep_eq_map (f := id), List.map_id]
  intro before c cs hsuffix
  rw [substituteStep, h before c cs hsuffix]
  rfl

/-! ## Bytes -/

@[simp] theorem byteSize_cons (c : Char) (t : Text) :
    byteSize (c :: t) = c.utf8Size + byteSize t := rfl

/-- The text from the first byte after a beginning on is what follows the beginning. -/
theorem fromByte?_append (t u : Text) (offset : Nat) :
    fromByte? (byteSize t + offset) (t ++ u) = fromByte? offset u := by
  induction t with
  | nil => simp [byteSize]
  | cons c t ih =>
    obtain ⟨size, hsize⟩ : ∃ size, c.utf8Size = size + 1 :=
      Nat.exists_eq_add_one.mpr c.utf8Size_pos
    have hsplit : byteSize (c :: t) + offset = (byteSize t + offset + size) + 1 := by
      rw [byteSize_cons]
      omega
    rw [cons_append, hsplit, fromByte?, if_pos (by omega), ← ih]
    congr 1
    omega

end BladeView.Text
