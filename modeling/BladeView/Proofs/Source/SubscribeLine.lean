import BladeView.Proofs.Source.Varies

/-!
# Lines that only subscribe

A line that holds nothing but a subscribe directive configures the view. The line on which a
verbatim region begins is none, and neither is the line on which it ends. So whether there is such a
line depends only on what stands outside of the regions, as long as the contents hold no such
directive and no argument list reaches into a region.
-/
namespace BladeView

open Text (after? after?_eq_some lines trim trimStart)
open List (append_assoc cons_append cons_ne_nil findSome?_cons mem_cons mem_cons_self tail_cons)

variable {line s rest p word : Text} {value : Subscription}

namespace Body

/-! ## What a line says -/

/-- What a line says that holds only a subscribe directive, with blanks around it: everything if the
directive stands alone, else what its argument list says, which ends the line. -/
inductive Says (line : Text) : Subscription → Prop
  | alone : trim line = "@subscribe" → Says line .all
  | args {rest args : Text} : trim line = "@subscribe" ++ rest →
      Group.args? rest = some (args, []) → Says line (.read args)

/-- A line that is only a subscribe directive. -/
def Subscribes (line : Text) : Prop := ∃ value, Says line value

/-- No blanks are left at the end of a line. -/
theorem isEmptyOrBlank_iff (h : s <:+ trim line) : Text.isEmptyOrBlank s = true ↔ s = [] := by
  refine ⟨fun hblank => ?_, fun hnil => hnil ▸ rfl⟩
  by_contra hne
  obtain ⟨front, hfront⟩ := h
  have hlast := Text.getLast?_trim line
  rw [← hfront, List.getLast?_append_of_ne_nil front hne,
    List.getLast?_eq_some_getLast hne] at hlast
  have hmem := List.all_eq_true.1 hblank _ (List.getLast_mem hne)
  exact absurd (hmem.symm.trans hlast) (by decide)

/-- No name goes on where an argument list begins. -/
theorem head?_of_args? {args after : Text} (h : Group.args? rest = some (args, after)) :
    rest.head?.any isNameChar = false := by
  obtain ⟨blanks, hblanks, rfl⟩ := Group.args?_eq_some h
  cases blanks with
  | nil => rfl
  | cons c blanks =>
    have hc : c = ' ' ∨ c = '\t' := by simpa [isSpaceOrTab] using hblanks c mem_cons_self
    rcases hc with rfl | rfl <;> rfl

/-- What both tests decide, for a line that begins with the directive. -/
theorem says_iff (h : trim line = "@subscribe" ++ rest) :
    Says line value ↔ rest = [] ∧ value = .all ∨
      ∃ args, Group.args? rest = some (args, []) ∧ value = .read args := by
  constructor
  · rintro (heq | ⟨heq, hargs⟩)
    · exact .inl ⟨List.append_cancel_left (h.symm.trans heq), rfl⟩
    · obtain rfl := List.append_cancel_left (h.symm.trans heq)
      exact .inr ⟨_, hargs, rfl⟩
  · rintro (⟨rfl, rfl⟩ | ⟨args, hargs, rfl⟩)
    · exact .alone h
    · exact .args h hargs

/-- A line that says something begins with the directive. -/
theorem Says.exists_after (h : Says line value) :
    ∃ rest, after? "@subscribe" (trim line) = some rest := by
  cases h with
  | alone heq => exact ⟨[], after?_eq_some.2 heq⟩
  | args heq => exact ⟨_, after?_eq_some.2 heq⟩

/-- What the header takes from a line. -/
theorem standaloneSubscribe?_says :
    (standaloneSubscribe? line).map (fun args => (args.map Subscription.read).getD .all) =
      some value ↔ Says line value := by
  cases hafter : after? "@subscribe" (trim line) with
  | none =>
    refine iff_of_false (fun h => ?_) fun h => ?_
    · rw [standaloneSubscribe?, hafter] at h
      cases h
    · obtain ⟨rest, hrest⟩ := h.exists_after
      cases hafter.symm.trans hrest
  | some rest =>
    have hline := after?_eq_some.1 hafter
    have hrest : rest <:+ trim line := ⟨_, hline.symm⟩
    rw [says_iff hline, standaloneSubscribe?, hafter]
    simp only [Option.bind_eq_bind, Option.bind_some, isEmptyOrBlank_iff hrest]
    cases hargs : Group.args? rest with
    | none =>
      by_cases hnil : rest = []
      · subst hnil
        simp [eq_comm]
      · simp [hnil]
    | some found =>
      obtain ⟨args, after⟩ := found
      obtain ⟨blanks, -, hsplit⟩ := Group.args?_eq_some hargs
      have hne : rest ≠ [] := by simp [hsplit]
      have hsuffix : after <:+ rest := ⟨blanks ++ '(' :: (args ++ [')']), by simp [hsplit]⟩
      simp only [head?_of_args? hargs, hne, Option.bind_some,
        isEmptyOrBlank_iff (hsuffix.trans hrest), Bool.false_eq_true, if_false, false_and, false_or]
      by_cases hnil : after = []
      · simp [hnil, eq_comm]
      · simp [hnil]

theorem isSome_standaloneSubscribe? :
    (standaloneSubscribe? line).isSome = true ↔ Subscribes line := by
  simp only [Subscribes, ← standaloneSubscribe?_says, ← Option.isSome_iff_exists, Option.isSome_map]

theorem standaloneSubscribe?_eq_none_iff :
    standaloneSubscribe? line = none ↔ ¬ Subscribes line := by
  rw [← isSome_standaloneSubscribe?, Option.not_isSome_iff_eq_none]

/-! ## Lines -/

/-- What the first line says that only configures the subscription. -/
def subscribeLine? (t : Text) : Option (Option Text) :=
  (lines t).findSome? standaloneSubscribe?

theorem lines_break (hline : '\n' ∉ line) (t : Text) :
    ∃ line', (line = line' ∨ line = line' ++ ['\r']) ∧
      lines (line ++ '\n' :: t) = line' :: lines t := by
  induction line with
  | nil => exact ⟨[], .inl rfl, by rw [List.nil_append, lines]⟩
  | cons c line ih =>
    rw [mem_cons, not_or] at hline
    obtain ⟨line', hline', hlines⟩ := ih hline.2
    by_cases hreturn : c = '\r' ∧ line = []
    · obtain ⟨rfl, rfl⟩ := hreturn
      exact ⟨[], .inr rfl, by rw [List.singleton_append, lines]⟩
    · refine ⟨c :: line', ?_, ?_⟩
      · obtain rfl | rfl := hline'
        · exact .inl rfl
        · exact .inr rfl
      · rw [cons_append, lines, hlines, Text.consFirst]
        · exact fun heq => hline.1 heq.symm
        · intro cs hc hcs
          refine hreturn ⟨hc, ?_⟩
          cases line with
          | nil => rfl
          | cons d line =>
            rw [cons_append] at hcs
            exact absurd (List.head_eq_of_cons_eq hcs).symm
              (fun heq => hline.2 (heq ▸ mem_cons_self))

theorem lines_of_notMem (hline : '\n' ∉ line) (hne : line ≠ []) : lines line = [line] := by
  induction line with
  | nil => exact absurd rfl hne
  | cons c line ih =>
    rw [mem_cons, not_or] at hline
    rw [lines]
    · cases line with
      | nil => rfl
      | cons d line => rw [ih hline.2 (cons_ne_nil d line), Text.consFirst]
    · exact fun heq => hline.1 heq.symm
    · intro cs _ hcs
      exact hline.2 (hcs ▸ mem_cons_self)

theorem standaloneSubscribe?_return (line : Text) :
    standaloneSubscribe? (line ++ ['\r']) = standaloneSubscribe? line := by
  have htrim : trim (line ++ ['\r']) = trim line :=
    Text.trim_append_blanks (Text.forall_mem_of_all (by decide))
  rw [standaloneSubscribe?, standaloneSubscribe?, htrim]

theorem subscribeLine?_break (hline : '\n' ∉ line) (t : Text) :
    subscribeLine? (line ++ '\n' :: t) = (standaloneSubscribe? line).or (subscribeLine? t) := by
  obtain ⟨line', hline', hlines⟩ := lines_break hline t
  have hread : standaloneSubscribe? line' = standaloneSubscribe? line := by
    obtain rfl | rfl := hline'
    · rfl
    · exact (standaloneSubscribe?_return line').symm
  rw [subscribeLine?, hlines, findSome?_cons, hread]
  cases standaloneSubscribe? line <;> rfl

theorem subscribeLine?_of_notMem (hline : '\n' ∉ line) :
    subscribeLine? line = standaloneSubscribe? line := by
  cases line with
  | nil => rfl
  | cons c line =>
    rw [subscribeLine?, lines_of_notMem hline (cons_ne_nil c line), findSome?_cons]
    cases standaloneSubscribe? (c :: line) <;> rfl

theorem subscribeLine?_eq (t : Text) :
    subscribeLine? t = (Text.splitOn '\n' t).findSome? standaloneSubscribe? := by
  induction t using @Text.splitOn_induction '\n' with
  | last line hline =>
    rw [subscribeLine?_of_notMem hline, Text.splitOn_of_notMem hline, findSome?_cons]
    cases standaloneSubscribe? line <;> rfl
  | piece line t hline ih =>
    rw [subscribeLine?_break hline, Text.splitOn_break hline, findSome?_cons, ih]
    cases standaloneSubscribe? line <;> rfl

/-- The same for a text whose first line does not count. -/
def laterLine? (t : Text) : Option (Option Text) :=
  (Text.splitOn '\n' t).tail.findSome? standaloneSubscribe?

theorem laterLine?_append (hline : '\n' ∉ line) (t : Text) :
    laterLine? (line ++ t) = laterLine? t := by
  obtain ⟨first, rest, hpieces, hfront⟩ := Text.splitOn_append_of_notMem hline t
  rw [laterLine?, laterLine?, hpieces, hfront, tail_cons, tail_cons]

theorem laterLine?_break (hline : '\n' ∉ line) (t : Text) :
    laterLine? (line ++ '\n' :: t) = subscribeLine? t := by
  rw [laterLine?, Text.splitOn_break hline, subscribeLine?_eq, tail_cons]

/-! ## Lines on which a region begins or ends -/

/-- The argument lists of the subscribe directives in a piece are closed in it. -/
def ClosesSubscribe (p : Text) : Prop :=
  ∀ s, s <:+ p → ∀ rest, after? "@subscribe" s = some rest → Group.opensArgs rest = true →
    (Group.args? rest).isSome = true

instance (p : Text) : Decidable (ClosesSubscribe p) :=
  inferInstanceAs (Decidable (∀ s, s <:+ p → ∀ rest ∈ after? "@subscribe" s, _))

theorem ClosesSubscribe.suffix {q : Text} (h : ClosesSubscribe p) (hq : q <:+ p) :
    ClosesSubscribe q := fun s hs => h s (hs.trans hq)

theorem closesSubscribe_of_not_isInfix (h : ¬ "@subscribe".toList <:+: p) :
    ClosesSubscribe p := fun _ hs rest hread =>
  absurd (List.IsPrefix.isInfix ⟨rest, (after?_eq_some.1 hread).symm⟩ |>.trans hs.isInfix) h

/-- A line with another directive in it does not only configure the subscription. -/
theorem not_subscribes_word {c : Char} (hline : ClosesSubscribe line) (hc : c ≠ 's')
    (hword : (c :: word).getLast?.any isBlank = false) (more : Text) :
    ¬ Subscribes (line ++ '@' :: (c :: word ++ more)) := by
  have htrim : trim (line ++ '@' :: (c :: word ++ more)) =
      trimStart line ++ '@' :: (c :: word ++ Text.trimEnd more) := by
    have hsplit : trimStart line ++ '@' :: (c :: word ++ more) =
        (trimStart line ++ '@' :: c :: word) ++ more := by simp
    rw [trim, Text.trimStart_append_sign, hsplit, Text.trimEnd_append]
    · simp
    · rw [List.getLast?_append_of_ne_nil _ (cons_ne_nil _ _), List.getLast?_cons_cons]
      exact hword
  rintro ⟨value, hsays⟩
  obtain ⟨rest, hrest⟩ := hsays.exists_after
  have hcases := (says_iff (after?_eq_some.1 hrest)).1 hsays
  rw [htrim] at hrest
  have hstart : trimStart line ≠ [] := by
    intro hnil
    rw [hnil] at hrest
    exact hc (List.cons.inj (List.cons.inj (after?_eq_some.1 hrest)).2).1
  have hsign : Text.EndsAtSign (after? "@subscribe") := Text.endsAtSign_after? '@' (by decide)
  rw [hsign _ hstart] at hrest
  obtain ⟨rest', hread, rfl⟩ := Option.map_eq_some_iff.1 hrest
  rcases hcases with ⟨hnil, -⟩ | ⟨args, hargs, -⟩
  · simp at hnil
  · have hopens : Group.opensArgs rest' = true := by
      rw [← Bool.not_eq_false]
      intro hopens
      rw [Group.args?_eq_none ((Group.opensArgs_append_cons rfl (by decide) _ _).trans hopens)]
        at hargs
      cases hargs
    have hclosed := hline _ (Text.trimStart_suffix line) rest' hread hopens
    obtain ⟨⟨inner, after⟩, hinner⟩ := Option.isSome_iff_exists.1 hclosed
    rw [Group.args?_append_right hinner] at hargs
    simp at hargs

/-- A line without the directive. -/
theorem not_subscribes_of_infix (h : ¬ "@subscribe".toList <:+: line) : ¬ Subscribes line := by
  rintro ⟨value, hsays⟩
  obtain ⟨rest, hrest⟩ := hsays.exists_after
  obtain ⟨before, after, hline, -, -⟩ := Text.trim_spec line
  exact h (hline ▸ ⟨before, rest ++ after, by rw [after?_eq_some.1 hrest]; simp⟩)

/-! ## Texts with regions -/

/-- A line that goes on with a word that opens or closes a region. -/
theorem subscribeLine?_word (hline : ClosesSubscribe line) (hbreak : '\n' ∉ line) {c : Char}
    (hc : c ≠ 's') (hword : (c :: word).getLast?.any isBlank = false)
    (hbreak' : '\n' ∉ '@' :: c :: word) (t : Text) :
    subscribeLine? (line ++ ('@' :: c :: word ++ t)) = laterLine? t := by
  have hfront : '\n' ∉ line ++ '@' :: c :: word := fun hmem =>
    (List.mem_append.1 hmem).elim hbreak hbreak'
  obtain ⟨first, rest, hpieces, hlines⟩ := Text.splitOn_append_of_notMem hfront t
  have hfirst := standaloneSubscribe?_eq_none_iff.2 (not_subscribes_word hline hc hword first)
  have hline : line ++ '@' :: c :: word ++ first = line ++ '@' :: (c :: word ++ first) := by simp
  rw [← append_assoc, subscribeLine?_eq, hlines, hline, findSome?_cons, hfirst,
    laterLine?, hpieces, tail_cons]

/-- No line of a content counts, and the line on which the region ends does not either. -/
theorem subscribeLine?_content {c : Text} (hc : ¬ "@subscribe".toList <:+: c) (s : Text) :
    subscribeLine? (c ++ ("@endverbatim" ++ s)) = laterLine? s := by
  induction c using @Text.splitOn_induction '\n' with
  | last line hline =>
    exact subscribeLine?_word (closesSubscribe_of_not_isInfix hc) hline (by decide) (by decide)
      (by decide) s
  | piece line rest hline ih =>
    have hread := not_subscribes_of_infix fun h => hc (h.trans (List.prefix_append line _).isInfix)
    rw [append_assoc, cons_append, subscribeLine?_break hline,
      standaloneSubscribe?_eq_none_iff.2 hread, Option.none_or,
      ih fun h => hc (h.trans ⟨line ++ ['\n'], [], by simp⟩)]

theorem laterLine?_region {c : Text} (hc : ¬ "@subscribe".toList <:+: c) (s : Text) :
    laterLine? (Region.ofContent c ++ s) = laterLine? s := by
  rw [Region.ofContent_append, laterLine?_append (by decide)]
  by_cases hbreak : '\n' ∈ c
  · obtain ⟨line, rest, rfl, hline⟩ := List.eq_append_cons_of_mem hbreak
    rw [append_assoc, cons_append, laterLine?_break hline,
      subscribeLine?_content fun h => hc (h.trans ⟨line ++ ['\n'], [], by simp⟩)]
  · rw [laterLine?_append hbreak, laterLine?_append (by decide)]

/-- What the lines of a piece say comes before what the lines after the region say. -/
theorem subscribeLine?_region (hp : ClosesSubscribe p) :
    ∃ said : Option (Option Text), ∀ c, ¬ "@subscribe".toList <:+: c → ∀ s,
      subscribeLine? (p ++ (Region.ofContent c ++ s)) = said.or (laterLine? s) := by
  induction p using @Text.splitOn_induction '\n' with
  | last line hline =>
    refine ⟨none, fun c hc s => ?_⟩
    have hregion := laterLine?_region hc s
    rw [Region.ofContent_append, laterLine?_append (by decide)] at hregion
    rw [Option.none_or, Region.ofContent_append, ← hregion]
    exact subscribeLine?_word hp hline (by decide) (by decide) (by decide) _
  | piece line rest hline ih =>
    obtain ⟨said, hsaid⟩ := ih (hp.suffix ⟨line ++ ['\n'], by simp⟩)
    refine ⟨(standaloneSubscribe? line).or said, fun c hc s => ?_⟩
    rw [append_assoc, cons_append, subscribeLine?_break hline, hsaid c hc, Option.or_assoc]

theorem laterLine?_piece (hp : ClosesSubscribe p) :
    ∃ said : Option (Option Text), ∀ c, ¬ "@subscribe".toList <:+: c → ∀ s,
      laterLine? (p ++ (Region.ofContent c ++ s)) = said.or (laterLine? s) := by
  by_cases hbreak : '\n' ∈ p
  · obtain ⟨line, rest, rfl, hline⟩ := List.eq_append_cons_of_mem hbreak
    obtain ⟨said, hsaid⟩ := subscribeLine?_region (p := rest) (hp.suffix ⟨line ++ ['\n'], by simp⟩)
    refine ⟨said, fun c hc s => ?_⟩
    rw [append_assoc, cons_append, laterLine?_break hline, hsaid c hc]
  · exact ⟨none, fun c hc s => by
      rw [laterLine?_append hbreak, laterLine?_region hc, Option.none_or]⟩

end Body

/-- **What the lines say does not depend on the contents of regions.** -/
theorem Verbatim.Varies.subscribeLine?_eq {piece content : Text → Prop} {t : Text}
    (hpiece : ∀ p, piece p → Body.ClosesSubscribe p)
    (hcontent : ∀ c, content c → ¬ "@subscribe".toList <:+: c) (h : Varies piece content s t) :
    Body.subscribeLine? s = Body.subscribeLine? t := by
  -- A text after a region continues a line that does not count, so both readings are carried along.
  suffices hboth : Body.subscribeLine? s = Body.subscribeLine? t ∧
      Body.laterLine? s = Body.laterLine? t from hboth.1
  induction h with
  | last p => exact ⟨rfl, rfl⟩
  | region hp hc hd _ ih =>
    obtain ⟨said, hsaid⟩ := Body.subscribeLine?_region (hpiece _ hp)
    obtain ⟨later, hlater⟩ := Body.laterLine?_piece (hpiece _ hp)
    rw [hsaid _ (hcontent _ hc), hsaid _ (hcontent _ hd), hlater _ (hcontent _ hc),
      hlater _ (hcontent _ hd), ih.2]
    exact ⟨rfl, rfl⟩

end BladeView
