import BladeView.Header
import BladeView.Proofs.Source.SubscribeLine

/-!
# Lines that subscribe, in the header and in the body

The header of a view says what the first line says that is only a subscribe directive, and the body
is left without all such lines. Each of the two has its own test for them, on lines that are cut and
trimmed in its own way; both find the same lines.

## Main statements

* `Body.subscribe_lines_agree`: the subscription of a text and the lines that are removed from it.
-/
namespace BladeView.Body

open Text (isEmptyOrBlank join splitOn trim trimEnd trimStart)

/-! ## The two tests -/

/-- The blanks at the two ends may be taken away one after the other. -/
theorem trimStart_trimEnd (t : Text) : trimStart (trimEnd t) = trim t := by
  obtain ⟨after, ht, hafter⟩ := Text.dropEndWhile_append isBlank t
  obtain ⟨before, hbefore⟩ := Text.trimStart_suffix (trimEnd t)
  have hlast : (trimStart (trimEnd t)).getLast?.any isBlank = false := by
    by_cases hne : trimStart (trimEnd t) = []
    · rw [hne]
      rfl
    · rw [← List.getLast?_append_of_ne_nil before hne, hbefore, trimEnd, Text.dropEndWhile,
        List.getLast?_reverse]
      exact Text.head?_dropWhile isBlank t.reverse
  have hend := Text.trimEnd_append hlast []
  rw [List.append_nil] at hend
  calc trimStart (trimEnd t)
      = trim (trimEnd t) := (hend.trans (List.append_nil _)).symm
    _ = trim (trimEnd t ++ after) := (Text.trim_append_blanks hafter).symm
    _ = trim t := congrArg trim ht.symm

theorem onlySubscribes_eq (line : Text) :
    onlySubscribes line = (standaloneSubscribe? line).isSome := by
  rw [onlySubscribes, trimStart_trimEnd, standaloneSubscribe?]
  cases Text.after? "@subscribe" (trim line) with
  | none => rfl
  | some rest =>
    simp only [Option.bind_eq_bind, Option.bind_some]
    cases rest.head?.any isNameChar with
    | true => rfl
    | false =>
      cases hargs : Group.args? rest with
      | none => cases isEmptyOrBlank rest <;> rfl
      | some found =>
        obtain ⟨blanks, -, hsplit⟩ := Group.args?_eq_some hargs
        have hblank : isEmptyOrBlank rest = false := by
          rw [← Bool.not_eq_true, isEmptyOrBlank, List.all_eq_true, hsplit]
          exact fun hall => absurd (hall '(' (by simp)) (by decide)
        simp only [hblank, Bool.not_false, Bool.true_and, Bool.false_eq_true, if_false,
          Option.bind_some]
        cases isEmptyOrBlank found.2 <;> rfl

/-- What the body is left without. -/
theorem onlySubscribes_iff {line : Text} : onlySubscribes line = true ↔ Subscribes line := by
  rw [onlySubscribes_eq, isSome_standaloneSubscribe?]

instance (line : Text) : Decidable (Subscribes line) := decidable_of_iff _ onlySubscribes_iff

/-! ## Lines of a text -/

theorem removeStandaloneSubscribe_eq (t : Text) : removeStandaloneSubscribe t =
    join "\n" ((splitOn '\n' t).filter fun line => ¬ Subscribes line) := by
  rw [removeStandaloneSubscribe]
  congr 2
  funext line
  rw [Bool.eq_iff_iff, Bool.not_eq_true', ← Bool.not_eq_true, onlySubscribes_iff,
    decide_eq_true_iff]

theorem removeStandaloneSubscribe_of_forall {t : Text}
    (h : ∀ line ∈ splitOn '\n' t, ¬ Subscribes line) : removeStandaloneSubscribe t = t := by
  rw [removeStandaloneSubscribe_eq,
    List.filter_eq_self.2 fun line hline => decide_eq_true (h line hline)]
  exact Text.join_splitOn '\n' t

theorem forall_mem_removeStandaloneSubscribe (t : Text) :
    ∀ line ∈ splitOn '\n' (removeStandaloneSubscribe t), ¬ Subscribes line := by
  intro line hline
  rw [removeStandaloneSubscribe_eq] at hline
  by_cases hne : (splitOn '\n' t).filter (fun line => ¬ Subscribes line) = []
  · rw [hne] at hline
    obtain rfl := List.mem_singleton.1 hline
    decide
  · have hmem : line ∈ splitOn '\n' (join ['\n'] _) := hline
    rw [Text.splitOn_join_of_notMem hne fun line hline =>
      Text.notMem_of_mem_splitOn (List.mem_of_mem_filter hline)] at hmem
    simpa using List.of_mem_filter hmem

/-- A text is subscribed to what its first line says that says something. -/
theorem says_subscription? {t : Text} (h : ∀ s, s <:+ t → dontSubscribe? s = none) :
    Option.Rel Says ((splitOn '\n' t).find? fun line => Subscribes line)
      (Header.subscription? t) := by
  have hoff : Text.first? (fun t => (dontSubscribe? t).map fun rest => ((), rest)) t = none :=
    Text.first?_eq_none fun s hs => by rw [h s hs]; rfl
  have hsubscription : Header.subscription? t = (subscribeLine? t).map
      fun args => (args.map Subscription.read).getD .all := by
    rw [Header.subscription?, Text.isSome_readFirst?, hoff]
    rfl
  rw [hsubscription, subscribeLine?_eq]
  induction splitOn '\n' t with
  | nil => exact .none
  | cons line lines ih =>
    rw [List.findSome?_cons, List.find?_cons]
    cases hline : standaloneSubscribe? line with
    | none =>
      rw [decide_eq_false (standaloneSubscribe?_eq_none_iff.1 hline)]
      exact ih
    | some args =>
      have hsays : Says line _ := standaloneSubscribe?_says.1 (by rw [hline]; rfl)
      rw [decide_eq_true ⟨_, hsays⟩]
      exact .some hsays

theorem isSome_eq_of_rel {line : Option Text} {value : Option Subscription}
    (h : Option.Rel Says line value) : value.isSome = line.isSome := by
  cases h <;> rfl

/-! ## Texts that do not turn subscription off -/

/-- The directive that turns subscription off stands on one line. -/
theorem dontSubscribe?_joinLines {lines : List Text} :
    (∀ s, s <:+ join "\n" lines → dontSubscribe? s = none) ↔
      ∀ line ∈ lines, ∀ s, s <:+ line → dontSubscribe? s = none := by
  have hbreak : ∀ s u : Text, dontSubscribe? (s ++ '\n' :: u) = none ↔ dontSubscribe? s = none := by
    intro s u
    have hread : Text.afterFold? "@dontsubscribe" (s ++ '\n' :: u) = _ :=
      Text.afterFold?_append_cons (Text.forall_mem_of_all (by decide)) s u
    rw [dontSubscribe?, Text.afterFoldWord?, hread, dontSubscribe?, Text.afterFoldWord?]
    cases Text.afterFold? "@dontsubscribe" s with
    | none => rfl
    | some rest =>
      rw [Option.map_some, Option.filter_some, Option.filter_some,
        Text.endsWord_append_cons (by decide)]
      split <;> simp
  induction lines with
  | nil =>
    refine iff_of_true (fun s hs => ?_) nofun
    rw [List.suffix_nil.1 hs]
    rfl
  | cons line lines ih =>
    cases lines with
    | nil => rw [Text.join_singleton, List.forall_mem_singleton]
    | cons next lines =>
      rw [List.forall_mem_cons, Text.join_line_cons]
      refine Iff.trans ⟨?_, ?_⟩ (and_congr_right fun _ => ih)
      · intro h
        refine ⟨?_, fun s hs => h s (hs.trans ((List.suffix_cons _ _).trans ⟨line, rfl⟩))⟩
        rintro s ⟨front, rfl⟩
        exact (hbreak s _).1 (h _ ⟨front, (List.append_assoc _ _ _).symm⟩)
      · rintro ⟨hline, hlines⟩ s hs
        obtain hs | ⟨front, -, hfront, rfl⟩ := Text.suffix_append_cases hs
        · obtain rfl | hs := List.suffix_cons_iff.1 hs
          · exact (hbreak [] _).2 rfl
          · exact hlines s hs
        · exact (hbreak front _).2 (hline front hfront)

/-- **The header and the body agree on the lines that subscribe.** In a text that does not turn
subscription off, the body is left without just the lines that are only a subscribe directive, and
keeps the others as they are. The header has a subscription if and only if there are such lines,
and it is what the first of them says. What is left has no subscription, and no more lines to
remove. -/
theorem subscribe_lines_agree {t : Text} (h : ∀ s, s <:+ t → dontSubscribe? s = none) :
    let lines := Text.splitOn '\n' t
    removeStandaloneSubscribe t = Text.join "\n" (lines.filter fun line => ¬ Subscribes line) ∧
    ((Header.subscription? t).isSome ↔ ∃ line ∈ lines, Subscribes line) ∧
    Option.Rel Says (lines.find? fun line => Subscribes line) (Header.subscription? t) ∧
    Header.subscription? (removeStandaloneSubscribe t) = none ∧
    removeStandaloneSubscribe (removeStandaloneSubscribe t) = removeStandaloneSubscribe t := by
  intro lines
  have hsays := says_subscription? h
  have hsome : (Header.subscription? t).isSome ↔ ∃ line ∈ lines, Subscribes line := by
    have hfind := @List.find?_isSome _ lines fun line => Subscribes line
    simp only [decide_eq_true_iff] at hfind
    rw [← hfind, isSome_eq_of_rel hsays]
  have hquiet : ∀ s, s <:+ removeStandaloneSubscribe t → dontSubscribe? s = none := by
    have hlines : Text.join "\n" lines = t := Text.join_splitOn '\n' t
    rw [← hlines, dontSubscribe?_joinLines] at h
    rw [removeStandaloneSubscribe_eq, dontSubscribe?_joinLines]
    exact fun line hline => h line (List.mem_of_mem_filter hline)
  have hrest := forall_mem_removeStandaloneSubscribe t
  refine ⟨removeStandaloneSubscribe_eq t, hsome, hsays, ?_,
    removeStandaloneSubscribe_of_forall hrest⟩
  have hnone := isSome_eq_of_rel (says_subscription? hquiet)
  rw [List.find?_eq_none.2 fun line hline => by simpa using hrest line hline] at hnone
  exact Option.not_isSome_iff_eq_none.1 (by simp [hnone])

/-- Two lines that subscribe, the first with a list of keys and a carriage return. -/
def twoLines : Text := "<p>\n  @subscribe(['a', 'b'])\r\n@subscribe\n</p>"

theorem subscribe_lines_agree_twoLines :
    (∀ s, s <:+ twoLines → dontSubscribe? s = none) ∧ (Header.subscription? twoLines).isSome ∧
      Header.subscription? (removeStandaloneSubscribe twoLines) = none := by
  have hquiet : ∀ s, s <:+ twoLines → dontSubscribe? s = none := by decide +kernel
  obtain ⟨-, hsome, -, hnone, -⟩ := subscribe_lines_agree hquiet
  exact ⟨hquiet, hsome.2 ⟨"@subscribe", by decide +kernel, by decide⟩, hnone⟩

end BladeView.Body
