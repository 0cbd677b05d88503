import BladeView.Proofs.Token.Faithful

/-!
# Regions for one side

A region for the server reads as if it were not there. A region for the client reads as if its two
marker lines were not there, as long as none of its lines starts with an at sign. Both are shown
piece by piece: a piece passes if it is read alike whatever follows it, and pieces that pass are
put together. What comes before the region passes since it ends in a line break and none of its
argument lists is left open.

## Main statements

* `Token.ofBody_region`: the tokens of a body with a region in it.
-/
namespace BladeView

open List (append_assoc append_cons append_of_mem cons_append ne_nil_of_mem singleton_append)

/-- The text of a directive does not end in a line break. -/
theorem Directive.IsWritten.raw_ne_concat {d : Directive} (h : d.IsWritten) (front : Text) :
    d.raw ≠ front ++ ['\n'] := by
  intro hraw
  cases hargs : d.args with
  | none =>
    have hmem : '\n' ∈ '@' :: d.name := by simp [← h.bare hargs, hraw]
    obtain ⟨rule, hrule⟩ := Option.isSome_iff_exists.1 h.named
    obtain ⟨entry, hfind, -⟩ := Option.map_eq_some_iff.1 hrule
    have hname : entry.1.toList = d.name := by simpa using List.find?_some hfind
    have hplain : ∀ entry ∈ blockDirectives, '\n' ∉ '@' :: entry.1.toList := by decide
    exact hplain entry (List.mem_of_find?_eq_some hfind) (hname ▸ hmem)
  | some args =>
    obtain ⟨blanks, -, hlist⟩ := h.listed args hargs
    have hlast := congrArg List.getLast? (hlist.symm.trans hraw)
    simp [List.getLast?_cons, List.getLast?_append] at hlast

namespace Token

/-! ## Whole lines -/

/-- A text of whole lines: it is empty or ends in a line break. -/
def EndsLine (t : Text) : Prop := t = [] ∨ ∃ front, t = front ++ ['\n']

theorem EndsLine.suffix {s t : Text} (h : EndsLine t) (hsuffix : s <:+ t) : EndsLine s := by
  rcases h with rfl | ⟨front, rfl⟩
  · exact .inl (List.suffix_nil.1 hsuffix)
  · rcases List.suffix_concat_iff.1 hsuffix with rfl | ⟨front', rfl, -⟩
    · exact .inl rfl
    · exact .inr ⟨front', rfl⟩

theorem EndsLine.newline_mem {t : Text} (h : EndsLine t) (ht : t ≠ []) : '\n' ∈ t := by
  obtain ⟨front, rfl⟩ := h.resolve_left ht
  simp

section Append

variable {t : Text} (hline : '\n' ∈ t) (u : Text)
include hline

theorem firstLine_append : firstLine (t ++ u) = firstLine t := by
  obtain ⟨front, back, rfl⟩ := append_of_mem hline
  rw [append_assoc, cons_append, firstLine_append_cons, firstLine_append_cons]

theorem length_firstLine_lt : (firstLine t).length < t.length := by
  rcases firstLine_cases t with ⟨htext, -⟩ | htext
  · exact absurd (htext ▸ hline) (notMem_firstLine t)
  · have hlength := congrArg List.length htext
    rw [List.length_append, List.length_cons] at hlength
    omega

theorem afterLine_append : afterLine (t ++ u) = afterLine t ++ u := by
  rw [afterLine, firstLine_append hline]
  exact List.drop_append_of_le_length (length_firstLine_lt hline)

theorem afterDirective_append : afterDirective (t ++ u) = afterDirective t ++ u := by
  rw [afterDirective, afterDirective, firstLine_append hline, afterLine_append hline]
  split <;> rfl

theorem startsRegion_append : startsRegion (t ++ u) = startsRegion t := by
  rw [startsRegion, firstLine_append hline, startsRegion]

/-- What stands behind the indentation is there whatever follows. -/
theorem drop_lineIndent_append :
    (t ++ u).drop (lineIndent (t ++ u)).length = t.drop (lineIndent t).length ++ u := by
  rw [lineIndent, firstLine_append hline]
  have hle : (lineIndent t).length ≤ (firstLine t).length := (List.takeWhile_prefix _).length_le
  exact List.drop_append_of_le_length (hle.trans (length_firstLine_lt hline).le)

theorem newline_mem_drop_lineIndent : '\n' ∈ t.drop (lineIndent t).length := by
  have hsplit := (lineIndent_append t).2
  have hnot : '\n' ∉ lineIndent t := fun h =>
    notMem_firstLine t ((List.takeWhile_prefix _).subset h)
  exact (List.mem_append.1 (hsplit ▸ hline)).resolve_left hnot

end Append

/-! ## Argument lists -/

/-- What follows the word at the front of a text. -/
def afterWord (t : Text) : Text := t.drop (Text.word t).length

/-- Every argument list that follows a block directive which may have one is closed. -/
def ClosesLists (t : Text) : Prop :=
  AtSigns (fun after => ∀ rule ∈ argumentRule? (Text.word after), rule ≠ .never →
    Group.opensArgs (afterWord after) = true → (Group.args? (afterWord after)).isSome = true) t

instance (t : Text) : Decidable (ClosesLists t) := inferInstanceAs (Decidable (AtSigns _ t))

theorem opensArgs_append {t : Text} (hline : '\n' ∈ t) (u : Text) :
    Group.opensArgs (t ++ u) = Group.opensArgs t := by
  obtain ⟨front, back, rfl⟩ := append_of_mem hline
  rw [append_assoc, cons_append, Group.opensArgs_append_cons rfl (by decide),
    Group.opensArgs_append_cons rfl (by decide)]

theorem arguments?_append {rule : ArgumentRule} {rest : Text} (hline : '\n' ∈ rest)
    (hcloses : rule ≠ .never → Group.opensArgs rest = true → (Group.args? rest).isSome = true)
    (u : Text) : arguments? rule (rest ++ u) = arguments? rule rest := by
  by_cases hrule : rule = .never
  · rw [hrule]
    rfl
  cases hargs : Group.args? rest with
  | some found =>
    obtain ⟨inner, after⟩ := found
    have hsize : (rest ++ u).length - (after ++ u).length = rest.length - after.length := by
      simp only [List.length_append]
      omega
    unfold arguments?
    rw [Group.args?_append_right hargs, hargs]
    dsimp only
    rw [hsize]
  | none =>
    have hclosed : Group.opensArgs rest = false := by
      rw [Bool.eq_false_iff]
      intro hopens
      simpa [hargs] using hcloses hrule hopens
    have hclosed' : Group.opensArgs (rest ++ u) = false := (opensArgs_append hline u).trans hclosed
    unfold arguments?
    rw [Group.args?_eq_none hclosed', hargs, hclosed, hclosed']

theorem size_le_of_arguments? {rule : ArgumentRule} {rest : Text} {args : Option Text} {size : Nat}
    (h : arguments? rule rest = some (args, size)) : size ≤ rest.length := by
  rcases arguments?_eq_some h with ⟨-, rfl, -⟩ | ⟨inner, blanks, after, -, -, hrest, rfl⟩
  · exact Nat.zero_le _
  · exact hrest ▸ (List.prefix_append ..).length_le

/-- A word ends before the line does. -/
theorem word_append {t : Text} (hline : '\n' ∈ t) (u : Text) :
    Text.word (t ++ u) = Text.word t ∧ afterWord (t ++ u) = afterWord t ++ u ∧
      '\n' ∈ afterWord t := by
  have hword : Text.word (t ++ u) = Text.word t := by
    obtain ⟨front, back, rfl⟩ := append_of_mem hline
    rw [Text.word, append_assoc, cons_append, Text.takeWhile_append_cons (by decide),
      Text.word, Text.takeWhile_append_cons (by decide)]
  refine ⟨hword, ?_, ?_⟩
  · rw [afterWord, hword]
    exact List.drop_append_of_le_length (List.takeWhile_prefix _).length_le
  · have hnot : '\n' ∉ Text.word t := fun h =>
      absurd (List.all_eq_true.1 List.all_takeWhile _ h) (by decide)
    have hsplit : Text.word t ++ afterWord t = t := by
      rw [afterWord, Text.word, Text.drop_length_takeWhile, List.takeWhile_append_dropWhile]
    exact (List.mem_append.1 (hsplit.symm ▸ hline)).resolve_left hnot

theorem directive?_cons (cs : Text) : directive? ('@' :: cs) =
    (argumentRule? (Text.word cs)).bind fun rule =>
      if (afterWord cs).head?.any isNameChar then none
      else (arguments? rule (afterWord cs)).bind fun found =>
        some ⟨Text.word cs, found.1, '@' :: (Text.word cs ++ (afterWord cs).take found.2)⟩ :=
  rfl

/-- The directive at the front of a text is the same whatever follows. -/
theorem directive?_append {t : Text} (hline : '\n' ∈ t) (hcloses : ClosesLists t) (u : Text) :
    directive? (t ++ u) = directive? t := by
  by_cases hhead : t.head? = some '@'
  case neg =>
    have hhead' : (t ++ u).head? ≠ some '@' := by
      rw [List.head?_append_of_ne_nil _ (ne_nil_of_mem hline)]
      exact hhead
    rw [directive?_of_head? hhead, directive?_of_head? hhead']
  case pos =>
    obtain ⟨cs, rfl⟩ := List.head?_eq_some_iff.1 hhead
    have hcs : '\n' ∈ cs := (List.mem_cons.1 hline).resolve_left (by decide)
    obtain ⟨hword, hafter, hmem⟩ := word_append hcs u
    rw [cons_append, directive?_cons, directive?_cons, hword, hafter]
    cases hrule : argumentRule? (Text.word cs) with
    | none => rfl
    | some rule =>
      have hargs := arguments?_append hmem (hcloses [] cs rfl rule hrule) u
      rw [Option.bind_some, Option.bind_some, hargs,
        List.head?_append_of_ne_nil _ (ne_nil_of_mem hmem)]
      cases hfound : arguments? rule (afterWord cs) with
      | none => rfl
      | some found =>
        rw [Option.bind_some, Option.bind_some,
          List.take_append_of_le_length (size_le_of_arguments? hfound)]

/-! ## Pieces that pass -/

/-- Whole lines that no region starts in and no argument list leaves. -/
structure SelfContained (t : Text) : Prop where
  endsLine : EndsLine t
  noStart : HasNoStart t
  closes : ClosesLists t

theorem SelfContained.suffix {s t : Text} (h : SelfContained t) (hsuffix : s <:+ t) :
    SelfContained s :=
  ⟨h.endsLine.suffix hsuffix, AtSigns.suffix h.noStart hsuffix, AtSigns.suffix h.closes hsuffix⟩

/-- A piece is read alike whatever follows it: it gives the same items, and reading goes on behind
it at the same place. -/
def Passes (place : Place) (piece : Text) (out : List Item) (place' : Place) : Prop :=
  ∀ rest, items place (piece ++ rest) = out ++ items place' rest

theorem Passes.nil (place : Place) : Passes place [] [] place := fun _ => rfl

theorem Passes.append {place place' place'' : Place} {piece piece' : Text} {out out' : List Item}
    (h : Passes place piece out place') (h' : Passes place' piece' out' place'') :
    Passes place (piece ++ piece') (out ++ out') place'' := fun rest => by
  rw [append_assoc, h, h', append_assoc]

/-- One step through a self-contained text, whatever follows it. -/
theorem SelfContained.exists_step {t : Text} (h : SelfContained t) (ht : t ≠ [])
    (preformatted : Bool) :
    ∃ item preformatted' s, s <:+ t ∧ s.length < t.length ∧
      ∀ rest, items ⟨.both, preformatted⟩ (t ++ rest) =
        item :: items ⟨.both, preformatted'⟩ (s ++ rest) := by
  have hline := h.endsLine.newline_mem ht
  have hstart (rest : Text) : startsRegion (t ++ rest) = false :=
    (startsRegion_append hline rest).trans h.noStart.startsRegion
  have hread (rest : Text) : directive? ((t ++ rest).drop (lineIndent (t ++ rest)).length) =
      directive? (t.drop (lineIndent t).length) := by
    rw [drop_lineIndent_append hline]
    exact directive?_append (newline_mem_drop_lineIndent hline)
      (AtSigns.suffix h.closes (List.drop_suffix ..)) rest
  cases hdirective : directive? (t.drop (lineIndent t).length) with
  | none =>
    refine ⟨.line (lineText preformatted (firstLine t)),
      preformattedAfter preformatted (firstLine t), afterLine t, afterLine_suffix t,
      length_afterLine_lt ht, fun rest => ?_⟩
    rw [items_text rfl (List.append_ne_nil_of_left_ne_nil ht rest) (hstart rest)
      ((hread rest).trans hdirective), firstLine_append hline, afterLine_append hline]
  | some d =>
    obtain ⟨⟨after, hafter⟩, hwritten⟩ := directive?_eq_some hdirective
    obtain ⟨hsuffix, hlength⟩ := afterDirective_of_drop hwritten hafter
    refine ⟨.directive d, preformatted, afterDirective after, hsuffix, hlength, fun rest => ?_⟩
    -- the directive does not end in a line break, so the one at the end of the text follows it
    have hmore : '\n' ∈ after := by
      have hends := h.endsLine.suffix (List.drop_suffix (lineIndent t).length t)
      refine (hends.suffix (hafter ▸ List.suffix_append d.raw after)).newline_mem ?_
      rintro rfl
      rw [List.append_nil] at hafter
      obtain ⟨front, hfront⟩ :=
        hends.resolve_left (ne_nil_of_mem (newline_mem_drop_lineIndent hline))
      exact hwritten.raw_ne_concat front (hafter.symm.trans hfront)
    have hafter' : (t ++ rest).drop (lineIndent (t ++ rest)).length = d.raw ++ (after ++ rest) := by
      rw [drop_lineIndent_append hline, hafter, append_assoc]
    rw [items_directive rfl (hstart rest) ((hread rest).trans hdirective) hafter',
      afterDirective_append hmore]

/-- A self-contained text passes. -/
theorem SelfContained.exists_passes {t : Text} (h : SelfContained t) (preformatted : Bool) :
    ∃ out preformatted', Passes ⟨.both, preformatted⟩ t out ⟨.both, preformatted'⟩ := by
  induction hn : t.length using Nat.strong_induction_on generalizing t preformatted with
  | _ n ih =>
    by_cases ht : t = []
    · exact ⟨[], preformatted, ht ▸ Passes.nil _⟩
    obtain ⟨item, preformatted₁, s, hsuffix, hlength, hstep⟩ := h.exists_step ht preformatted
    obtain ⟨out, preformatted', hlater⟩ :=
      ih _ (hn ▸ hlength) (h.suffix hsuffix) preformatted₁ rfl
    exact ⟨item :: out, preformatted', fun rest => by rw [hstep, hlater, cons_append]⟩

/-! ## Regions -/

/-- A region: its start line, the lines in it, and its end line. -/
def region (start : Text) (content : List Text) (stop : Text) : Text :=
  start ++ ['\n'] ++ (Text.closedLines content ++ (stop ++ ['\n']))

section Region

variable (preformatted : Bool) {line start stop : Text} {content : List Text}

/-! A region for the server. -/

theorem passes_startServer (hline : '\n' ∉ line)
    (hstart : startsWithAny serverStarts line = true) :
    Passes ⟨.both, preformatted⟩ (line ++ ['\n']) [] ⟨.server, preformatted⟩ := by
  intro rest
  rw [append_assoc, singleton_append, items_startServer rfl (by simp)
    (by rw [firstLine_line hline, hstart]), afterLine_line hline]
  rfl

theorem passes_serverLine (hline : '\n' ∉ line) :
    Passes ⟨.server, preformatted⟩ (line ++ ['\n']) []
      ⟨if startsWithAny serverEnds line then .both else .server, preformatted⟩ := by
  intro rest
  rw [append_assoc, singleton_append, items_server rfl (by simp), firstLine_line hline,
    afterLine_line hline]
  rfl

theorem passes_serverLines (hlines : ∀ line ∈ content, '\n' ∉ line)
    (hinner : ∀ line ∈ content, startsWithAny serverEnds line = false) :
    Passes ⟨.server, preformatted⟩ (Text.closedLines content) [] ⟨.server, preformatted⟩ := by
  induction content with
  | nil => exact Passes.nil _
  | cons line content ih =>
    rw [List.forall_mem_cons] at hlines hinner
    have hfirst := passes_serverLine preformatted hlines.1
    rw [hinner.1] at hfirst
    rw [Text.closedLines_cons, append_cons line]
    exact hfirst.append (ih hlines.2 hinner.2)

/-- A region for the server gives nothing, and leaves the place as it was. -/
theorem passes_server (hstart : '\n' ∉ start) (hstop : '\n' ∉ stop)
    (hlines : ∀ line ∈ content, '\n' ∉ line) (hstarts : startsWithAny serverStarts start = true)
    (hinner : ∀ line ∈ content, startsWithAny serverEnds line = false)
    (hends : startsWithAny serverEnds stop = true) :
    Passes ⟨.both, preformatted⟩ (region start content stop) [] ⟨.both, preformatted⟩ := by
  have hlast := passes_serverLine preformatted hstop
  rw [hends] at hlast
  exact (passes_startServer preformatted hstart hstarts).append
    ((passes_serverLines preformatted hlines hinner).append hlast)

/-! A region for the client. -/

/-- The words that start the two kinds of regions differ. -/
theorem startsWithAny_serverStarts (h : startsWithAny clientStarts line = true) :
    startsWithAny serverStarts line = false := by
  have hdiffer : ∀ name ∈ clientStarts, name ∉ serverStarts := by decide
  obtain ⟨word, hword, hmem⟩ := (Option.any_eq_true ..).1 h
  rw [startsWithAny, hword, Option.any_some, ← Bool.not_eq_true, List.contains_iff_mem]
  exact hdiffer word (List.contains_iff_mem.1 hmem)

theorem passes_startClient (hline : '\n' ∉ line)
    (hstart : startsWithAny clientStarts line = true) :
    Passes ⟨.both, preformatted⟩ (line ++ ['\n']) [] ⟨.client, preformatted⟩ := by
  intro rest
  rw [append_assoc, singleton_append, items_startClient rfl (by simp)
    (by rw [firstLine_line hline, startsWithAny_serverStarts hstart])
    (by rw [firstLine_line hline, hstart]), afterLine_line hline]
  rfl

theorem passes_stopClient (hline : '\n' ∉ line) (hstop : startsWithAny clientEnds line = true) :
    Passes ⟨.client, preformatted⟩ (line ++ ['\n']) [] ⟨.both, preformatted⟩ := by
  intro rest
  rw [append_assoc, singleton_append, items_client rfl (by simp), firstLine_line hline,
    afterLine_line hline, hstop]
  rfl

theorem passes_clientLine (hline : '\n' ∉ line) (hinner : startsWithAny clientEnds line = false) :
    Passes ⟨.client, preformatted⟩ (line ++ ['\n']) [.line (lineText preformatted line)]
      ⟨.client, preformattedAfter preformatted line⟩ := by
  intro rest
  rw [append_assoc, singleton_append, items_client rfl (by simp), firstLine_line hline,
    afterLine_line hline, hinner]
  rfl

/-- A line that starts with no at sign is read outside of regions as it is in one. -/
theorem passes_plainLine (hline : '\n' ∉ line)
    (hhead : (Text.trimStart line).head? ≠ some '@') :
    Passes ⟨.both, preformatted⟩ (line ++ ['\n']) [.line (lineText preformatted line)]
      ⟨.both, preformattedAfter preformatted line⟩ := by
  intro rest
  have hfirst := firstLine_line hline rest
  have hdirective : directive? ((line ++ '\n' :: rest).drop
      (lineIndent (line ++ '\n' :: rest)).length) = none := by
    apply directive?_of_head?
    rw [lineIndent, hfirst, List.drop_append_of_le_length (List.takeWhile_prefix _).length_le,
      Text.drop_length_takeWhile]
    change (Text.trimStart line ++ '\n' :: rest).head? ≠ some '@'
    cases hstart : Text.trimStart line with
    | nil => simp
    | cons c cs => simpa [hstart] using hhead
  rw [append_assoc, singleton_append, items_text rfl (by simp)
    (by rw [startsRegion, hfirst, startsWithAny_of_head? hhead, startsWithAny_of_head? hhead]; rfl)
    hdirective, hfirst, afterLine_line hline]
  rfl

theorem passes_plainLines (hlines : ∀ line ∈ content, '\n' ∉ line)
    (hheads : ∀ line ∈ content, (Text.trimStart line).head? ≠ some '@') :
    ∃ out preformatted',
      Passes ⟨.client, preformatted⟩ (Text.closedLines content) out ⟨.client, preformatted'⟩ ∧
      Passes ⟨.both, preformatted⟩ (Text.closedLines content) out ⟨.both, preformatted'⟩ := by
  induction content generalizing preformatted with
  | nil => exact ⟨[], preformatted, Passes.nil _, Passes.nil _⟩
  | cons line content ih =>
    rw [List.forall_mem_cons] at hlines hheads
    obtain ⟨out, preformatted', hclient, hboth⟩ :=
      ih (preformattedAfter preformatted line) hlines.2 hheads.2
    have hinner := startsWithAny_of_head? hheads.1 clientEnds
    refine ⟨.line (lineText preformatted line) :: out, preformatted', ?_, ?_⟩
    · rw [Text.closedLines_cons, append_cons line]
      exact (passes_clientLine preformatted hlines.1 hinner).append hclient
    · rw [Text.closedLines_cons, append_cons line]
      exact (passes_plainLine preformatted hlines.1 hheads.1).append hboth

/-- The markers of a region for the client give nothing, and its lines are read as they are
outside of it. -/
theorem passes_client (hstart : '\n' ∉ start) (hstop : '\n' ∉ stop)
    (hlines : ∀ line ∈ content, '\n' ∉ line) (hstarts : startsWithAny clientStarts start = true)
    (hheads : ∀ line ∈ content, (Text.trimStart line).head? ≠ some '@')
    (hends : startsWithAny clientEnds stop = true) :
    ∃ out preformatted',
      Passes ⟨.both, preformatted⟩ (region start content stop) out ⟨.both, preformatted'⟩ ∧
      Passes ⟨.both, preformatted⟩ (Text.closedLines content) out ⟨.both, preformatted'⟩ := by
  obtain ⟨out, preformatted', hclient, hboth⟩ := passes_plainLines preformatted hlines hheads
  refine ⟨out, preformatted', ?_, hboth⟩
  have hpasses := (passes_startClient preformatted hstart hstarts).append
    (hclient.append (passes_stopClient preformatted' hstop hends))
  rwa [List.nil_append, List.append_nil] at hpasses

end Region

/-! ## Bodies -/

/-- After a text that is read alike, two pieces that pass alike are interchangeable. -/
theorem Passes.ofBody_eq {pre piece piece' : Text} {preformatted preformatted' : Bool}
    {before out : List Item} (hpre : Passes {} pre before ⟨.both, preformatted⟩)
    (h : Passes ⟨.both, preformatted⟩ piece out ⟨.both, preformatted'⟩)
    (h' : Passes ⟨.both, preformatted⟩ piece' out ⟨.both, preformatted'⟩) (post : Text) :
    ofBody (pre ++ (piece ++ post)) = ofBody (pre ++ (piece' ++ post)) := by
  rw [Token.ofBody_eq, Token.ofBody_eq, hpre, hpre, h, h']

/-- A region for the server reads as if it were not there. A region for the client in which no
line starts with an at sign, after blanks, reads as if its two marker lines were not there. -/
theorem ofBody_region {pre start stop : Text} {content : List Text} (hpre : SelfContained pre)
    (hstart : '\n' ∉ start) (hstop : '\n' ∉ stop) (hlines : ∀ line ∈ content, '\n' ∉ line)
    (post : Text) :
    (IsMarker serverStarts start → (∀ line ∈ content, ¬ IsMarker serverEnds line) →
      IsMarker serverEnds stop →
      ofBody (pre ++ (region start content stop ++ post)) = ofBody (pre ++ post)) ∧
    (IsMarker clientStarts start →
      (∀ line ∈ content, (Text.trimStart line).head? ≠ some '@') → IsMarker clientEnds stop →
      ofBody (pre ++ (region start content stop ++ post)) =
        ofBody (pre ++ (Text.closedLines content ++ post))) := by
  obtain ⟨before, preformatted, hbefore⟩ := hpre.exists_passes false
  constructor
  · intro hstarts hinner hends
    have hregion := passes_server preformatted hstart hstop hlines
      ((startsWithAny_iff (by decide)).2 hstarts)
      (fun line hline => Bool.eq_false_iff.2 fun h =>
        hinner line hline ((startsWithAny_iff (by decide)).1 h))
      ((startsWithAny_iff (by decide)).2 hends)
    exact hbefore.ofBody_eq hregion (Passes.nil _) post
  · intro hstarts hheads hends
    obtain ⟨out, preformatted', hregion, hcontent⟩ := passes_client preformatted hstart hstop hlines
      ((startsWithAny_iff (by decide)).2 hstarts) hheads ((startsWithAny_iff (by decide)).2 hends)
    exact hbefore.ofBody_eq hregion hcontent post

/-- A region of each kind, behind preformatted text and an argument list over two lines. -/
theorem ofBody_region_behind_list :
    SelfContained "<pre>\n@if ($a\n || $b)\n" ∧
      ofBody ("<pre>\n@if ($a\n || $b)\n" ++
        (region "  @SSR (1)" ["@if($x", "</pre>", "@endcsr"] "\t@endServerSide." ++ " y\n@endif")) =
        ofBody ("<pre>\n@if ($a\n || $b)\n" ++ " y\n@endif") ∧
      ofBody ("<pre>\n@if ($a\n || $b)\n" ++
        (region "@useCsr" ["</pre>", " x @endcsr "] "@endcsr" ++ " y\n@endif")) =
        ofBody ("<pre>\n@if ($a\n || $b)\n" ++
          (Text.closedLines ["</pre>", " x @endcsr "] ++ " y\n@endif")) := by
  have hpre : SelfContained "<pre>\n@if ($a\n || $b)\n" :=
    ⟨.inr ⟨"<pre>\n@if ($a\n || $b)", by decide⟩, by decide +kernel, by decide +kernel⟩
  refine ⟨hpre, (ofBody_region hpre (by decide) (by decide) (by decide) _).1 ?_ ?_ ?_,
    (ofBody_region hpre (by decide) (by decide) (by decide) _).2 ?_ (by decide +kernel) ?_⟩
  · exact (startsWithAny_iff (by decide)).1 (by decide +kernel)
  · have hinner : ∀ line ∈ (["@if($x", "</pre>", "@endcsr"] : List Text),
        startsWithAny serverEnds line ≠ true := by decide +kernel
    exact fun line hline h => hinner line hline ((startsWithAny_iff (by decide)).2 h)
  · exact (startsWithAny_iff (by decide)).1 (by decide +kernel)
  · exact (startsWithAny_iff (by decide)).1 (by decide +kernel)
  · exact (startsWithAny_iff (by decide)).1 (by decide +kernel)

end Token
end BladeView
