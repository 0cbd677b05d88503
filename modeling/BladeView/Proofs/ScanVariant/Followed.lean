import BladeView.Proofs.ScanVariant.Renames

/-!
# Followed regions

After all calls of some code have been renamed, a pass looks for followed regions and changes the
calls in them back. It can be said beforehand which regions it will find: renaming starts no region
and ends none, so they are those that the reader of groups finds in the code itself.
-/
namespace BladeView.ScanVariant

open BladeView.Group (read?)

/-! ## The pass over followed regions -/

/-- How a followed region begins in code whose calls are renamed. -/
def start : Text := "$\x7b" ++ followStart

theorem sweep_stopped (t : Text) : Text.sweep (fun _ => followStep) none true 0 t = t := by
  rw [Text.sweep_eq_map (f := id), List.map_id]
  intro _ c cs _
  rfl

theorem revertFollowed_nil : revertFollowed [] = [] := rfl

theorem revertFollowed_cons {c : Char} {t : Text} (h : ¬ start <+: c :: t) :
    revertFollowed (c :: t) = c :: revertFollowed t := by
  have hstart : Text.startsWith ("$\x7b" ++ followStart) (c :: t) = false := by
    rw [Bool.eq_false_iff]
    exact fun hprefix => h (List.isPrefixOf_iff_prefix.mp hprefix)
  have hstep : followStep false (c :: t) = ([c], false, 0) := by
    simp only [followStep, hstart]
    rfl
  rw [revertFollowed, Text.sweep, hstep]
  exact congrArg (c :: ·) (Text.sweep_before ..)

theorem followStep_start (t : Text) :
    followStep false (start ++ t) =
      match read? ('\x7b' :: (followStart ++ t)) with
      | none => (['$'], true, 0)
      | some (inner, rest) => (start ++ replaceAll reverts (inner.drop followStart.length ++ "\x7d"),
          false, Text.readBeyond (start ++ t) rest) := by
  have hstart : Text.startsWith ("$\x7b" ++ followStart) (start ++ t) = true :=
    List.isPrefixOf_iff_prefix.mpr (List.prefix_append start t)
  have hread : Reference.interpolation? (start ++ t) =
      read? ('\x7b' :: (followStart ++ t)) := rfl
  simp only [followStep, hstart, hread]
  cases read? ('\x7b' :: (followStart ++ t)) <;> rfl

/-- A region that is not closed ends the pass. -/
theorem revertFollowed_open {t : Text}
    (h : read? ('\x7b' :: (followStart ++ t)) = none) :
    revertFollowed (start ++ t) = start ++ t := by
  have hstep := followStep_start t
  rw [h] at hstep
  have hcons : start ++ t = '$' :: ('\x7b' :: (followStart ++ t)) := rfl
  rw [hcons] at hstep ⊢
  rw [revertFollowed, Text.sweep, hstep]
  exact congrArg ('$' :: ·) ((Text.sweep_before ..).trans (sweep_stopped _))

/-- The calls in a region that is closed are changed back. -/
theorem revertFollowed_closed {body rest : Text}
    (h : read? ('\x7b' :: (followStart ++ (body ++ '\x7d' :: rest))) =
      some (followStart ++ body, rest)) :
    revertFollowed (start ++ (body ++ '\x7d' :: rest)) =
      start ++ replaceAll reverts body ++ '\x7d' :: revertFollowed rest := by
  have hstep := followStep_start (body ++ '\x7d' :: rest)
  rw [h] at hstep
  have hback : replaceAll reverts (body ++ ['\x7d']) = replaceAll reverts body ++ ['\x7d'] := by
    rw [separated_reverts.replaceAll_append_cons (by decide) (by decide), Separated.replaceAll_nil]
  have hjump : Text.readBeyond (start ++ (body ++ '\x7d' :: rest)) rest =
      ('\x7b' :: (followStart ++ (body ++ ['\x7d']))).length := by
    have hlength := Text.readBeyond_append '$' ('\x7b' :: (followStart ++ (body ++ ['\x7d']))) rest
    simpa [start] using hlength
  have hcons : start ++ (body ++ '\x7d' :: rest) =
      '$' :: ('\x7b' :: (followStart ++ (body ++ ['\x7d'])) ++ rest) := by simp [start]
  dsimp only at hstep
  rw [List.drop_left, hjump] at hstep
  rw [hcons] at hstep ⊢
  rw [revertFollowed, Text.sweep, hstep]
  dsimp only
  rw [Text.sweep_skip, show "\x7d".toList = ['\x7d'] from rfl, hback]
  simp [revertFollowed]

/-- The pass copies a text in which no region starts. -/
theorem revertFollowed_append {front : Text} {t : Text} (hfront : ¬ start <:+: front)
    (ht : t = [] ∨ t.head? = some '$') :
    revertFollowed (front ++ t) = front ++ revertFollowed t := by
  induction front with
  | nil => rfl
  | cons c front ih =>
    have hrest := ih fun h => hfront (h.trans (List.suffix_cons c front).isInfix)
    rw [List.cons_append, revertFollowed_cons, hrest, List.cons_append]
    intro hprefix
    rcases List.prefix_or_prefix_of_prefix hprefix (List.prefix_append (c :: front) t) with
      hwithin | ⟨rest, hstart⟩
    · exact hfront hwithin.isInfix
    · -- the start of a region goes on beyond the text, but holds no second dollar sign
      have hnext : rest <+: t := by
        rw [← hstart, List.cons_append, List.cons_prefix_cons, List.prefix_append_right_inj]
          at hprefix
        exact hprefix.2
      cases rest with
      | nil => exact hfront ((List.append_nil _).symm.trans hstart ▸ List.infix_rfl)
      | cons d rest =>
        obtain ⟨more, rfl⟩ := hnext
        have hd : d = '$' := by simpa using ht
        have hmem : '$' ∈ start.tail := by
          rw [← hstart, hd]
          simp
        exact absurd hmem (by decide)

/-! ## Regions -/

/-- The calls that become the start of a followed region. -/
def followCalls : List String := ["this.__follow(", "this.renderFollowingBlock(", "this.__followScan("]

/-- An interpolation with a call, up to the arguments. -/
def opening (call : String) : Text := '$' :: '\x7b' :: call.toList

/-- No followed region starts in a text. -/
def Outside (t : Text) : Prop := ∀ call ∈ followCalls, ¬ opening call <:+: t

/-- The reader of groups finds the end of a region at the end of its body. -/
def Closed (body : Text) : Prop := read? ('\x7b' :: (body ++ ['\x7d'])) = some (body, [])

/-- A followed region with the code before it. -/
structure Region where
  outside : Text
  call : String
  body : Text

namespace Region

/-- The code of a region. -/
def code (g : Region) : Text := g.outside ++ opening g.call ++ g.body ++ ['\x7d']

/-- What becomes of a region: all calls are renamed, and those in its body are changed back. -/
def variant (g : Region) : Text :=
  replaceAll renames g.outside ++ start ++ replaceAll reverts (replaceAll renames g.body) ++ ['\x7d']

/-- A region whose body is left as it is. -/
def kept (g : Region) : Text := replaceAll renames g.outside ++ start ++ g.body ++ ['\x7d']

/-- A region that is found where it is. -/
structure IsFound (g : Region) : Prop where
  outside : Outside g.outside
  call : g.call ∈ followCalls
  closed : Closed g.body

end Region

/-- What follows the last region: no region starts there, or one that has no end. -/
inductive IsRest : Text → Prop
  | outside {t : Text} : Outside t → IsRest t
  | opened {front tail : Text} {call : String} : Outside front → call ∈ followCalls →
      read? ('\x7b' :: tail) = none → IsRest (front ++ opening call ++ tail)

/-- Code is made of some regions and a rest. -/
structure Parses (code : Text) (regions : List Region) (rest : Text) : Prop where
  code_eq : code = regions.flatMap Region.code ++ rest
  found : ∀ g ∈ regions, g.IsFound
  rest : IsRest rest

theorem outside_or_opening (code : Text) : Outside code ∨
    ∃ front call tail, code = front ++ opening call ++ tail ∧ Outside front ∧
      call ∈ followCalls := by
  induction code with
  | nil =>
    refine .inl fun call _ h => ?_
    simp [opening] at h
  | cons c t ih =>
    by_cases hhere : ∃ call ∈ followCalls, opening call <+: c :: t
    · obtain ⟨call, hcall, tail, htail⟩ := hhere
      refine .inr ⟨[], call, tail, by simpa using htail.symm, fun call _ h => ?_, hcall⟩
      simp [opening] at h
    · have hcons : ∀ {u}, c :: u <+: c :: t → Outside u → Outside (c :: u) := by
        intro u hu hout call hcall h
        rcases List.infix_cons_iff.mp h with hprefix | hstands
        · exact hhere ⟨call, hcall, hprefix.trans hu⟩
        · exact hout call hcall hstands
      rcases ih with hout | ⟨front, call, tail, rfl, hout, hcall⟩
      · exact .inl (hcons List.prefix_rfl hout)
      · refine .inr ⟨c :: front, call, tail, by simp, hcons ?_ hout, hcall⟩
        simp

/-- Code can be taken apart into regions. -/
theorem exists_parses (code : Text) : ∃ regions rest, Parses code regions rest := by
  induction hlength : code.length using Nat.strongRecOn generalizing code with
  | _ n ih =>
    subst hlength
    rcases outside_or_opening code with hout | ⟨front, call, tail, rfl, hout, hcall⟩
    · exact ⟨[], code, rfl, by simp, .outside hout⟩
    · cases hread : read? ('\x7b' :: tail) with
      | none => exact ⟨[], _, rfl, by simp, .opened hout hcall hread⟩
      | some found =>
        obtain ⟨body, rest⟩ := found
        obtain rfl := Group.inside?_eq_some hread
        have hclosed := Group.inside?_rest hread
        obtain ⟨regions, last, hrest⟩ := ih rest.length (by simp; omega) rest rfl
        refine ⟨⟨front, call, body⟩ :: regions, last, ?_, ?_, hrest.rest⟩
        · simp [Region.code, hrest.code_eq]
        · rw [List.forall_mem_cons]
          exact ⟨⟨hout, hcall, hclosed []⟩, hrest.found⟩

/-! ## The variant of code with regions -/

theorem followCalls_spec : ∀ call ∈ followCalls,
    call.toList = nameOf call ++ ['('] ∧ '(' ∉ nameOf call ∧
      rewriteAll renames (nameOf call) = nameOf "this.__followScan(" := by
  decide +kernel

theorem replaceAll_opening {call : String} (hcall : call ∈ followCalls) (s t : Text) :
    replaceAll renames (s ++ opening call ++ t) = replaceAll renames s ++ start ++
      replaceAll renames t := by
  have hspec := followCalls_spec call hcall
  have hstart : start = '$' :: '\x7b' :: (nameOf "this.__followScan(" ++ ['(']) := by
    decide
  calc replaceAll renames (s ++ opening call ++ t)
      = replaceAll renames (s ++ '$' :: ('\x7b' :: (nameOf call ++ '(' :: t))) := by
        simp [opening, hspec.1]
    _ = replaceAll renames s ++ '$' :: replaceAll renames ('\x7b' :: (nameOf call ++ '(' :: t)) :=
        separated_renames.replaceAll_append_cons (c := '$') (by decide) (by decide) s _
    _ = replaceAll renames s ++ '$' :: '\x7b' :: replaceAll renames (nameOf call ++ '(' :: t) := by
        rw [separated_renames.replaceAll_cons (c := '\x7b') (by decide) (by decide)]
    _ = replaceAll renames s ++ start ++ replaceAll renames t := by
        rw [separated_renames.replaceAll_paren hspec.2.1, hspec.2.2, hstart]
        simp

theorem followScan_spec : ∀ e ∈ renames, '$' ∉ nameOf e.2 ∧
    (nameOf e.2 <:+ '$' :: '\x7b' :: nameOf "this.__followScan(" →
      e.1 ∈ followCalls ∧ nameOf e.2 = nameOf "this.__followScan(") := by
  decide +kernel

/-- Renaming starts no new region. -/
theorem not_infix_of_outside {t : Text} (h : Outside t) : ¬ start <:+: replaceAll renames t := by
  have hstart : start = '$' :: '\x7b' :: nameOf "this.__followScan(" ++ ['('] := by decide
  have hopening : ∀ call ∈ followCalls, ∀ piece ∈ Text.calls t,
      ¬ '$' :: '\x7b' :: nameOf call <:+ piece := by
    intro call hcall piece hpiece hend
    have hspec := followCalls_spec call hcall
    refine h call hcall ?_
    rw [opening, hspec.1, ← List.cons_append, ← List.cons_append]
    refine (Text.infix_iff_calls ?_ t).mpr ⟨piece, hpiece, hend⟩
    simp [hspec.2.1]
  rw [hstart, separated_renames.replaceAll_eq, Text.infix_iff_calls (by decide),
    Text.calls_mapCalls separated_renames.rewriteAll_noParen]
  rintro ⟨renamed, hrenamed, hend⟩
  obtain ⟨piece, hpiece, rfl⟩ := List.mem_map.mp hrenamed
  rcases separated_renames.rewriteAll_cases piece with ⟨e, he, front, rfl, hnew⟩ | ⟨-, hsame⟩
  · rw [hnew] at hend
    obtain ⟨hdollar, hfollow⟩ := followScan_spec e he
    rcases List.suffix_or_suffix_of_suffix hend (List.suffix_append front (nameOf e.2)) with
      hlong | hshort
    · exact hdollar (hlong.subset List.mem_cons_self)
    · obtain ⟨hcall, hname⟩ := hfollow hshort
      obtain ⟨before, hbefore⟩ := hend
      have hfront : before ++ ['$', '\x7b'] = front := by
        rw [hname] at hbefore
        exact List.append_cancel_right (by simpa using hbefore)
      refine hopening e.1 hcall _ hpiece ⟨before, ?_⟩
      simp [← hfront]
  · rw [hsame] at hend
    exact hopening "this.__followScan(" (by decide) piece hpiece hend

theorem read?_followStart (t : Text) :
    read? ('\x7b' :: (followStart ++ replaceAll renames t)) =
      Group.extend followStart ((read? ('\x7b' :: t)).map
        (KeepsDelimiters.mapGroup (replaceAll renames))) := by
  have hplain : ∀ c ∈ followStart, isDelimiter c = false :=
    Text.forall_mem_of_all (by decide)
  calc read? ('\x7b' :: (followStart ++ replaceAll renames t))
      = Group.inside? '\x7b' '\x7d' 0 none (followStart ++ replaceAll renames t) := rfl
    _ = Group.extend followStart (Group.inside? '\x7b' '\x7d' 0 none (replaceAll renames t)) :=
        Group.inside?_plain (by simp) hplain _
    _ = _ := by rw [separated_renames.keepsDelimiters.inside? (by simp)]; rfl

theorem IsRest.revertFollowed {t : Text} (h : IsRest t) :
    revertFollowed (replaceAll renames t) = replaceAll renames t := by
  cases h with
  | outside hout =>
    have happend := revertFollowed_append (not_infix_of_outside hout) (.inl rfl)
    rwa [List.append_nil, revertFollowed_nil, List.append_nil] at happend
  | @opened front tail call hout hcall hread =>
    have hopen : read? ('\x7b' :: (followStart ++ replaceAll renames tail)) = none := by
      rw [read?_followStart, hread]
      rfl
    rw [replaceAll_opening hcall, List.append_assoc,
      revertFollowed_append (not_infix_of_outside hout) (.inr rfl), revertFollowed_open hopen]

/-- The pass changes the calls in a region back, and goes on after it. -/
theorem Region.IsFound.revertFollowed {g : Region} (h : g.IsFound) (t : Text) :
    revertFollowed (replaceAll renames (g.code ++ t)) =
      g.variant ++ revertFollowed (replaceAll renames t) := by
  have hread : read? ('\x7b' :: (g.body ++ '\x7d' :: t)) = some (g.body, t) :=
    Group.inside?_rest h.closed t
  have hbody : replaceAll renames (g.body ++ '\x7d' :: t) =
      replaceAll renames g.body ++ '\x7d' :: replaceAll renames t :=
    separated_renames.replaceAll_append_cons (c := '\x7d') (by decide) (by decide) _ _
  have hclosed : read? ('\x7b' :: (followStart ++ (replaceAll renames g.body ++
      '\x7d' :: replaceAll renames t))) =
        some (followStart ++ replaceAll renames g.body, replaceAll renames t) := by
    rw [← hbody, read?_followStart, hread, Option.map_some, KeepsDelimiters.mapGroup,
      Group.extend, Option.map_some]
  have hcode : g.code ++ t = g.outside ++ opening g.call ++ (g.body ++ '\x7d' :: t) := by
    simp [Region.code]
  rw [hcode, replaceAll_opening h.call, List.append_assoc,
    revertFollowed_append (not_infix_of_outside h.outside) (.inr rfl), hbody,
    revertFollowed_closed hclosed]
  simp [Region.variant]

theorem ofCode_eq {code rest : Text} {regions : List Region} (h : Parses code regions rest) :
    ofCode code = regions.flatMap Region.variant ++ replaceAll renames rest := by
  obtain ⟨rfl, hfound, hrest⟩ := h
  rw [ofCode]
  induction regions with
  | nil =>
    rw [List.flatMap_nil, List.nil_append, hrest.revertFollowed, List.flatMap_nil, List.nil_append]
  | cons g regions ih =>
    rw [List.forall_mem_cons] at hfound
    rw [List.flatMap_cons, List.append_assoc, hfound.1.revertFollowed, ih hfound.2,
      List.flatMap_cons, List.append_assoc]

end BladeView.ScanVariant
