import BladeView.Proofs.Declaration.Rendered
import BladeView.Proofs.Markup.Standing
import BladeView.Proofs.Reference.Mention

/-!
# The removal of declaring directives

The last of the passes that make the body of a template removes the directives that set the view up,
the declaring ones among them. It looks at the rendered text. A directive is removed if no name goes
on before it, if only spaces and tabs stand between its name and its argument list, if the list is
closed, and if it is not inside of another directive that is removed.
-/
namespace BladeView

open Traced (chars chars_append lastOr length_chars reads)
open List (all_eq_true append_assoc cons_append mem_append mem_cons mem_reverse)
open Text (isEmptyOrBlank readBeyond substituteStep word)

variable {needsArgs : Bool} {x : Char × Option Nat} {names : List Text} {before : Option Char}
  {r lead dir trail args after : Traced} {read : Unit × Traced}

namespace Traced

/-- A text without blanks at its ends. -/
def trim (r : Traced) : Traced :=
  ((r.dropWhile fun x => isBlank x.1).reverse.dropWhile fun x => isBlank x.1).reverse

theorem mem_of_mem_trim (h : x ∈ trim r) : x ∈ r :=
  (List.dropWhile_suffix _).subset
    (mem_reverse.1 ((List.dropWhile_suffix _).subset (mem_reverse.1 h)))

/-- Blanks around a text that has none at its ends. -/
theorem trim_append (hlead : ∀ c ∈ chars lead, isBlank c = true)
    (htrail : ∀ c ∈ chars trail, isBlank c = true)
    (hfirst : (chars dir).head?.any isBlank = false)
    (hlast : (chars dir).getLast?.any isBlank = false) (hne : dir ≠ []) :
    trim (lead ++ (dir ++ trail)) = dir := by
  have hlead' : ∀ x ∈ lead, isBlank x.1 = true := fun x hx => hlead x.1 (List.mem_map_of_mem hx)
  have htrail' : ∀ x ∈ trail.reverse, isBlank x.1 = true := fun x hx =>
    htrail x.1 (List.mem_map_of_mem (mem_reverse.1 hx))
  obtain ⟨x, dir', rfl⟩ := List.exists_cons_of_ne_nil hne
  have hx : isBlank x.1 = false := hfirst
  have hstart : (x :: (dir' ++ trail)).dropWhile (fun x => isBlank x.1) = x :: (dir' ++ trail) :=
    List.dropWhile_cons_of_neg (by simp [hx])
  obtain ⟨y, dir'', hrev⟩ : ∃ y dir'', (x :: dir').reverse = y :: dir'' :=
    List.exists_cons_of_ne_nil (by simp)
  have hy : isBlank y.1 = false := by
    rw [getLast?_chars, ← List.head?_reverse, hrev] at hlast
    exact hlast
  rw [trim, List.dropWhile_append_of_pos hlead', cons_append, hstart, ← cons_append,
    List.reverse_append, List.dropWhile_append_of_pos htrail', hrev,
    List.dropWhile_cons_of_neg (by simp [hy]), ← hrev, List.reverse_reverse]

theorem mem_of_isBlank_eq_false (hlead : ∀ c ∈ chars lead, isBlank c = true)
    (htrail : ∀ c ∈ chars trail, isBlank c = true) (hx : isBlank x.1 = false)
    (h : x ∈ lead ++ (dir ++ trail)) : x ∈ dir := by
  have hother : ∀ s : Traced, (∀ c ∈ chars s, isBlank c = true) → x ∉ s := by
    intro s hs hmem
    rw [hs x.1 (List.mem_map_of_mem hmem)] at hx
    cases hx
  rw [mem_append, mem_append] at h
  rcases h with h | h | h
  · exact absurd h (hother lead hlead)
  · exact h
  · exact absurd h (hother trail htrail)

end Traced

namespace Body

/-- Reads what the removal takes out at a place. -/
def removal? (before : Option Char) (r : Traced) : Option (Unit × Nat) :=
  (removingDirectives settings true before (chars r)).map fun read =>
    ((), Text.readBeyond (chars r) read.2)

/-- The pieces of the rendered text that are removed. -/
def removed (t : Text) : List Traced := (reads removal? none 0 (rendered t)).map Prod.snd

/-- The directives that are removed, without the blanks and the line breaks that go with them. -/
def removals (t : Text) : List Traced := (removed t).map Traced.trim

theorem mem_removals {t : Text} {d : Traced} : d ∈ removals t ↔
    ∃ read ∈ reads removal? none 0 (rendered t), Traced.trim read.2 = d := by
  rw [removals, removed, List.map_map, List.mem_map]
  rfl

theorem removingDirectives_fst {t : Text} {read : Text × Text}
    (h : removingDirectives names needsArgs before t = some read) :
    read.1 = [] := by
  unfold removingDirectives at h
  split at h
  · rw [← Option.some.inj h]
  · obtain ⟨rest, -, rfl⟩ := Option.map_eq_some_iff.1 h
    rfl

theorem perm_reads (before : Option Char) (jump : Nat) (r : Traced) :
    (Traced.sweep (substituteStep (removingDirectives settings true)) before () jump r ++
      ((reads removal? before jump r).map Prod.snd).flatten).Perm (r.drop jump) := by
  induction r generalizing before jump with
  | nil => cases jump <;> exact List.Perm.refl _
  | cons x r ih =>
    cases jump with
    | succ jump => exact ih (some x.1) jump
    | zero =>
      cases hread : removingDirectives settings true before (chars (x :: r)) with
      | none =>
        have hremoval : removal? before (x :: r) = none := by rw [removal?, hread]; rfl
        have hstep : substituteStep (removingDirectives settings true) before ()
            (chars (x :: r)) = ([x.1], (), 0) := by
          rw [substituteStep, hread]
          rfl
        rw [Traced.reads_other hremoval, Traced.sweep, hstep]
        simp only [Traced.written_self]
        exact (ih (some x.1) 0).cons x
      | some read =>
        obtain ⟨new, rest⟩ := read
        obtain rfl : new = [] := removingDirectives_fst hread
        generalize hn : readBeyond (chars (x :: r)) rest = n
        have hremoval : removal? before (x :: r) = some ((), n) := by
          rw [removal?, hread, ← hn]
          rfl
        have hstep : substituteStep (removingDirectives settings true) before ()
            (chars (x :: r)) = ([], (), n) := by
          rw [substituteStep, hread, ← hn]
        rw [Traced.reads_found hremoval, Traced.sweep, hstep, List.map_cons, List.flatten_cons]
        have hsplit : x :: r = (x :: r).take (n + 1) ++ r.drop n :=
          (List.take_append_drop (n + 1) (x :: r)).symm
        have hperm := (ih (some x.1) n).append_left ((x :: r).take (n + 1))
        rw [← hsplit] at hperm
        refine List.Perm.trans ?_ hperm
        exact List.perm_append_comm_assoc _ _ _

/-- **The body of a template is what stays of the rendered text**, without the lines that only
configure the subscription. -/
theorem exists_stays (t : Text) : ∃ stays : Traced,
    (ofTemplate t).text = removeStandaloneSubscribe (chars stays) ∧
      (stays ++ (removed t).flatten).Perm (rendered t) := by
  refine ⟨Traced.substitute (removingDirectives settings true) (rendered t), ?_,
    perm_reads none 0 (rendered t)⟩
  rw [text_eq_rendered, Traced.chars_substitute]
  rfl

/-! ## One removal -/

/-- Whether a directive is one that is removed. -/
def isRemovable (names : List Text) (needsArgs : Bool) (d : Occurrence) : Bool :=
  names.contains d.name && (!needsArgs || d.args.isSome)

/-- A directive is removed if it stands there, and is one of those that are removed. -/
theorem directive?_eq (names : List Text) (needsArgs : Bool) (before : Option Char) (t : Text) :
    directive? names needsArgs before t =
      ((Occurrence.read? before t).filter (isRemovable names needsArgs ·.1)).map Prod.snd := by
  rw [directive?.eq_def]
  split
  case h_2 hsign =>
    rw [Occurrence.read?.eq_def]
    split
    · next cs => exact (hsign cs rfl).elim
    · rfl
  case h_1 cs =>
    simp only [Occurrence.read?]
    cases startsDirective before <;> cases (word cs).isEmpty <;>
      cases Group.args? (cs.drop (word cs).length) <;>
      cases Group.opensArgs (cs.drop (word cs).length) <;> cases needsArgs <;>
      simp [isRemovable, Option.filter, apply_ite]

/-- A directive that is read runs from its at sign to its last parenthesis. -/
theorem directive?_eq_some {t rest : Text} (h : directive? names true before t = some rest) :
    ∃ inner, t = '@' :: (inner ++ ')' :: rest) := by
  rw [directive?_eq] at h
  obtain ⟨⟨d, _⟩, hfound, rfl⟩ := Option.map_eq_some_iff.1 h
  obtain ⟨hread, hd⟩ := Option.filter_eq_some_iff.1 hfound
  obtain ⟨span, rfl, hstands⟩ := Occurrence.read?_eq_some_iff.1 hread
  rcases hstands.form with ⟨hargs, -⟩ | ⟨blanks, args, -, -, -, rfl⟩
  · simp [isRemovable, hargs] at hd
  · exact ⟨d.name ++ (blanks ++ '(' :: args), by simp⟩

theorem directive?_congr {before' : Option Char}
    (h : startsDirective before = startsDirective before') (t : Text) :
    directive? names needsArgs before t = directive? names needsArgs before' t := by
  rw [directive?.eq_def, directive?.eq_def, h]

/-- A directive may start after blanks at the start of a line. -/
theorem startsDirective_of_line (hbefore : before.any (· != '\n') = false) {lead : Text}
    (hlead : ∀ c ∈ lead, isBlank c = true) :
    startsDirective (lead.getLast?.or before) = true := by
  have hblank : ∀ c, isBlank c = true → startsDirective (some c) = true := by
    intro c hc
    have hsign : (c == '@') = false := beq_false_of_ne (by rintro rfl; cases hc)
    simp [startsDirective, hsign, isNameChar_eq_false_of_isBlank hc]
  cases hlast : lead.getLast? with
  | some c => exact hblank c (hlead c (List.mem_of_getLast? hlast))
  | none =>
    cases before with
    | none => rfl
    | some c =>
      obtain rfl : c = '\n' := by simpa using hbefore
      exact hblank _ (by decide)

/-- What is left after a directive if only blanks stand between it and the end of its line. -/
theorem wholeLine?_eq (directive : Text → Option Text) (t : Text) :
    wholeLine? directive t =
      (directive (t.dropWhile fun c => isBlank c && c != '\n')).bind fun rest =>
        if isEmptyOrBlank (rest.takeWhile (· != '\n')) then
          some ((rest.dropWhile (· != '\n')).drop 1)
        else none := by
  rw [wholeLine?]
  refine congrArg _ (funext fun rest => ?_)
  induction rest with
  | nil => rfl
  | cons c rest ih =>
    by_cases hbreak : c = '\n'
    · subst hbreak
      simp [isEmptyOrBlank]
    · cases hblank : isBlank c with
      | true =>
        simp only [isEmptyOrBlank] at ih
        simpa [hbreak, hblank, isEmptyOrBlank] using ih
      | false => simp [hbreak, hblank, isEmptyOrBlank]

/-- A directive that fills its lines has blanks before and after it. -/
theorem wholeLine?_eq_some {directive : Text → Option Text} {t rest : Text}
    (h : wholeLine? directive t = some rest) :
    ∃ lead t' after, t = lead ++ t' ∧ directive t' = some after ∧
      (∀ c ∈ lead, isBlank c = true ∧ c ≠ '\n') ∧
      isEmptyOrBlank (after.takeWhile (· != '\n')) = true ∧
      rest = (after.dropWhile (· != '\n')).drop 1 := by
  rw [wholeLine?_eq] at h
  obtain ⟨after, hread, hend⟩ := Option.bind_eq_some_iff.1 h
  obtain ⟨htrail, hrest⟩ := Option.ite_none_right_eq_some.1 hend
  refine ⟨_, _, after, List.takeWhile_append_dropWhile.symm, hread, fun c hc => ?_, htrail,
    (Option.some.inj hrest).symm⟩
  simpa using all_eq_true.1 List.all_takeWhile c hc

/-- The blanks up to the end of a line, with the break there. -/
theorem exists_trail {t : Text} (h : isEmptyOrBlank (t.takeWhile (· != '\n')) = true) :
    ∃ trail, t = trail ++ (t.dropWhile (· != '\n')).drop 1 ∧ ∀ c ∈ trail, isBlank c = true := by
  refine ⟨t.takeWhile (· != '\n') ++ (t.dropWhile (· != '\n')).take 1, ?_, fun c hc => ?_⟩
  · rw [append_assoc, List.take_append_drop, List.takeWhile_append_dropWhile]
  · rcases mem_append.1 hc with hc | hc
    · exact all_eq_true.1 h c hc
    · have hhead := Text.head?_dropWhile (· != '\n') t
      generalize t.dropWhile (· != '\n') = rest at hc hhead
      cases rest with
      | nil => cases hc
      | cons d rest =>
        obtain rfl : d = '\n' := by simpa using hhead
        obtain rfl := List.mem_singleton.1 hc
        decide

/-- What is removed is a directive and the blanks that go with it. -/
theorem removingDirectives_eq_some {t new rest : Text}
    (h : removingDirectives names true before t = some (new, rest)) :
    ∃ lead dir trail, t = lead ++ (dir ++ (trail ++ rest)) ∧ (∀ c ∈ lead, isBlank c = true) ∧
      (∀ c ∈ trail, isBlank c = true) ∧ directive? names true (lead.getLast?.or before)
        (dir ++ (trail ++ rest)) = some (trail ++ rest) := by
  unfold removingDirectives at h
  split at h
  · next rest' hwhole =>
    obtain ⟨-, rfl⟩ := Prod.mk.inj (Option.some.inj h)
    split at hwhole
    · next hstart =>
      obtain ⟨lead, t', after, rfl, hread, hblank, hline, rfl⟩ := wholeLine?_eq_some hwhole
      have hlead : ∀ c ∈ lead, isBlank c = true := fun c hc => (hblank c hc).1
      obtain ⟨trail, hafter, htrail⟩ := exists_trail hline
      rw [hafter] at hread
      obtain ⟨inner, rfl⟩ := directive?_eq_some hread
      have hbefore : startsDirective none = startsDirective (lead.getLast?.or before) := by
        rw [startsDirective_of_line (by simpa using hstart) hlead]
        rfl
      rw [directive?_congr hbefore] at hread
      exact ⟨lead, '@' :: (inner ++ [')']), trail, by simp, hlead, htrail, by simpa using hread⟩
    · cases hwhole
  · obtain ⟨rest', hread, heq⟩ := Option.map_eq_some_iff.1 h
    obtain ⟨-, rfl⟩ := Prod.mk.inj heq
    obtain ⟨inner, rfl⟩ := directive?_eq_some hread
    exact ⟨[], '@' :: (inner ++ [')']), [], by simp, by simp, by simp, by simpa using hread⟩

/-- A directive is removed, if not with its lines then by itself. -/
theorem exists_removingDirectives {t rest : Text}
    (h : directive? names needsArgs before t = some rest) :
    ∃ read, removingDirectives names needsArgs before t = some read := by
  unfold removingDirectives
  split
  · exact ⟨_, rfl⟩
  · rw [h]
    exact ⟨_, rfl⟩

/-- What is removed at the front of a text. -/
theorem removal?_eq_some {n : Nat} (h : removal? before (x :: r) = some ((), n)) :
    ∃ lead dir trail back inner, x :: r = lead ++ (dir ++ (trail ++ back)) ∧
      (x :: r).take (n + 1) = lead ++ (dir ++ trail) ∧
      (∀ c ∈ chars lead, isBlank c = true) ∧ (∀ c ∈ chars trail, isBlank c = true) ∧
      chars dir = '@' :: (inner ++ [')']) ∧
      directive? settings true ((chars lead).getLast?.or before)
        (chars (dir ++ (trail ++ back))) = some (chars (trail ++ back)) := by
  obtain ⟨⟨new, rest⟩, hremoving, hn⟩ := Option.map_eq_some_iff.1 h
  obtain ⟨-, rfl⟩ := Prod.mk.inj hn
  obtain ⟨_, _, _, hsplit, hlead, htrail, hdirective⟩ := removingDirectives_eq_some hremoving
  obtain ⟨lead, s₁, heq, rfl, hs₁⟩ := Traced.exists_of_chars_eq_append hsplit
  obtain ⟨dir, s₂, rfl, rfl, hs₂⟩ := Traced.exists_of_chars_eq_append hs₁
  obtain ⟨trail, back, rfl, rfl, rfl⟩ := Traced.exists_of_chars_eq_append hs₂
  rw [← chars_append, ← chars_append] at hdirective
  obtain ⟨inner, hinner⟩ := directive?_eq_some hdirective
  have hdir : chars dir = '@' :: (inner ++ [')']) := by
    rw [chars_append dir] at hinner
    have happend : chars dir ++ chars (trail ++ back) =
        '@' :: (inner ++ [')']) ++ chars (trail ++ back) := hinner.trans (by simp)
    exact List.append_cancel_right happend
  have hlength : (lead ++ (dir ++ trail)).length =
      readBeyond (chars (x :: r)) (chars back) + 1 := by
    have hpos : 0 < (lead ++ (dir ++ trail)).length := by
      rw [← length_chars, chars_append, chars_append, hdir]
      simp only [List.length_append, List.length_cons]
      omega
    rw [readBeyond, heq]
    simp only [length_chars, List.length_append] at hpos ⊢
    omega
  refine ⟨lead, dir, trail, back, inner, heq, ?_, hlead, htrail, hdir, hdirective⟩
  have hassoc : lead ++ (dir ++ (trail ++ back)) = lead ++ (dir ++ trail) ++ back := by simp
  rw [← hlength, heq, hassoc, List.take_left]

/-- What is removed at a place of the rendered text. -/
theorem exists_of_mem_removal (h : read ∈ reads removal? none 0 r) :
    ∃ front dir rest, r = front ++ (dir ++ rest) ∧ Traced.trim read.2 = dir ∧
      (∀ x ∈ read.2, isBlank x.1 = false → x ∈ dir) ∧
      directive? settings true (chars front).getLast? (chars (dir ++ rest)) =
        some (chars rest) := by
  obtain ⟨r₁, x, r₂, n, rfl, hread, hspan⟩ := Traced.exists_of_mem_reads h
  obtain ⟨lead, dir, trail, back, inner, heq, htake, hlead, htrail, hdir, hdirective⟩ :=
    removal?_eq_some hread
  rw [htake] at hspan
  refine ⟨r₁ ++ lead, dir, trail ++ back, by rw [heq]; simp, ?_, ?_, ?_⟩
  · rw [hspan]
    refine Traced.trim_append hlead htrail ?_ ?_ ?_
    · rw [hdir]
      rfl
    · rw [hdir, ← cons_append, List.getLast?_concat]
      rfl
    · rintro rfl
      cases hdir
  · intro y hy hblank
    rw [hspan] at hy
    exact Traced.mem_of_isBlank_eq_false hlead htrail hblank hy
  · have hfront : (chars (r₁ ++ lead)).getLast? =
        (chars lead).getLast?.or (lastOr r₁ none) := by
      have happend := Traced.lastOr_append r₁ lead none
      rw [lastOr, Option.or_none] at happend
      exact happend
    rw [hfront]
    exact hdirective

end Body

namespace Declaration.Occurrence

variable {t : Text} (o : Occurrence t)

/-- A declaring directive is removed if no name goes on before it, if only spaces and tabs stand
before its argument list, and if the list is closed. -/
theorem directive?_opening (before : Option Char) (s : Traced) :
    Body.directive? Body.settings true before (chars (o.sign :: (o.opening ++ s))) =
      if Body.startsDirective before && o.blanks.all isSpaceOrTab then
        (Group.read? ('(' :: chars s)).map Prod.snd
      else none := by
  have hchars : chars (o.sign :: (o.opening ++ s)) =
      '@' :: (o.kind.word ++ (o.blanks ++ '(' :: chars s)) := by
    rw [← cons_append, chars_append, o.chars_opening]
    simp
  have hname : (!o.kind.word.isEmpty) = true ∧ Body.settings.contains o.kind.word = true := by
    cases o.kind <;> decide
  rw [hchars, Body.directive?, word_append _ o.blanks_isBlank]
  simp only [hname, Bool.and_true, List.drop_left, Group.args?_blanks o.blanks_isBlank]
  cases Body.startsDirective before with
  | false => rfl
  | true =>
    cases o.blanks.all isSpaceOrTab with
    | false => simp
    | true => cases Group.read? ('(' :: chars s) <;> simp

/-- The occurrence is removed from the rendered text, the whole of it and nothing more. -/
def Deleted : Prop :=
  ∃ d ∈ Body.removals t, d.head? = some o.sign ∧ d.getLast? = some o.closing

/-- The occurrence stands inside of another directive that is removed. -/
def InRemoval : Prop := ∃ d ∈ Body.removals t, o.sign ∈ d.tail

/-- The occurrence is in the rendered text, and its argument list closes at the same place there.
The arguments may have changed. -/
structure Copied (before args after : Traced) : Prop where
  rendered_eq : Body.rendered t = before ++ o.sign :: (o.opening ++ (args ++ o.closing :: after))
  read_eq : Group.read? ('(' :: (chars args ++ ')' :: chars after)) =
    some (chars args, chars after)

/-- What is removed from the at sign of an occurrence on. -/
theorem removal_spec {rest s : Traced} (hsplit : dir ++ rest = o.sign :: (o.opening ++ s))
    (hread : Body.directive? Body.settings true before (chars (dir ++ rest)) =
      some (chars rest)) :
    Body.startsDirective before = true ∧ (∀ c ∈ o.blanks, isSpaceOrTab c = true) ∧
      ∃ args last, dir = o.sign :: (o.opening ++ (args ++ [last])) ∧ s = args ++ last :: rest ∧
        Group.read? ('(' :: chars s) = some (chars args, chars rest) := by
  rw [hsplit, o.directive?_opening] at hread
  split at hread
  · next hcond =>
    rw [Bool.and_eq_true, all_eq_true] at hcond
    refine ⟨hcond.1, hcond.2, ?_⟩
    obtain ⟨⟨_, _⟩, hgroup, rfl⟩ := Option.map_eq_some_iff.1 hread
    have hinside := Group.inside?_eq_some hgroup
    obtain ⟨args, s', rfl, rfl, hs'⟩ := Traced.exists_of_chars_eq_append hinside
    cases s' with
    | nil => cases hs'
    | cons last after =>
      have hafter : chars after = chars rest := (List.cons.inj hs').2
      have hlength : rest.length = after.length := by
        rw [← length_chars, ← length_chars, hafter]
      have happend : dir ++ rest = o.sign :: (o.opening ++ (args ++ [last])) ++ after := by
        simpa using hsplit
      obtain ⟨rfl, rfl⟩ := List.append_inj' happend hlength
      exact ⟨args, last, rfl, rfl, hgroup⟩
  · cases hread

/-- A removal that begins with an occurrence. -/
theorem removal_at (hread : read ∈ reads Body.removal? none 0 (Body.rendered t))
    (hhead : (Traced.trim read.2).head? = some o.sign) :
    (∀ c ∈ o.blanks, isSpaceOrTab c = true) ∧ ∃ before args last after,
      Body.rendered t = before ++ o.sign :: (o.opening ++ (args ++ last :: after)) ∧
      Body.startsDirective (chars before).getLast? = true ∧
      Traced.trim read.2 = o.sign :: (o.opening ++ (args ++ [last])) ∧
      Group.read? ('(' :: chars (args ++ last :: after)) =
        some (chars args, chars after) := by
  have hcarries := o.rendered_carries
  obtain ⟨before, dir, after, hrendered, hdir, -, hdirective⟩ := Body.exists_of_mem_removal hread
  rw [hdir] at hhead ⊢
  obtain ⟨dir', rfl⟩ : ∃ dir', dir = o.sign :: dir' := List.head?_eq_some_iff.1 hhead
  obtain ⟨front, back, hopening⟩ := hcarries.whole (by rw [hrendered]; simp)
  have hnodup := hcarries.nodup
  rw [hrendered] at hnodup
  -- The opening of the occurrence follows its at sign.
  have hsame : before ++ o.sign :: (dir' ++ after) = front ++ o.sign :: (o.opening ++ back) := by
    have heq := hrendered.symm.trans hopening.symm
    simpa using heq
  obtain ⟨rfl, hmore⟩ := Traced.append_cons_unique rfl hnodup hsame
  obtain ⟨hstarts, hnarrow, args, last, hdir', rfl, hgroup⟩ :=
    o.removal_spec (congrArg (o.sign :: ·) hmore) hdirective
  refine ⟨hnarrow, before, args, last, after, ?_, hstarts, hdir', hgroup⟩
  rw [← hopening]
  simp

/-- Something is removed at a copy that has all that a directive needs. -/
theorem exists_removal {before : Traced} (hcopied : o.Copied before args after)
    (hstarts : Body.startsDirective (chars before).getLast? = true)
    (hnarrow : ∀ c ∈ o.blanks, isSpaceOrTab c = true) :
    ∃ read ∈ reads Body.removal? none 0 (Body.rendered t), o.sign ∈ read.2 := by
  rw [hcopied.rendered_eq]
  rcases @Traced.reads_append_cons 0 _ Body.removal? o.sign before
      (o.opening ++ (args ++ o.closing :: after)) none (Nat.zero_le _) with
    ⟨read, hread, htail⟩ | ⟨first, hfirst⟩
  · exact ⟨read, hread, List.mem_of_mem_tail htail⟩
  · have hdirective : Body.directive? Body.settings true (lastOr before none)
        (chars (o.sign :: (o.opening ++ (args ++ o.closing :: after)))) =
          some (chars after) := by
      rw [lastOr, Option.or_none, o.directive?_opening, hstarts,
        all_eq_true.2 hnarrow, chars_append]
      exact congrArg (Option.map Prod.snd) hcopied.read_eq
    obtain ⟨read, hread⟩ := Body.exists_removingDirectives hdirective
    have hremoval : ∃ n, Body.removal? (lastOr before none)
        (o.sign :: (o.opening ++ (args ++ o.closing :: after))) = some ((), n) := by
      rw [Body.removal?, hread]
      exact ⟨_, rfl⟩
    obtain ⟨n, hremoval⟩ := hremoval
    rw [hfirst, Traced.reads_found hremoval]
    exact ⟨_, List.mem_append_right _ List.mem_cons_self, List.mem_cons_self⟩

/-- An occurrence that begins a removal is not inside of one. -/
theorem not_inRemoval (hread : read ∈ reads Body.removal? none 0 (Body.rendered t))
    (hhead : (Traced.trim read.2).head? = some o.sign) : ¬ o.InRemoval := by
  have hnodup := o.rendered_carries.nodup
  rintro ⟨d, hd, htail⟩
  obtain ⟨read', hread', rfl⟩ := Body.mem_removals.1 hd
  obtain rfl : read = read' := Traced.eq_of_mem_reads rfl hnodup hread hread'
    (Traced.mem_of_mem_trim (List.mem_of_head? hhead))
    (Traced.mem_of_mem_trim (List.mem_of_mem_tail htail))
  obtain ⟨-, before, args, last, after, hrendered, -, htrim, -⟩ := o.removal_at hread hhead
  rw [hrendered] at hnodup
  refine (Traced.notMem_of_nodup rfl hnodup).2 ?_
  rw [htrim, List.tail_cons] at htail
  simp only [mem_append, mem_cons, List.not_mem_nil, or_false] at htail ⊢
  rcases htail with htail | htail | htail <;> simp [htail]

/-- A removal that begins with a copy of an occurrence ends with it. -/
theorem getLast?_removal {before : Traced} (hcopied : o.Copied before args after)
    (hread : read ∈ reads Body.removal? none 0 (Body.rendered t))
    (hhead : (Traced.trim read.2).head? = some o.sign) :
    (Traced.trim read.2).getLast? = some o.closing := by
  obtain ⟨-, before', args', last, after', hrendered, -, htrim, hgroup⟩ := o.removal_at hread hhead
  have hnodup := o.rendered_carries.nodup
  rw [hcopied.rendered_eq] at hnodup
  obtain ⟨-, hmore⟩ :=
    Traced.append_cons_unique rfl hnodup (hcopied.rendered_eq.symm.trans hrendered)
  have hsame := List.append_cancel_left hmore
  have hread' : Group.read? ('(' :: chars (args ++ o.closing :: after)) =
      some (chars args, chars after) := by
    rw [chars_append]
    exact hcopied.read_eq
  rw [← hsame, hread'] at hgroup
  have hargs : chars args = chars args' := (Prod.mk.inj (Option.some.inj hgroup)).1
  have hlength : args.length = args'.length := by
    rw [← length_chars, ← length_chars, hargs]
  obtain ⟨-, hlast⟩ := List.append_inj hsame hlength
  rw [htrim, ← (List.cons.inj hlast).1, ← append_assoc, ← cons_append, List.getLast?_concat]

/-- **An occurrence is removed if it is copied with its argument list, no name goes on before the
copy, only spaces and tabs stand before the list, and it is not inside of another directive that is
removed.** -/
theorem deleted_iff :
    o.Deleted ↔ (∃ before args after, o.Copied before args after ∧
        Body.startsDirective (chars before).getLast? = true) ∧
      (∀ c ∈ o.blanks, isSpaceOrTab c = true) ∧ ¬ o.InRemoval := by
  constructor
  · rintro ⟨d, hd, hhead, hlast⟩
    obtain ⟨read, hread, rfl⟩ := Body.mem_removals.1 hd
    obtain ⟨hnarrow, before, args, last, after, hrendered, hstarts, htrim, hgroup⟩ :=
      o.removal_at hread hhead
    obtain rfl : last = o.closing := by
      rw [htrim, ← append_assoc, ← cons_append, List.getLast?_concat] at hlast
      exact Option.some.inj hlast
    rw [chars_append] at hgroup
    exact ⟨⟨before, args, after, ⟨hrendered, hgroup⟩, hstarts⟩, hnarrow,
      o.not_inRemoval hread hhead⟩
  · rintro ⟨⟨before, args, after, hcopied, hstarts⟩, hnarrow, hinside⟩
    obtain ⟨read, hread, hsign⟩ := o.exists_removal hcopied hstarts hnarrow
    obtain ⟨-, dir, -, -, hdir, hmem, -⟩ := Body.exists_of_mem_removal hread
    have hremoval : dir ∈ Body.removals t := Body.mem_removals.2 ⟨read, hread, hdir⟩
    have hhead : dir.head? = some o.sign := by
      have hmemDir := hmem o.sign hsign rfl
      cases dir with
      | nil => cases hmemDir
      | cons x dir =>
        rcases mem_cons.1 hmemDir with rfl | htail
        · rfl
        · exact absurd ⟨_, hremoval, htail⟩ hinside
    subst hdir
    exact ⟨_, hremoval, hhead, o.getLast?_removal hcopied hread hhead⟩

end Declaration.Occurrence
end BladeView
