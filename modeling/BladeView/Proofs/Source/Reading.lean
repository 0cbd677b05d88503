import BladeView.Asset.Basic
import BladeView.Declaration.Reader
import BladeView.Header
import BladeView.Proofs.Reference.Mention
import BladeView.Proofs.Text.Keyword

/-!
# Readings that end in a piece

The readers of regions, script elements and directives, at a place of a piece of text that
is followed by an at sign. A reader that only needs words reads the same with and without what
follows; one that looks for an end reads the same if the end stands in the piece.
-/
namespace BladeView

open Option (bind_eq_bind bind_eq_some_iff)

variable {s name : Text} {close : Text → Option Text}

/-! ## Regions -/

namespace Text

theorem cut?_eq_upTo? {piece : Text} (hne : piece ≠ []) (t : Text) :
    cut? piece t = upTo? (after? piece) t := by
  have hnil : after? piece [] = none := by
    obtain ⟨c, piece, rfl⟩ := List.exists_cons_of_ne_nil hne
    rfl
  induction t with
  | nil =>
    rw [cut?, upTo?, hnil, if_neg (by simp [hne])]
    rfl
  | cons c t ih => rw [cut?, upTo?, ih]

end Text

namespace Region

theorem ledBy_comment? (new : Text) :
    Text.LedBy "\x7b\x7b--" fun t => (comment? t).map fun rest => (new, rest) := by
  intro t value rest hread
  obtain ⟨rest', hcomment, heq⟩ := Option.map_eq_some_iff.1 hread
  cases heq
  obtain ⟨inside, hinside, hcut⟩ := bind_eq_some_iff.1 hcomment
  obtain ⟨⟨before, rest'⟩, hcut, heq⟩ := bind_eq_some_iff.1 hcut
  cases heq
  refine ⟨inside, Text.afterFold?_of_after? (Text.forall_mem_of_all (by decide)) hinside, ?_⟩
  rw [Text.cut?_eq_upTo? (by decide)] at hcut
  exact Text.upTo?_suffix (fun _ _ hclose => ⟨_, (Text.after?_eq_some.1 hclose).symm⟩) hcut

theorem ledBy_named? (name : Text) : Text.LedBy ("@" ++ name) (named? name) := by
  intro t value rest hread
  obtain ⟨inside, hinside, hcut⟩ := bind_eq_some_iff.1 hread
  exact ⟨inside, (Option.filter_eq_some_iff.1 hinside).1,
    Text.upTo?_suffix (fun _ _ => Text.afterFold?_suffix) hcut⟩

theorem script?_suffix (hclose : ∀ s rest, close s = some rest → rest <:+ s)
    {t attributes body rest : Text} (h : script? close t = some (attributes, body, rest)) :
    ∃ inside, Text.afterFold? "<script" t = some inside ∧ rest <:+ inside := by
  simp only [script?, bind_eq_bind, bind_eq_some_iff] at h
  obtain ⟨inside, hinside, ⟨attributes', inner⟩, htag, ⟨body', rest'⟩, hbody, heq⟩ := h
  cases heq
  refine ⟨inside, (Option.filter_eq_some_iff.1 hinside).1, ?_⟩
  have hinner : inner <:+ inside := by
    rw [tagRest?, Text.cut?_eq_upTo? (by decide)] at htag
    exact Text.upTo?_suffix (fun _ _ h => ⟨_, (Text.after?_eq_some.1 h).symm⟩) htag
  exact (Text.upTo?_suffix hclose hbody).trans hinner

/-- A comment that is closed in a piece. -/
theorem comment?_append (h : (Text.after? "\x7b\x7b--" s).isSome → (comment? s).isSome)
    (hs : s ≠ []) (u : Text) : comment? (s ++ '@' :: u) = (comment? s).map (· ++ '@' :: u) := by
  have hclose : Text.EndsAtSign (Text.after? "--\x7d\x7d") := Text.endsAtSign_after? _ (by decide)
  refine (Text.endsAtSign_after? _ (by decide)).bind_of_isSome hs u h fun inside rest hread => ?_
  obtain ⟨⟨before, rest⟩, hcut, heq⟩ := bind_eq_some_iff.1 hread
  cases heq
  rw [Text.cut?_eq_upTo? (by decide)] at hcut ⊢
  rw [hclose.upTo? rfl hcut u]
  rfl

/-- A region that is closed in a piece. -/
theorem named?_append (hname : ∀ k ∈ name, foldsTo k '@' = false)
    (h : (Text.afterFoldWord? ("@" ++ name) s).isSome → (named? name s).isSome) (hs : s ≠ [])
    (u : Text) :
    named? name (s ++ '@' :: u) =
      (named? name s).map fun found => (found.1, found.2 ++ '@' :: u) := by
  have hletters : ∀ k ∈ "end".toList, foldsTo k '@' = false := Text.forall_mem_of_all (by decide)
  have hend : ∀ k ∈ "end" ++ name, foldsTo k '@' = false := by
    intro k hk
    exact (List.mem_append.1 hk).elim (hletters k) (hname k)
  exact (Text.endsAtSign_afterFold? '@' hname).filter_endsWord.bind_of_isSome hs u h
    fun inside found hread => (Text.endsAtSign_afterFold? '@' hend).upTo? rfl hread u

/-- A script element that is closed in a piece. -/
theorem script?_append (hclose : Text.EndsAtSign close) (hnil : close [] = none)
    (h : (Text.afterFoldWord? "<script" s).isSome → (script? close s).isSome) (hs : s ≠ [])
    (u : Text) :
    script? close (s ++ '@' :: u) =
      (script? close s).map fun found => (found.1, found.2.1, found.2.2 ++ '@' :: u) := by
  have hbracket : Text.EndsAtSign (Text.after? ">") := Text.endsAtSign_after? _ (by decide)
  have hword : Text.EndsAtSign (Text.afterFoldWord? "<script") :=
    (Text.endsAtSign_afterFold? '<' (Text.forall_mem_of_all (by decide))).filter_endsWord
  refine hword.bind_of_isSome hs u h fun inside found hread => ?_
  obtain ⟨⟨attributes, inner⟩, htag, hinner⟩ := bind_eq_some_iff.1 hread
  obtain ⟨⟨body, rest⟩, hbody, heq⟩ := bind_eq_some_iff.1 hinner
  cases heq
  rw [tagRest?, Text.cut?_eq_upTo? (by decide)] at htag ⊢
  simp only [hbracket.upTo? rfl htag u, bind_eq_bind, Option.bind_some, hclose.upTo? hnil hbody u]
  rfl

/-- A closing tag ends with its bracket. -/
theorem endsAtSign_closingTag? (hname : ∀ k ∈ name, foldsTo k '@' = false) :
    Text.EndsAtSign (closingTag? name) := by
  intro s hs u
  have hslash : ∀ k ∈ '/' :: name, foldsTo k '@' = false :=
    List.forall_mem_cons.2 ⟨by decide, hname⟩
  refine (Text.endsAtSign_afterFold? '<' hslash).bind hs u fun rest _ => ?_
  rw [Text.trimStart_append_sign]
  exact Text.after?_append (by decide) _ _

end Region

/-! ## Directives -/

namespace Header

theorem ledBy_directive? (hname : ∀ k ∈ name, foldsTo k k = true) :
    Text.LedBy name (directive? name) := by
  intro t value rest hread
  obtain ⟨inside, hinside, hparen⟩ := bind_eq_some_iff.1 hread
  refine ⟨inside, Text.afterFold?_of_after? hname hinside, ?_⟩
  dsimp only at hparen
  split at hparen
  · obtain ⟨-, rfl⟩ := Prod.mk.inj (Option.some.inj hparen)
    exact Text.trimStart_suffix inside
  · cases hparen

theorem dropQuote_suffix (t : Text) : dropQuote t <:+ t := by
  cases t with
  | nil => exact List.suffix_rfl
  | cons c t =>
    rw [dropQuote]
    split
    · exact List.suffix_cons c t
    · exact List.suffix_rfl

theorem ledBy_viewType? : Text.LedBy "@viewtype" viewType? := by
  intro t value rest hread
  obtain ⟨inside, hinside, hparen⟩ := bind_eq_some_iff.1 hread
  refine ⟨inside, hinside, ?_⟩
  split at hparen
  case h_1 more hmore =>
    have hsuffix : more <:+ inside :=
      (List.suffix_cons '(' more).trans (hmore ▸ Text.trimStart_suffix inside)
    refine List.IsSuffix.trans ?_ hsuffix
    unfold quotedWord? at hparen
    dsimp only at hparen
    split at hparen
    case h_1 c rest' hrest =>
      split at hparen
      · obtain ⟨-, rfl⟩ := Prod.mk.inj (Option.some.inj hparen)
        refine (List.suffix_cons c rest').trans (hrest ▸ ?_)
        exact (Text.trimStart_suffix _).trans ((dropQuote_suffix _).trans
          ((List.dropWhile_suffix _).trans ((dropQuote_suffix _).trans (Text.trimStart_suffix _))))
      · cases hparen
    case h_2 => cases hparen
  case h_2 => cases hparen

theorem startsWith_paren_append (s u : Text) :
    Text.startsWith "(" (s ++ '@' :: u) = Text.startsWith "(" s := by
  cases s <;> rfl

/-- A directive is read up to the parenthesis that opens its argument list. -/
theorem directive?_append {word : Text} (hword : '@' ∉ word) (hs : s ≠ []) (u : Text) :
    directive? ('@' :: word) (s ++ '@' :: u) =
      (directive? ('@' :: word) s).map fun found => (found.1, found.2 ++ '@' :: u) := by
  refine (Text.endsAtSign_after? '@' hword).bind hs u fun rest _ => ?_
  simp only [Text.trimStart_append_sign, startsWith_paren_append]
  split <;> rfl

theorem dropQuote_append (s u : Text) : dropQuote (s ++ '@' :: u) = dropQuote s ++ '@' :: u := by
  cases s with
  | nil => rfl
  | cons c s =>
    rw [List.cons_append, dropQuote, dropQuote]
    split <;> rfl

theorem quotedWord?_append (s u : Text) :
    quotedWord? ')' (s ++ '@' :: u) =
      (quotedWord? ')' s).map fun found => (found.1, found.2 ++ '@' :: u) := by
  have htake : ∀ x : Text, (x ++ '@' :: u).takeWhile (fun c => isWordChar c || c == '-') =
      x.takeWhile fun c => isWordChar c || c == '-' :=
    fun x => Text.takeWhile_append_cons (by decide) x u
  have hdrop : ∀ x : Text, (x ++ '@' :: u).dropWhile (fun c => isWordChar c || c == '-') =
      (x.dropWhile fun c => isWordChar c || c == '-') ++ '@' :: u :=
    fun x => Text.dropWhile_append_cons (by decide) x u
  unfold quotedWord?
  simp only [Text.trimStart_append_sign, dropQuote_append, htake, hdrop]
  cases Text.trimStart
      (dropQuote ((dropQuote (Text.trimStart s)).dropWhile fun c => isWordChar c || c == '-')) with
  | nil => rfl
  | cons c rest =>
    simp only [List.cons_append]
    split <;> rfl

/-- A view type directive ends with its parenthesis. -/
theorem viewType?_append (hs : s ≠ []) (u : Text) :
    viewType? (s ++ '@' :: u) =
      (viewType? s).map fun found => (found.1, found.2 ++ '@' :: u) := by
  refine (Text.endsAtSign_afterFold? '@' (Text.forall_mem_of_all (by decide))).bind hs u
    fun rest _ => ?_
  rw [Text.trimStart_append_sign]
  cases Text.trimStart rest with
  | nil => rfl
  | cons c rest =>
    rw [List.cons_append]
    split
    case h_1 heq =>
      cases heq
      exact quotedWord?_append rest u
    case h_2 hother =>
      split
      case h_1 heq =>
        cases heq
        exact absurd rfl (hother _)
      case h_2 => rfl

end Header
end BladeView
