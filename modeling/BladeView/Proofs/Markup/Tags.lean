import BladeView.Proofs.Markup.YieldLists

/-!
# Lists of yielded attributes in tags

Compiled markup is read tag by tag, to see which lists of yielded attributes each opening tag has. A
list that is put into a line belongs to the tag that is open at that place.
-/
namespace BladeView.Attribute

open Text (after? cut?)
open List (append_assoc cons_append nil_append)

/-! ## Places -/

/-- Where something stands in markup. Opening tags are counted. -/
inductive Place where
  /-- Between tags. -/
  | text (count : Nat)
  /-- Right after an angle bracket. -/
  | opened (count : Nat)
  /-- Inside an opening tag, but not in quotes. -/
  | tag (count : Nat)
  | single (count : Nat)
  | double (count : Nat)
  deriving DecidableEq

namespace Place

/-- How many opening tags have begun. -/
def count : Place → Nat
  | text n | opened n | tag n | single n | double n => n

/-- The tag that an attribute at this place belongs to. -/
def tag? : Place → Option Nat
  | tag n => some n
  | _ => none

/-- The place after a character. -/
def next : Place → Char → Place
  | text n, c => if c == '<' then opened n else text n
  | opened n, c =>
    if c.isAlpha then tag (n + 1) else if c == '<' then opened n else text n
  | tag n, c =>
    if c == '>' then text n else if c == '\x22' then double n
    else if c == '\x27' then single n else tag n
  | single n, c => if c == '\x27' then tag n else single n
  | double n, c => if c == '\x22' then tag n else double n

/-- The place after a text. -/
def after (p : Place) (t : Text) : Place := t.foldl next p

@[simp] theorem after_nil (p : Place) : p.after [] = p := rfl

@[simp] theorem after_cons (p : Place) (c : Char) (t : Text) :
    p.after (c :: t) = (p.next c).after t := rfl

@[simp] theorem after_append (p : Place) (s t : Text) : p.after (s ++ t) = (p.after s).after t :=
  List.foldl_append ..

theorem count_le_next (p : Place) (c : Char) : p.count ≤ (p.next c).count := by
  cases p <;> simp only [next] <;> split_ifs <;> simp [count]

theorem count_of_tag? {p : Place} {n : Nat} (h : p.tag? = some n) : p = tag n := by
  cases p <;> simp_all [tag?]

theorem after_eq_self {p : Place} {t : Text} (h : ∀ c ∈ t, p.next c = p) : p.after t = p := by
  induction t with
  | nil => rfl
  | cons c t ih =>
    obtain ⟨hc, ht⟩ := List.forall_mem_cons.1 h
    rw [after_cons, hc, ih ht]

variable {n : Nat} {t : Text}

theorem after_text (h : '<' ∉ t) : (text n).after t = text n :=
  after_eq_self fun c hc => by simp [next, ne_of_mem_of_not_mem hc h]

theorem after_tag (h : ∀ c ∈ t, c ≠ '>' ∧ c ≠ '\x22' ∧ c ≠ '\x27') : (tag n).after t = tag n :=
  after_eq_self fun c hc => by simp [next, h c hc]

theorem after_single (h : '\x27' ∉ t) : (single n).after t = single n :=
  after_eq_self fun c hc => by simp [next, ne_of_mem_of_not_mem hc h]

theorem after_double (h : '\x22' ∉ t) : (double n).after t = double n :=
  after_eq_self fun c hc => by simp [next, ne_of_mem_of_not_mem hc h]

/-- A value in double quotes leaves a tag where it was. -/
theorem after_tag_quoted {name value : Text}
    (hname : ∀ c ∈ name, c ≠ '>' ∧ c ≠ '\x22' ∧ c ≠ '\x27') (hvalue : '\x22' ∉ value) :
    (tag n).after (name ++ '\x22' :: (value ++ ['\x22'])) = tag n := by
  have hopen : (tag n).next '\x22' = double n := rfl
  rw [after_append, after_tag hname, after_cons, hopen, after_append, after_double hvalue]
  rfl

end Place

/-! ## Lists of tags -/

/-- The value of the list that a text begins with. -/
def listValue? (t : Text) : Option Text :=
  ((Text.after? listHead t).bind (Text.cut? ['\x22'])).map Prod.fst

/-- The list that stands at a place, and the tag that it is an attribute of. -/
def listAt? (p : Place) (t : Text) : Option (Nat × Text) :=
  p.tag?.bind fun n => (listValue? t).map fun x => (n, x)

/-- The lists of all tags of a text that begins at a place, with the number of the tag. -/
def tagLists (p : Place) : Text → List (Nat × Text)
  | [] => []
  | c :: t => (listAt? p (c :: t)).toList ++ tagLists (p.next c) t

theorem listAt?_eq_none {t : Text} (h : ¬ yieldList <+: t) (p : Place) : listAt? p t = none := by
  have hhead : after? listHead t = none := by
    rw [Text.after?_eq_none_iff]
    exact fun hhead => h ((List.prefix_append ..).trans hhead)
  rw [listAt?, listValue?, hhead]
  cases p.tag? <;> rfl

/-- The tags of lists come in order. -/
theorem pairwise_tagLists (p : Place) (t : Text) :
    (∀ x ∈ tagLists p t, p.count ≤ x.1) ∧ (tagLists p t).Pairwise (fun x y => x.1 ≤ y.1) := by
  induction t generalizing p with
  | nil => exact ⟨by simp [tagLists], List.Pairwise.nil⟩
  | cons c t ih =>
    obtain ⟨hle, hordered⟩ := ih (p.next c)
    have hnext := p.count_le_next c
    cases hhere : listAt? p (c :: t) with
    | none =>
      rw [tagLists, hhere]
      exact ⟨fun x hx => Nat.le_trans hnext (hle x hx), hordered⟩
    | some found =>
      have hfound : found.1 = p.count := by
        obtain ⟨n, hn, hvalue⟩ := Option.bind_eq_some_iff.1 hhere
        obtain ⟨value, -, rfl⟩ := Option.map_eq_some_iff.1 hvalue
        rw [Place.count_of_tag? hn]
        rfl
      rw [tagLists, hhere, Option.toList_some, List.singleton_append]
      refine ⟨?_, List.pairwise_cons.2 ⟨fun x hx => ?_, hordered⟩⟩
      · rw [List.forall_mem_cons]
        exact ⟨Nat.le_of_eq hfound.symm, fun x hx => Nat.le_trans hnext (hle x hx)⟩
      · rw [hfound]
        exact Nat.le_trans hnext (hle x hx)

section Quiet

variable {p : Place} {u v : Text}

theorem tagLists_append (h : ∀ s, s <:+ u → s ≠ [] → ¬ yieldList <+: s ++ v) :
    tagLists p (u ++ v) = tagLists (p.after u) v := by
  induction u generalizing p with
  | nil => rfl
  | cons c u ih =>
    have hnone := h (c :: u) List.suffix_rfl (List.cons_ne_nil c u)
    rw [cons_append] at hnone ⊢
    rw [tagLists, listAt?_eq_none hnone, Place.after_cons]
    exact ih fun s hs => h s (hs.trans (List.suffix_cons c u))

/-- In a text without the name of a list no list begins, whatever comes after it. -/
theorem tagLists_quiet (hu : ¬ yieldList <:+: u) {c : Char} (hc : c ∉ yieldList) :
    tagLists p (u ++ c :: v) = tagLists (p.after (u ++ [c])) v := by
  have hquiet : tagLists p (u ++ c :: v) = tagLists (p.after u) (c :: v) := by
    refine tagLists_append fun s hs _ hstands => hu ?_
    exact ((Text.prefix_append_cons_iff hc s v).1 hstands).isInfix.trans hs.isInfix
  have hnone : ¬ yieldList <+: c :: v := by
    rintro ⟨rest, hrest⟩
    exact hc (by rw [← (List.cons.inj hrest).1]; decide)
  rw [hquiet, tagLists, listAt?_eq_none hnone, Place.after_append]
  rfl

end Quiet

theorem listValue?_break (t : Text) : listValue? (t ++ ['\n']) = listValue? t := by
  unfold listValue?
  rw [Text.after?_append (by decide : '\n' ∉ listHead)]
  cases after? listHead t with
  | none => rfl
  | some rest =>
    rw [Option.map_some, Option.bind_some, Option.bind_some]
    cases hcut : cut? ['\x22'] rest with
    | none =>
      have hnone : cut? ['\x22'] (rest ++ ['\n']) = none := by
        rw [Text.cut?_eq_none_iff (by simp)] at hcut ⊢
        rw [Text.isInfix_append_cons_iff (by decide), not_or]
        exact ⟨hcut, by simp⟩
      rw [hnone]
    | some found =>
      obtain ⟨hnot, rfl⟩ := Text.cut?_singleton_eq_some.1 hcut
      have hsome : cut? ['\x22'] (found.1 ++ '\x22' :: found.2 ++ ['\n']) =
          some (found.1, found.2 ++ ['\n']) := Text.cut?_singleton_eq_some.2 ⟨hnot, by simp⟩
      rw [hsome]
      rfl

/-- A break after the last line makes no difference. -/
theorem tagLists_break (p : Place) (t : Text) : tagLists p (t ++ ['\n']) = tagLists p t := by
  induction t generalizing p with
  | nil =>
    have hnone : listAt? p ['\n'] = none := listAt?_eq_none (by decide) p
    have hbreak : tagLists p ['\n'] = (listAt? p ['\n']).toList ++ [] := rfl
    rw [nil_append, hbreak, hnone]
    rfl
  | cons c t ih =>
    have hhere : listAt? p (c :: (t ++ ['\n'])) = listAt? p (c :: t) := by
      rw [listAt?, listAt?, ← cons_append, listValue?_break]
    rw [cons_append, tagLists, tagLists, hhere, ih]

/-! ## Lists that are put into a text -/

/-- A list as it is put into a tag. -/
def inserted (x : Text) : Text := ' ' :: setting yieldList x

/-- What a list may hold: the names and keys of plain pairs, and what stands between them. -/
structure IsPlainList (x : Text) : Prop where
  quiet : ¬ yieldList <:+: x
  chars : ∀ c ∈ x, c ≠ '<' ∧ c ≠ '>' ∧ c ≠ '\x22' ∧ c ≠ '\x27'

section Inserted

variable {x : Text} (hx : IsPlainList x)

include hx

theorem tagLists_setting (p : Place) (v : Text) :
    tagLists p (setting yieldList x ++ v) =
      (p.tag?.map fun n => (n, x)).toList ++ tagLists (p.after (setting yieldList x)) v := by
  have hquote : '\x22' ∉ x := fun hmem => (hx.chars _ hmem).2.2.1 rfl
  -- the list is read at its first character, and nothing in the rest of it
  have hsetting : setting yieldList x = 'd' :: ("ata-yield-attr=" ++ '\x22' :: (x ++ ['\x22'])) := by
    have hname : listHead = 'd' :: ("ata-yield-attr=" ++ ['\x22']) := rfl
    rw [setting_yieldList, hname]
    simp only [cons_append, append_assoc, nil_append]
  have hhere : listAt? p (setting yieldList x ++ v) = p.tag?.map fun n => (n, x) := by
    have hafter : after? listHead (setting yieldList x ++ v) = some (x ++ '\x22' :: v) := by
      rw [Text.after?_eq_some, setting_yieldList]
      simp
    rw [listAt?, listValue?, hafter, Option.bind_some, Text.cut?_singleton_eq_some.2 ⟨hquote, rfl⟩]
    cases p.tag? <;> rfl
  have hquiet : ¬ yieldList <:+: "ata-yield-attr=".toList := by decide +kernel
  have hmark : '\x22' ∉ yieldList := by decide
  have htext : setting yieldList x ++ v =
      'd' :: ("ata-yield-attr=" ++ '\x22' :: (x ++ '\x22' :: v)) := by
    rw [hsetting]
    simp only [cons_append, append_assoc, nil_append]
  rw [htext, tagLists, ← htext, hhere, tagLists_quiet hquiet hmark, tagLists_quiet hx.quiet hmark,
    hsetting]
  simp only [Place.after_cons, Place.after_append, Place.after_nil]

omit hx in
theorem inserted_eq : inserted x = " data-yield-attr=" ++ '\x22' :: (x ++ ['\x22']) := by
  have hhead : ' ' :: listHead = " data-yield-attr=" ++ ['\x22'] := rfl
  rw [inserted, setting_yieldList, ← cons_append, hhead, append_assoc]
  rfl

theorem after_tag_inserted (n : Nat) : (Place.tag n).after (inserted x) = .tag n := by
  have hname : ∀ c ∈ " data-yield-attr=".toList, c ≠ '>' ∧ c ≠ '\x22' ∧ c ≠ '\x27' := by
    simp
  rw [inserted_eq]
  exact Place.after_tag_quoted hname fun hmem => (hx.chars _ hmem).2.2.1 rfl

/-- A list that is put before the end of a tag or of a line leaves the places after it as they
were. -/
theorem after_inserted_cons (p : Place) {c : Char} (hc : c = '>' ∨ c = '/' ∨ c = '\n') (w : Text) :
    (p.after (inserted x)).after (c :: w) = p.after (c :: w) := by
  have htext (n : Nat) : (Place.text n).after (inserted x) = .text n := by
    refine Place.after_text ?_
    rw [inserted_eq]
    simpa using fun hmem => (hx.chars _ hmem).1 rfl
  cases p with
  | text n => rw [htext]
  | opened n =>
    have hspace : (Place.opened n).after (inserted x) = (Place.text n).after (inserted x) := rfl
    have hnext : (Place.text n).next c = (Place.opened n).next c := by
      rcases hc with rfl | rfl | rfl <;> rfl
    rw [hspace, htext, Place.after_cons, Place.after_cons, hnext]
  | tag n => rw [after_tag_inserted hx]
  | single n =>
    have hmark : '\x27' ∉ inserted x := by
      rw [inserted_eq]
      simpa using fun hmem => (hx.chars _ hmem).2.2.2 rfl
    rw [Place.after_single hmark]
  | double n =>
    -- the first quote ends the value that the list is put into, the second begins another
    have hname : '\x22' ∉ " data-yield-attr=".toList := by simp
    have hfirst : (Place.double n).next '\x22' = .tag n := rfl
    have hchars : ∀ c ∈ x, c ≠ '>' ∧ c ≠ '\x22' ∧ c ≠ '\x27' := fun c hmem => (hx.chars c hmem).2
    have hinserted : (Place.double n).after (inserted x) = .double n := by
      rw [inserted_eq, Place.after_append, Place.after_double hname, Place.after_cons, hfirst,
        Place.after_append, Place.after_tag hchars]
      rfl
    rw [hinserted]

/-- A list that is put into a line is read in the tag it is put into. -/
theorem tagLists_inserted (p : Place) {u w : Text} (h : ¬ yieldList <:+: u ++ w)
    (hstay : ((p.after u).after (inserted x)).after (w ++ ['\n']) = (p.after u).after (w ++ ['\n']))
    (v : Text) :
    tagLists p (u ++ (inserted x ++ (w ++ '\n' :: v))) =
      ((p.after u).tag?.map fun n => (n, x)).toList ++ tagLists (p.after (u ++ w ++ ['\n'])) v := by
  have hu : ¬ yieldList <:+: u := fun hin => h (hin.trans (List.prefix_append u w).isInfix)
  have hw : ¬ yieldList <:+: w := fun hin => h (hin.trans (List.suffix_append u w).isInfix)
  have htag : ((p.after u).next ' ').tag? = (p.after u).tag? := by cases p.after u <;> rfl
  have hplace : p.after (u ++ [' ']) = (p.after u).next ' ' := by rw [Place.after_append]; rfl
  have hlast : (((p.after u).next ' ').after (setting yieldList x)).after (w ++ ['\n']) =
      p.after (u ++ w ++ ['\n']) := by
    rw [append_assoc, Place.after_append p]
    exact hstay
  rw [inserted, cons_append, tagLists_quiet hu (by decide), hplace, tagLists_setting hx, htag,
    tagLists_quiet hw (by decide), hlast]

/-- An attribute is put into the tag that the first closing bracket of a line ends, if any. -/
theorem tagLists_insertAttribute (p : Place) {b : Text} (h : ¬ yieldList <:+: b) (v : Text) :
    tagLists p (insertAttribute (inserted x) b ++ '\n' :: v) =
      ((p.after (b.takeWhile (· != '>'))).tag?.map fun n => (n, x)).toList ++
        tagLists (p.after (b ++ ['\n'])) v := by
  unfold insertAttribute
  split
  case h_1 tag rest hcut =>
    have hbracket : cut? ['>'] b = some (tag, rest) := hcut
    obtain ⟨htag, rfl⟩ := Text.cut?_singleton_eq_some.1 hbracket
    have htake : (tag ++ '>' :: rest).takeWhile (· != '>') = tag := by
      rw [Text.takeWhile_append_cons rfl, List.takeWhile_eq_self_iff]
      intro c hc
      simpa using ne_of_mem_of_not_mem hc htag
    rw [htake]
    split
    case isTrue hend =>
      obtain ⟨front, rfl⟩ := List.isSuffixOf_iff_suffix.1 hend
      have hfront : front ++ "/".toList ++ '>' :: rest = front ++ ('/' :: '>' :: rest) := by simp
      have htext : (front ++ "/".toList).dropLast ++ inserted x ++ "/>".toList ++ rest ++ '\n' :: v =
          front ++ (inserted x ++ (('/' :: '>' :: rest) ++ '\n' :: v)) := by simp
      have hslash : (p.after (front ++ "/".toList)).tag? = (p.after front).tag? := by
        rw [Place.after_append]
        cases p.after front <;> rfl
      rw [hfront] at h ⊢
      rw [htext, hslash]
      exact tagLists_inserted hx p h (after_inserted_cons hx _ (.inr (.inl rfl)) _) v
    case isFalse =>
      have htext : tag ++ inserted x ++ ">".toList ++ rest ++ '\n' :: v =
          tag ++ (inserted x ++ (('>' :: rest) ++ '\n' :: v)) := by simp
      rw [htext]
      exact tagLists_inserted hx p h (after_inserted_cons hx _ (.inl rfl) _) v
  case h_2 hcut =>
    have hbracket : cut? ['>'] b = none := hcut
    rw [Text.cut?_eq_none_iff (by simp)] at hbracket
    have htake : b.takeWhile (· != '>') = b := by
      rw [List.takeWhile_eq_self_iff]
      intro c hc
      rw [bne_iff_ne]
      rintro rfl
      obtain ⟨front, rest, rfl⟩ := List.append_of_mem hc
      exact hbracket ⟨front, rest, by simp⟩
    have hread := tagLists_inserted hx p (w := []) (by rwa [List.append_nil])
      (after_inserted_cons hx (p.after b) (.inr (.inr rfl)) []) v
    rw [nil_append, List.append_nil] at hread
    rw [htake, append_assoc, hread]

end Inserted

end BladeView.Attribute
