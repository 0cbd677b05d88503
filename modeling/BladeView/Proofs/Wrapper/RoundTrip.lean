import BladeView.Proofs.Block.Fragment
import BladeView.Proofs.Text.Pieces
import BladeView.Wrapper.Split

/-!
# Wrapper configurations in the body

A wrapper's configuration is printed into the body as a marker statement, found there again, and
its subscription is taken out of the printed object. Printing, finding and taking out agree: a
configuration of plain names goes through the body unchanged, whatever stands around it.

## Main statements

* `WrapperSplit.ofBody?_marker`: the round trip through a body.
-/
namespace BladeView

open Name (bare isIdentifier isIdentifier_spec)
open Quoted (double double_of_names)
open Text (after? after?_eq_some trim)
open List (all_eq_true append_assoc cons_append map_id mem_append mem_cons mem_map nil_append)
open Option (bind_eq_bind bind_some getD_some)

variable {t name : Text}

theorem Text.trimStart_space (h : t.head?.any isBlank = false) : trimStart (' ' :: t) = t := by
  rw [trimStart, List.dropWhile_cons_of_pos rfl, dropWhile_eq_self_of_head? h]

/-- Characters at both ends that are dropped anyway make no difference. -/
theorem Text.dropEndWhile_dropWhile_between {p : Char → Bool} {c d : Char} (hc : p c = true)
    (hd : p d = true) (t : Text) :
    dropEndWhile p ((c :: (t ++ [d])).dropWhile p) = dropEndWhile p (t.dropWhile p) := by
  rw [List.dropWhile_cons_of_pos hc, List.dropWhile_append]
  split
  case isTrue hempty => simp [List.isEmpty_iff.1 hempty, hd]
  case isFalse => simp [dropEndWhile, hd]

/-! ## Subscriptions -/

namespace Subscription

/-- Everything, nothing, or at least one key, all of them names. -/
def IsPlain : Subscription → Prop
  | all => True
  | off => True
  | keys names => names ≠ [] ∧ ∀ name ∈ names, isIdentifier name = true

/-- What stands between the brackets of a list of keys. -/
def keyList (names : List Text) : Text := Text.join "," (names.map double)

theorem toScript_keys (names : List Text) :
    toScript (keys names) = '[' :: (keyList names ++ [']']) := rfl

section Names

variable {names : List Text} (hnames : ∀ name ∈ names, isIdentifier name = true)

include hnames

theorem isArgument_double {entry : Text} (h : entry ∈ names.map double) :
    IsArgument entry := by
  obtain ⟨name, hname, rfl⟩ := mem_map.1 h
  have hidentifier := hnames name hname
  rw [double_of_names (isIdentifier_spec hidentifier).2]
  exact .quoted rfl hidentifier fun hmark => by cases hmark

theorem split_keyList : TopLevel.split (keyList names) = names.map double := by
  have htrim : ∀ entry ∈ names.map double, trim entry = entry :=
    fun entry hentry => (isArgument_double hnames hentry).trim
  rw [keyList, TopLevel.split_join fun entry hentry => by
    rw [htrim entry hentry]
    exact isArgument_double hnames hentry]
  exact (List.map_congr_left htrim).trans (map_id _)

theorem bare_double (h : name ∈ names) : bare (double name) = name := by
  have hidentifier := hnames name h
  rw [double_of_names (isIdentifier_spec hidentifier).2, bare,
    Name.unquote?_quoted rfl hidentifier fun hmark => by cases hmark]

/-- The characters of a list of keys. -/
theorem mem_keyList {c : Char} (hc : c ∈ keyList names) :
    isNameChar c = true ∨ c = '\x22' ∨ c = ',' := by
  refine Text.join_induction (P := fun t => c ∈ t → isNameChar c = true ∨ c = '\x22' ∨ c = ',')
    (by simp) ?_ (fun hcomma => .inr (.inr (List.mem_singleton.1 hcomma))) ?_ hc
  · intro s t hs ht hst
    exact (mem_append.1 hst).elim hs ht
  · intro entry hentry hmem
    obtain ⟨name, hname, rfl⟩ := mem_map.1 hentry
    have hchars := (isIdentifier_spec (hnames name hname)).2
    rw [double_of_names hchars] at hmem
    simp only [mem_cons, mem_append, List.not_mem_nil, or_false] at hmem
    rcases hmem with rfl | hmem | rfl
    · exact .inr (.inl rfl)
    · exact .inl (hchars c hmem)
    · exact .inr (.inl rfl)

theorem isFlat_keyList : IsFlat (keyList names) :=
  Text.join_induction .nil (fun _ _ => .append) rfl
    fun _ hentry => (isArgument_double hnames hentry).isFlat

end Names

variable {s : Subscription}

/-- A subscription is read from its script form. -/
theorem read_toScript (hs : s.IsPlain) : read s.toScript = s := by
  cases s with
  | all => rfl
  | off => rfl
  | keys names =>
    obtain ⟨hne, hnames⟩ := hs
    have htrim : trim (toScript (keys names)) = toScript (keys names) := by
      rw [toScript_keys]
      exact Text.trim_eq_self_of_ends rfl (by rw [← cons_append, List.getLast?_concat]; rfl)
    have hother : allSpellings.contains (toScript (keys names)) = false := by
      rw [toScript_keys]
      simp [allSpellings]
    have hfalse : (toScript (keys names) == "false".toList) = false := by
      rw [toScript_keys]
      simp
    have hinner : Text.enclosed? '[' ']' (toScript (keys names)) = some (keyList names) := by
      simp [toScript_keys, Text.enclosed?]
    have hbare : ((names.map double).map bare).filter (fun key => !key.isEmpty) =
        names := by
      have hnames' : (names.map double).map bare = names := by
        rw [List.map_map]
        exact (List.map_congr_left fun name hname => bare_double hnames hname).trans (map_id _)
      rw [hnames', List.filter_eq_self]
      intro name hname
      obtain ⟨⟨c, rest, rfl, -⟩, -⟩ := isIdentifier_spec (hnames name hname)
      rfl
    obtain ⟨name, more, rfl⟩ := List.exists_cons_of_ne_nil hne
    simp only [read, htrim, hother, hfalse, hinner, getD_some, split_keyList hnames, hbare,
      if_false, Bool.false_eq_true]

theorem notMem_toScript (hs : s.IsPlain) {c : Char} (hname : isNameChar c = false)
    (hother : c ∉ ("[],\"" : Text)) : c ∉ s.toScript := by
  have hword : ∀ word : Text, word.all isNameChar = true → c ∉ word := by
    intro word hword hmem
    rw [all_eq_true.1 hword c hmem] at hname
    cases hname
  cases s with
  | all => exact hword "true" (by decide)
  | off => exact hword "false" (by decide)
  | keys names =>
    intro hmem
    have hchar : isNameChar c = true ∨ c ∈ ("[],\"" : Text) := by
      rw [toScript_keys] at hmem
      simp only [mem_cons, mem_append, List.not_mem_nil, or_false] at hmem
      rcases hmem with rfl | hmem | rfl
      · exact .inr (by simp)
      · rcases mem_keyList hs.2 hmem with h | rfl | rfl
        · exact .inl h
        · exact .inr (by simp)
        · exact .inr (by simp)
      · exact .inr (by simp)
    rw [hname] at hchar
    exact hother (hchar.resolve_left (by simp))

end Subscription

/-! ## Configurations -/

namespace WrapperConfig

/-- The tag, the keys and the names and values of attributes are names. -/
structure IsPlain (c : WrapperConfig) : Prop where
  tag : ∀ tag, c.tag = some tag → isIdentifier tag = true
  follow : c.follow.IsPlain
  subscribe : ∀ s, c.subscribe = some s → s.IsPlain
  attributes : ∀ a ∈ c.attributes, isIdentifier a.1 = true ∧ isIdentifier a.2 = true

/-- The tag as it is printed. -/
def tagScript (c : WrapperConfig) : Text := (c.tag.map double).getD "null"

/-- The object up to the comma before the subscription, without its brace. -/
def start (c : WrapperConfig) : Text :=
  " enable: " ++ (if c.enabled then ("true" : Text) else "false") ++ ", tag: " ++ c.tagScript
    ++ ", follow: " ++ c.follow.toScript

/-- The entry of a subscription. -/
def subscribeEntry (s : Subscription) : Text := " subscribe: " ++ s.toScript ++ ","

/-- The attributes as they are printed. -/
def attributeList (c : WrapperConfig) : Text :=
  Text.join ", " (c.attributes.map fun a => double a.1 ++ ": " ++ a.2)

/-- The inside of the object after the subscription. -/
def ending (c : WrapperConfig) : Text := " attributes: \x7b" ++ c.attributeList ++ "\x7d "

/-- The inside of the object. -/
def inside (c : WrapperConfig) : Text :=
  c.start ++ ("," ++ ((c.subscribe.map subscribeEntry).getD [] ++ c.ending))

theorem object_eq (c : WrapperConfig) : c.object = '\x7b' :: (c.inside ++ ['\x7d']) := by
  have hjoin (x y z : Text) : Text.join [] [x, y, z] = x ++ y ++ z := by
    simp [Text.join_cons_cons, Text.join_singleton]
  have hbrace : ("\x7b enable: " : Text) = '\x7b' :: " enable: ".toList := rfl
  have hend : ("\x7d \x7d" : Text) = "\x7d ".toList ++ ['\x7d'] := rfl
  unfold object inside start ending tagScript attributeList subscribeEntry
  dsimp only
  rw [hbrace, hend]
  simp only [hjoin, append_assoc, cons_append]

variable {c : WrapperConfig}

/-! ## The object is one group -/

theorem isFlat_name (h : isIdentifier name = true) : IsFlat name :=
  .of_plain fun d hd => isPlainCode_of_isNameChar ((isIdentifier_spec h).2 d hd)

theorem isFlat_tagScript (h : c.IsPlain) : IsFlat c.tagScript := by
  unfold tagScript
  cases htag : c.tag with
  | none => exact .of_plain (all_eq_true.1 (by decide))
  | some tag => exact Quoted.isFlat_double (isIdentifier_spec (h.tag tag htag)).2

theorem isFlat_attributeList (h : c.IsPlain) : IsFlat c.attributeList := by
  refine Text.join_induction .nil (fun _ _ => .append) rfl fun entry hentry => ?_
  obtain ⟨a, ha, rfl⟩ := mem_map.1 hentry
  obtain ⟨hname, hvalue⟩ := h.attributes a ha
  have hcolon : IsFlat ": " := rfl
  exact ((Quoted.isFlat_double (isIdentifier_spec hname).2).append hcolon).append
    (isFlat_name hvalue)

end WrapperConfig

open Nesting (IsNeutral)

theorem Subscription.isNeutral_toScript {s : Subscription} (hs : s.IsPlain) :
    IsNeutral s.toScript := by
  cases s with
  | all => exact .flat rfl
  | off => exact .flat rfl
  | keys names =>
    rw [toScript_keys]
    exact .group rfl (.flat (isFlat_keyList hs.2))

namespace WrapperConfig

variable {c : WrapperConfig}

theorem isNeutral_inside (h : c.IsPlain) : IsNeutral c.inside := by
  have hflat {t : Text} (ht : t.all isPlainCode = true) : IsNeutral t :=
    .flat (.of_plain (all_eq_true.1 ht))
  have hstart : IsNeutral c.start := by
    have hbool : IsNeutral (if c.enabled then ("true" : Text) else "false") := by
      cases c.enabled <;> exact hflat rfl
    exact (((((hflat rfl).append hbool).append (hflat rfl)).append
      (.flat (isFlat_tagScript h))).append (hflat rfl)).append
      (Subscription.isNeutral_toScript h.follow)
  have hsubscribe : IsNeutral ((c.subscribe.map subscribeEntry).getD []) := by
    cases hs : c.subscribe with
    | none => exact .flat rfl
    | some s =>
      exact ((hflat rfl).append (Subscription.isNeutral_toScript (h.subscribe s hs))).append
        (hflat rfl)
  have hending : IsNeutral c.ending := by
    have hbraces {x y z u : Text} (hx : x = y ++ ['\x7b']) (hz : z = '\x7d' :: u) (t : Text) :
        x ++ t ++ z = y ++ ('\x7b' :: (t ++ ['\x7d'])) ++ u := by
      rw [hx, hz]
      simp
    have hopen : (" attributes: \x7b" : Text) = " attributes: " ++ ['\x7b'] := rfl
    have hclose : ("\x7d " : Text) = '\x7d' :: " ".toList := rfl
    have heq : c.ending = " attributes: " ++ ('\x7b' :: (c.attributeList ++ ['\x7d'])) ++ " " :=
      hbraces hopen hclose _
    rw [heq]
    exact ((hflat rfl).append (.group rfl (.flat (isFlat_attributeList h)))).append (hflat rfl)
  have hcomma : IsNeutral "," := hflat rfl
  exact hstart.append (hcomma.append (hsubscribe.append hending))

/-- The object is one group, whatever follows it. -/
theorem group_read?_object (h : c.IsPlain) (rest : Text) :
    Group.read? (c.object ++ rest) = some (c.inside, rest) := by
  have hobject : c.object ++ rest = '\x7b' :: (c.inside ++ '\x7d' :: rest) := by
    simp [object_eq]
  rw [hobject, Nesting.group_read?_interpolation (isNeutral_inside h [] (.inl ⟨rfl, rfl⟩))]

end WrapperConfig

/-! ## The marker -/

namespace WrapperSplit

open WrapperConfig (markerName endMarker)

theorem marker?_object (c : WrapperConfig) (rest : Text) :
    marker? (c.marker ++ rest) = some (c.object ++ ';' :: rest) := by
  have hmarker : c.marker ++ rest =
      markerName ++ (' ' :: '=' :: ' ' :: (c.object ++ ';' :: rest)) := by
    have hequals : (" = " : Text) = [' ', '=', ' '] := rfl
    have hsemicolon : (";" : Text) = [';'] := rfl
    rw [WrapperConfig.marker, hequals, hsemicolon]
    simp only [append_assoc, cons_append, nil_append]
  have hequals : after? "=" ('=' :: ' ' :: (c.object ++ ';' :: rest)) =
      some (' ' :: (c.object ++ ';' :: rest)) := after?_eq_some.2 rfl
  rw [hmarker, marker?, after?_eq_some.2 rfl]
  simp only [bind_eq_bind, bind_some]
  rw [Text.trimStart_space rfl, hequals]
  simp only [bind_some]
  rw [WrapperConfig.object_eq, cons_append, Text.trimStart_space rfl]
  rfl

/-- A name that begins before the marker and reaches into it is followed by more of the marker. -/
theorem marker?_append_eq_none {s : Text} (hs : s ≠ []) (h : ¬ markerName <:+: s)
    (rest : Text) : marker? (s ++ (markerName ++ rest)) = none := by
  cases hafter : after? markerName (s ++ (markerName ++ rest)) with
  | none =>
    rw [marker?, hafter]
    rfl
  | some more =>
    have heq := after?_eq_some.1 hafter
    rcases List.append_eq_append_iff.1 heq with ⟨front, hfront, hrest⟩ | ⟨front, hfront, -⟩
    · -- what is left of the marker begins with one of its own characters
      obtain ⟨d, last, hlast, hmore⟩ : ∃ d last, markerName = front ++ d :: last ∧
          more = d :: (last ++ rest) := by
        have hshort := congrArg List.length hfront
        have hpos := List.length_pos_iff.2 hs
        rw [List.length_append] at hshort
        rcases List.append_eq_append_iff.1 hrest with ⟨last, rfl, -⟩ | ⟨last, hlast, rfl⟩
        · rw [List.length_append] at hshort
          omega
        · cases last with
          | nil =>
            rw [List.append_nil] at hlast
            rw [← hlast] at hshort
            omega
          | cons d last => exact ⟨d, last, hlast, rfl⟩
      have hd : isBlank d = false ∧ d ≠ '=' := by
        have hall : markerName.all (fun d => !isBlank d && d != '=') = true := by decide
        simpa using all_eq_true.1 hall d (by rw [hlast]; simp)
      have hstart : Text.trimStart more = more :=
        Text.dropWhile_eq_self_of_head? (by rw [hmore]; simpa using hd.1)
      have hnone : after? "=" more = none := by
        rw [Text.after?_eq_none_iff, hmore]
        rintro ⟨u, hu⟩
        exact hd.2 (List.cons.inj hu).1.symm
      rw [marker?, hafter]
      simp only [bind_eq_bind, bind_some, hstart, hnone, Option.bind_none]
    · exact absurd ⟨[], front, by rw [hfront]; rfl⟩ h

/-- The marker is found after any text that does not hold its name. -/
theorem readFirst?_marker (c : WrapperConfig) {pre : Text} (h : ¬ markerName <:+: pre)
    (rest : Text) :
    Text.readFirst? (fun _ t => (marker? t).map fun o => (o, ([] : Text))) none
      (pre ++ (c.marker ++ rest)) = some (pre, c.object ++ ';' :: rest, []) := by
  refine Text.readFirst?_append (fun _ s hs hne => ?_) (fun _ => ?_) none
  · have hname : c.marker ++ rest = markerName ++ (" = " ++ (c.object ++ (";" ++ rest))) := by
      simp only [WrapperConfig.marker, append_assoc]
    rw [hname, marker?_append_eq_none hne fun hin => h (hin.trans hs.isInfix)]
    rfl
  · rw [marker?_object]
    rfl

/-! ## The key of the subscription -/

/-- The word that announces a subscription. -/
def subscribeKey : Text := "subscribe"

/-- The text has no subscription: no colon follows the word, blanks between them left aside. -/
def NoKey (t : Text) : Prop :=
  ∀ blanks : Text, (∀ d ∈ blanks, isBlank d = true) → ¬ (subscribeKey ++ (blanks ++ [':'])) <:+: t

theorem noKey_of_notMem (h : ':' ∉ t) : NoKey t :=
  fun _ _ hin => h (hin.subset (by simp))

/-- In an entry with one colon only what stands before the colon matters. -/
theorem noKey_entry {value : Text} (hname : 'c' ∉ name) (hvalue : ':' ∉ value) :
    NoKey (name ++ ':' :: value) := by
  rintro blanks - ⟨s, t, heq⟩
  have heq' : (s ++ (subscribeKey ++ blanks)) ++ ':' :: t = name ++ ':' :: value := by
    rw [← heq]
    simp only [append_assoc, cons_append, nil_append]
  have hkey : 'c' ∈ s ++ (subscribeKey ++ blanks) :=
    List.mem_append_right s (List.mem_append_left blanks (by decide))
  rcases List.append_eq_append_iff.1 heq' with ⟨front, hfront, -⟩ | ⟨front, hfront, hrest⟩
  · exact hname (by rw [hfront]; exact List.mem_append_left front hkey)
  · cases front with
    | nil => exact hname (by rwa [hfront, List.append_nil] at hkey)
    | cons d front => exact hvalue (by rw [(List.cons.inj hrest).2]; simp)

theorem NoKey.append_cons {x y : Text} {d : Char} (hx : NoKey x) (hy : NoKey y)
    (hd : d ∉ subscribeKey) (hblank : isBlank d = false) (hcolon : d ≠ ':') :
    NoKey (x ++ d :: y) := by
  intro blanks hblanks
  have hnot : d ∉ subscribeKey ++ (blanks ++ [':']) := by
    have hblank' : d ∉ blanks := fun hmem => by
      rw [hblanks d hmem] at hblank
      cases hblank
    simp [hd, hblank', hcolon]
  rw [Text.isInfix_append_cons_iff hnot, not_or]
  exact ⟨hx blanks hblanks, hy blanks hblanks⟩

/-- A character that the word does not begin with makes no difference at the front. -/
theorem NoKey.cons {d : Char} (h : NoKey t) (hd : d ≠ 's') : NoKey (d :: t) := by
  intro blanks hblanks hin
  rcases List.infix_cons_iff.1 hin with ⟨more, hmore⟩ | hin
  · exact hd (List.cons.inj hmore).1.symm
  · exact h blanks hblanks hin

theorem exists_of_subscribeField? {before : Option Char} {found : Subscription × Text}
    (h : subscribeField? before t = some found) :
    ∃ blanks blanks' rest, (∀ d ∈ blanks, isBlank d = true) ∧ (∀ d ∈ blanks', isBlank d = true) ∧
      t = (blanks ++ (subscribeKey ++ (blanks' ++ [':']))) ++ rest := by
  unfold subscribeField? at h
  obtain ⟨-, h⟩ := Option.ite_none_left_eq_some.1 h
  obtain ⟨rest, hkey, h⟩ := Option.bind_eq_some_iff.1 h
  obtain ⟨rest', hcolon, -⟩ := Option.bind_eq_some_iff.1 h
  have hsplit (u : Text) : u = u.takeWhile isBlank ++ Text.trimStart u :=
    List.takeWhile_append_dropWhile.symm
  have hblank (u : Text) : ∀ d ∈ u.takeWhile isBlank, isBlank d = true :=
    all_eq_true.1 List.all_takeWhile
  refine ⟨t.takeWhile isBlank, rest.takeWhile isBlank, rest', hblank t, hblank rest, ?_⟩
  have hrest : rest = rest.takeWhile isBlank ++ ':' :: rest' := by
    have hcolon' := after?_eq_some.1 hcolon
    exact (hsplit rest).trans (congrArg (rest.takeWhile isBlank ++ ·) hcolon')
  have hkey' : Text.trimStart t = subscribeKey ++ rest := after?_eq_some.1 hkey
  calc t = t.takeWhile isBlank ++ Text.trimStart t := hsplit t
    _ = t.takeWhile isBlank ++ (subscribeKey ++ (rest.takeWhile isBlank ++ ':' :: rest')) := by
        rw [hkey', ← hrest]
    _ = _ := by simp only [append_assoc, List.singleton_append]

/-- Where no colon follows the word, no subscription is read. -/
theorem NoKey.subscribeField?_eq_none {s : Text} (ht : NoKey t) (hs : s <:+ t)
    (before : Option Char) : subscribeField? before s = none := by
  rw [Option.eq_none_iff_forall_ne_some]
  intro found hfound
  obtain ⟨blanks, blanks', rest, -, hblanks', rfl⟩ := exists_of_subscribeField? hfound
  refine ht blanks' hblanks' (List.IsInfix.trans ?_ hs.isInfix)
  exact ⟨blanks, rest, by simp only [append_assoc]⟩

/-- Nor is one read from before a comma, whatever comes after the comma. -/
theorem NoKey.subscribeField?_comma {s : Text} (ht : NoKey t) (hs : s <:+ t)
    (before : Option Char) (rest : Text) : subscribeField? before (s ++ ',' :: rest) = none := by
  rw [Option.eq_none_iff_forall_ne_some]
  intro found hfound
  obtain ⟨blanks, blanks', more, hblanks, hblanks', heq⟩ := exists_of_subscribeField? hfound
  have hcomma : ',' ∉ blanks ++ (subscribeKey ++ (blanks' ++ [':'])) := by
    have hnot {u : Text} (hu : ∀ d ∈ u, isBlank d = true) : ',' ∉ u := by
      intro hmem
      cases hu _ hmem
    have hkey : ',' ∉ subscribeKey := by decide
    simp [hnot hblanks, hnot hblanks', hkey]
  have hin := (Text.prefix_append_cons_iff hcomma s rest).1 ⟨more, heq.symm⟩
  exact ht blanks' hblanks'
    (((List.suffix_append blanks _).isInfix.trans hin.isInfix).trans hs.isInfix)

/-! ## Taking the subscription out -/

section Object

variable {c : WrapperConfig} (h : c.IsPlain)

include h

theorem notMem_tagScript : ':' ∉ c.tagScript := by
  unfold WrapperConfig.tagScript
  cases htag : c.tag with
  | none => decide
  | some tag =>
    have hchars := (isIdentifier_spec (h.tag tag htag)).2
    have htag' : ':' ∉ tag := fun hmem => isNameChar_ne (hchars ':' hmem) rfl rfl
    simp [double_of_names hchars, htag']

/-- Before the subscription stand entries of other names. -/
theorem noKey_start : NoKey ('\x7b' :: c.start) := by
  have hfollow : ':' ∉ c.follow.toScript := Subscription.notMem_toScript h.follow rfl (by decide)
  have henabled : ':' ∉ (if c.enabled then ("true" : Text) else "false") := by
    cases c.enabled <;> decide
  have hstart : c.start =
      (" enable" ++ ':' :: ' ' :: (if c.enabled then ("true" : Text) else "false")) ++ ',' ::
        ((" tag" ++ ':' :: ' ' :: c.tagScript) ++ ',' ::
          (" follow" ++ ':' :: ' ' :: c.follow.toScript)) := by
    have henable : (" enable: " : Text) = " enable" ++ [':', ' '] := rfl
    have htag : (", tag: " : Text) = ',' :: (" tag" ++ [':', ' ']) := rfl
    have hname : (", follow: " : Text) = ',' :: (" follow" ++ [':', ' ']) := rfl
    unfold WrapperConfig.start
    rw [henable, htag, hname]
    simp only [append_assoc, cons_append, nil_append]
  have hentry {name value : Text} (hname : 'c' ∉ name) (hvalue : ':' ∉ value) :
      NoKey (name ++ ':' :: ' ' :: value) :=
    noKey_entry hname (by simpa using hvalue)
  rw [hstart]
  refine NoKey.cons (.append_cons (hentry (by decide) henabled) (.append_cons
    (hentry (by decide) (notMem_tagScript h)) (hentry (by decide) hfollow)
    ?_ rfl ?_) ?_ rfl ?_) ?_ <;> decide

theorem noKey_attributeList : NoKey c.attributeList := by
  have hentry : ∀ a ∈ c.attributes, NoKey (double a.1 ++ ": ".toList ++ a.2) := by
    intro a ha
    obtain ⟨hname, hvalue⟩ := h.attributes a ha
    have hcolon {name : Text} (hname : isIdentifier name = true) : ':' ∉ name :=
      fun hmem => isNameChar_ne ((isIdentifier_spec hname).2 ':' hmem) rfl rfl
    have heq : double a.1 ++ ": ".toList ++ a.2 =
        [] ++ '\x22' :: (a.1 ++ '\x22' :: ':' :: ' ' :: a.2) := by
      rw [double_of_names (isIdentifier_spec hname).2]
      simp
    have hrest : NoKey (':' :: ' ' :: a.2) :=
      .cons (noKey_of_notMem (by simpa using hcolon hvalue)) (by decide)
    rw [heq]
    refine .append_cons (noKey_of_notMem (by simp)) (.append_cons
      (noKey_of_notMem (hcolon hname)) hrest ?_ rfl ?_) ?_ rfl ?_ <;> decide
  refine Text.join_rec (noKey_of_notMem (by simp)) (fun x y hx hy => ?_) fun entry hmem => ?_
  · have hsplit : x ++ ", ".toList ++ y = x ++ ',' :: ' ' :: y := by simp
    rw [hsplit]
    exact hx.append_cons (hy.cons (by decide)) (by decide) rfl (by decide)
  · obtain ⟨a, ha, rfl⟩ := mem_map.1 hmem
    exact hentry a ha

/-- After the subscription stand the attributes, in braces of their own. -/
theorem noKey_ending : NoKey (c.ending ++ ['\x7d']) := by
  have hending : c.ending ++ ['\x7d'] = (" attributes" ++ ':' :: [' ']) ++ '\x7b' ::
      (c.attributeList ++ '\x7d' :: [' ', '\x7d']) := by
    have hopen : (" attributes: \x7b" : Text) = " attributes" ++ [':', ' ', '\x7b'] := rfl
    have hclose : ("\x7d " : Text) = ['\x7d', ' '] := rfl
    unfold WrapperConfig.ending
    rw [hopen, hclose]
    simp only [append_assoc, cons_append, nil_append]
  have hattributes := noKey_attributeList h
  rw [hending]
  refine .append_cons (noKey_entry ?_ ?_) (hattributes.append_cons (noKey_of_notMem ?_) ?_ rfl ?_)
    ?_ rfl ?_ <;> decide

end Object

theorem subscribeValue?_toScript {s : Subscription} (hs : s.IsPlain) (rest : Text) :
    subscribeValue? (s.toScript ++ rest) = some (s.toScript, rest) := by
  cases s with
  | all => rfl
  | off => rfl
  | keys names =>
    have hbracket : ']' ∉ Subscription.keyList names := by
      intro hmem
      rcases Subscription.mem_keyList hs.2 hmem with hname | hmark | hcomma
      · cases hname
      · cases hmark
      · cases hcomma
    have hcut : Text.cut? [']'] (Subscription.keyList names ++ ']' :: rest) =
        some (Subscription.keyList names, rest) := Text.cut?_singleton_eq_some.2 ⟨hbracket, rfl⟩
    have htext : Subscription.toScript (.keys names) ++ rest =
        '[' :: (Subscription.keyList names ++ ']' :: rest) := by
      simp [Subscription.toScript_keys]
    rw [htext]
    simp [subscribeValue?, after?, hcut, Subscription.toScript_keys]

/-- The entry of a subscription is read, with the comma after it. -/
theorem subscribeField?_entry {s : Subscription} (hs : s.IsPlain) (before : Option Char)
    (rest : Text) :
    subscribeField? before (WrapperConfig.subscribeEntry s ++ rest) = some (s, rest) := by
  have hentry : WrapperConfig.subscribeEntry s ++ rest =
      ' ' :: (subscribeKey ++ ':' :: ' ' :: (s.toScript ++ ',' :: rest)) := by
    have hname : (" subscribe: " : Text) = ' ' :: (subscribeKey ++ [':', ' ']) := rfl
    have hcomma : ("," : Text) = [','] := rfl
    unfold WrapperConfig.subscribeEntry
    rw [hname, hcomma]
    simp only [append_assoc, cons_append, nil_append]
  have hstart : Text.trimStart (' ' :: (s.toScript ++ ',' :: rest)) =
      s.toScript ++ ',' :: rest := by
    refine Text.trimStart_space ?_
    cases s <;> rfl
  have hkey (t : Text) :
      after? "subscribe" (Text.trimStart (' ' :: (subscribeKey ++ t))) = some t := by
    rw [Text.trimStart_space rfl]
    exact after?_eq_some.2 rfl
  have hcolon (t : Text) : after? ":" (Text.trimStart (':' :: t)) = some t :=
    after?_eq_some.2 rfl
  have hcomma (t : Text) : after? "," (Text.trimStart (',' :: t)) = some t :=
    after?_eq_some.2 rfl
  rw [hentry, subscribeField?, if_neg (by simp [isBlank]), hkey]
  simp only [bind_eq_bind, bind_some, hcolon, hstart, subscribeValue?_toScript hs,
    hcomma, getD_some, Subscription.read_toScript hs, Option.pure_def]

/-- The object without a subscription. -/
theorem object_subscribe_none (c : WrapperConfig) :
    { c with subscribe := none }.object = '\x7b' :: c.start ++ ',' :: (c.ending ++ ['\x7d']) := by
  have hcomma : ("," : Text) = [','] := rfl
  rw [WrapperConfig.object_eq]
  unfold WrapperConfig.inside
  rw [hcomma]
  simp only [Option.map_none, Option.getD_none, append_assoc, cons_append, nil_append]
  rfl

theorem object_subscribe_some {c : WrapperConfig} {s : Subscription} (h : c.subscribe = some s) :
    c.object = ('\x7b' :: c.start ++ [',']) ++
      (WrapperConfig.subscribeEntry s ++ (c.ending ++ ['\x7d'])) := by
  have hcomma : ("," : Text) = [','] := rfl
  rw [WrapperConfig.object_eq]
  unfold WrapperConfig.inside
  rw [hcomma, h]
  simp only [Option.map_some, getD_some, append_assoc, cons_append, nil_append]

/-- The subscription is taken out of the object, and nothing else. -/
theorem takeSubscribe_object {c : WrapperConfig} (h : c.IsPlain) :
    takeSubscribe c.object = ({ c with subscribe := none }.object, c.subscribe) := by
  have hstart := noKey_start h
  have hending := noKey_ending h
  cases hsubscribe : c.subscribe with
  | none =>
    have hsame : { c with subscribe := none } = c := by rw [← hsubscribe]
    have hobject : NoKey c.object := by
      rw [← hsame, object_subscribe_none]
      exact hstart.append_cons hending (by decide) rfl (by decide)
    rw [takeSubscribe, Text.readFirst?_eq_none fun before s hs =>
      hobject.subscribeField?_eq_none hs before, hsame]
  | some s =>
    have hfirst : Text.readFirst? subscribeField? none c.object =
        some ('\x7b' :: c.start ++ [','], s, c.ending ++ ['\x7d']) := by
      rw [object_subscribe_some hsubscribe]
      refine Text.readFirst?_append (fun before t ht hne => ?_) (fun before => ?_) none
      · -- what begins before the comma ends with it
        obtain ⟨front, rfl, hfront⟩ := (List.suffix_concat_iff.1 ht).resolve_left hne
        rw [append_assoc]
        exact hstart.subscribeField?_comma hfront before _
      · exact subscribeField?_entry (h.subscribe s hsubscribe) before _
    rw [takeSubscribe, hfirst, object_subscribe_none]
    simp only [append_assoc, cons_append, nil_append]

/-! ## Round trip -/

/-- A configuration of plain names comes back from the body it is printed into: the object with its
subscription, which is then taken out of it, and the texts around it. -/
theorem ofBody?_marker {c : WrapperConfig} (h : c.IsPlain) {pre inner : Text}
    (hpre : ¬ markerName <:+: pre) (hinner : ¬ endMarker <:+: inner) (post : Text) :
    ofBody? (pre ++ c.marker ++ "\n" ++ inner ++ "\n" ++ endMarker ++ post) = some
        { config := c.object
          before := structural pre
          inner := Text.dropEndWhile (· == '\n') (inner.dropWhile (· == '\n'))
          after := structural post } ∧
      takeSubscribe c.object = ({ c with subscribe := none }.object, c.subscribe) := by
  refine ⟨?_, takeSubscribe_object h⟩
  have hbody : pre ++ c.marker ++ "\n" ++ inner ++ "\n" ++ endMarker ++ post =
      pre ++ (c.marker ++ ('\n' :: inner ++ '\n' :: (endMarker ++ post))) := by
    have hbreak : ("\n" : Text) = ['\n'] := rfl
    rw [hbreak]
    simp only [List.append_assoc, List.cons_append, List.nil_append]
  have hfirst := readFirst?_marker c hpre ('\n' :: inner ++ '\n' :: (endMarker ++ post))
  have hgroup := WrapperConfig.group_read?_object h
    (';' :: ('\n' :: inner ++ '\n' :: (endMarker ++ post)))
  have hsemicolon (t : Text) : Text.after? ";" ((';' :: t).dropWhile isSpaceOrTab) = some t :=
    Text.after?_eq_some.2 rfl
  have hcut : Text.cut? endMarker ('\n' :: inner ++ '\n' :: (endMarker ++ post)) =
      some ('\n' :: (inner ++ ['\n']), post) := by
    refine Text.cut?_append_cons (by decide) (by decide) (fun hin => ?_) post
    rcases List.infix_cons_iff.1 hin with ⟨more, hmore⟩ | hin
    · cases hmore
    · exact hinner hin
  have hbreaks := Text.dropEndWhile_dropWhile_between (p := (· == '\n')) (c := '\n') (d := '\n')
    rfl rfl inner
  have hbraces (t : Text) : "\x7b".toList ++ t ++ "\x7d".toList = '\x7b' :: (t ++ ['\x7d']) := rfl
  rw [hbody, ofBody?, hfirst]
  simp only [Option.bind_eq_bind, Option.bind_some, hgroup, hsemicolon, Option.getD_some, hcut,
    hbreaks, Option.pure_def, hbraces, ← WrapperConfig.object_eq]

/-- The word that announces a subscription is also the tag and an attribute, and the names of the
markers stand all but whole before the marker and inside. -/
theorem ofBody?_marker_subscribe :
    ofBody? ("$\x7bApp.View.execute(f)\x7d__WRAPPER_CONFIG_\n__WRAPPER_CONFIG__ = " ++
        "\x7b enable: true, tag: \"subscribe\", follow: true, subscribe: [\"a\",\"b\"], " ++
        "attributes: \x7b\"subscribe\": subscribe\x7d \x7d;\n\n__WRAPPER_END\n__WRAPPER_END__") = some
      { config := "\x7b enable: true, tag: \"subscribe\", follow: true, subscribe: [\"a\",\"b\"], " ++
          "attributes: \x7b\"subscribe\": subscribe\x7d \x7d"
        before := "$\x7bApp.View.execute(f)\x7d"
        inner := "__WRAPPER_END"
        after := [] } ∧
    takeSubscribe ("\x7b enable: true, tag: \"subscribe\", follow: true, subscribe: [\"a\",\"b\"], " ++
        "attributes: \x7b\"subscribe\": subscribe\x7d \x7d") =
      ("\x7b enable: true, tag: \"subscribe\", follow: true, ".toList ++
        "attributes: \x7b\"subscribe\": subscribe\x7d \x7d".toList, some (.keys ["a", "b"])) := by
  have hplain : WrapperConfig.IsPlain
      { tag := some "subscribe"
        subscribe := some (.keys ["a", "b"])
        attributes := [("subscribe", "subscribe")] } :=
    { tag := fun _ htag => Option.some.inj htag ▸ by decide
      follow := trivial
      subscribe := fun _ hs => Option.some.inj hs ▸ ⟨by simp, by decide +kernel⟩
      attributes := by simpa using by decide +kernel }
  have hround := @ofBody?_marker _ hplain "$\x7bApp.View.execute(f)\x7d__WRAPPER_CONFIG_\n"
    "\n__WRAPPER_END" (by decide +kernel) (by decide +kernel) []
  refine ⟨(congrArg ofBody? ?_).trans (hround.1.trans ?_),
    (congrArg takeSubscribe ?_).trans (hround.2.trans ?_)⟩ <;> decide +kernel

end WrapperSplit
end BladeView
