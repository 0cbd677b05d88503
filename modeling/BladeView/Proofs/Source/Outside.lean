import BladeView.Header
import BladeView.Proofs.Source.SubscribeLine

/-!
# Reading around verbatim regions

The header and the assets of a view are read from the source with the contents of its verbatim
regions in it. The readings do not depend on the contents if these hold none of the words that the
readers look for, and if nothing that is open before a region reaches into it.
-/
namespace BladeView

open Text (LedBy Settles first? forall_mem_of_all)
open Region (closingTag? ledBy_named? ofContent)
open Prod (fst)
open Header (extends? fetch? initOf subscription?)

variable {word c p blanks : Text}

namespace Verbatim

/-! ## Quiet contents -/

/-- The words at which the readers of the header and of the assets begin, in small letters. -/
def headerWords : List Text :=
  ["@await", "@fetch", "@extends", "@subscribe", "@dontsubscribe", "@viewtype", "@oninit",
   "@register", "@setup", "@script", "<script"]

/-- A content without these words and without one that closes the region, in any case. -/
@[mk_iff]
structure IsQuiet (c : Text) : Prop extends IsContent c where
  words : ∀ s, s <:+ c → ∀ word ∈ "@endverbatim".toList :: headerWords,
    Text.afterFold? word s = none

instance (c : Text) : Decidable (IsQuiet c) :=
  decidable_of_iff _ (isQuiet_iff c).symm

/-- The words of the header are read neither where a region opens nor where it is closed. -/
theorem headerWords_clash : headerWords.all (fun word =>
    Text.clashesIn word "@verbatim" && Text.clashesIn word "@endverbatim") = true := by decide

theorem headerWords_sign : headerWords.all (fun word =>
    !word.isEmpty && word.tail.all fun k => !foldsTo k '@') = true := by decide

theorem headerWords_ne_nil : ∀ word ∈ headerWords, word ≠ [] := by decide

theorem endsAtSign_headerWords (h : word ∈ headerWords) :
    Text.EndsAtSign (Text.afterFold? word) := by
  have hword := List.all_eq_true.1 headerWords_sign word h
  cases word with
  | nil => cases hword
  | cons k word =>
    refine Text.endsAtSign_afterFold? k fun j hj => ?_
    have hletter := List.all_eq_true.1 (Bool.and_eq_true_iff.1 hword).2 j hj
    simpa using hletter

theorem IsQuiet.silent {α : Type} {reader : Text → Option (α × Text)} (hc : IsQuiet c)
    (hword : word ∈ headerWords) (h : LedBy word reader) :
    Text.Silent reader (ofContent c) := by
  have hclash := Bool.and_eq_true_iff.1 (List.all_eq_true.1 headerWords_clash word hword)
  refine Region.silent_ofContent h hclash.1 hclash.2 fun s hs hne u => h.eq_none ?_
  rw [endsAtSign_headerWords hword s hne u, hc.words s hs word (List.mem_cons_of_mem _ hword)]
  rfl

/-! ## Closed pieces -/

/-- The directives whose argument lists are read from the source. -/
def argumentNames : List Text := ["@fetch", "@extends", "@vars", "@let", "@const", "@useState"]

/-- The regions that are read from the source. -/
def regionNames : List Text := ["oninit", "register", "setup", "script", "verbatim"]

/-- A text without the regions that declare assets. -/
def withoutAssets (t : Text) : Text :=
  Text.substitute (fun _ t => (Assets.region? t).map fun found => ([], found.2)) t

/-- The script elements that open in a text are closed in it. -/
def ClosesScripts (close : Text → Option Text) (p : Text) : Prop :=
  ∀ s, s <:+ p → (Text.afterFoldWord? "<script" s).isSome → (Region.script? close s).isSome

instance (close : Text → Option Text) (p : Text) : Decidable (ClosesScripts close p) :=
  inferInstanceAs (Decidable (∀ s, s <:+ p → _))

/-- A piece of text that closes what it opens: argument lists, regions and script elements. -/
@[mk_iff]
structure Closes (p : Text) : Prop where
  args : ∀ s, s <:+ p → ∀ name ∈ argumentNames, ∀ found, Header.directive? name s = some found →
    (Group.read? found.2).isSome
  subscribe : Body.ClosesSubscribe p
  regions : ∀ s, s <:+ p → ∀ name ∈ regionNames, (Text.afterFoldWord? ("@" ++ name) s).isSome →
    (Region.named? name s).isSome
  scripts : ClosesScripts (Text.afterFold? "</script>") p
  setups : ClosesScripts (closingTag? "script") (withoutAssets p)

instance (p : Text) : Decidable (Closes p) :=
  decidable_of_iff _ (closes_iff p).symm

theorem regionNames_sign :
    regionNames.all (fun name => name.all fun k => !foldsTo k '@') = true := by
  decide

theorem Closes.settles_named? {name : Text} (hp : Closes p) (hname : name ∈ regionNames) :
    Settles (Region.named? name) p := by
  intro s hs hne u
  refine Region.named?_append (fun k hk => ?_) (hp.regions s hs name hname) hne u
  have hletter := List.all_eq_true.1 (List.all_eq_true.1 regionNames_sign name hname) k hk
  simpa using hletter

end Verbatim

/-! ## The header -/

namespace Header

/-- Reads a directive and the inside of its argument list, if that is closed. -/
def closedArgs? (name t : Text) : Option (Option Text × Text) :=
  (directive? name t).map fun found => ((Group.read? found.2).map Prod.fst, found.2)

theorem firstArgs?_eq (name t : Text) :
    firstArgs? name t = ((first? (closedArgs? name) t).map fst).join := by
  have hfirst : first? (closedArgs? name) t =
      (first? (directive? name) t).map fun found =>
        ((Group.read? found.2).map fst, found.2) := Text.first?_map _ t
  rw [hfirst, firstArgs?, first?]
  cases Text.readFirst? (fun _ => directive? name) none t with
  | none => rfl
  | some found =>
    change (Group.read? found.2.2).bind _ = (Group.read? found.2.2).map fst
    cases Group.read? found.2.2 <;> rfl

/-- Reads a directive that waits for data. -/
def await? (t : Text) : Option (Unit × Text) :=
  (Text.afterWord? "@await" t).map fun rest => ((), rest)

theorem awaits_eq (t : Text) : awaits t = (first? await? t).isSome := Text.isSome_readFirst? t

theorem fetches_eq (t : Text) : fetches t = (first? (directive? "@fetch") t).isSome :=
  Text.isSome_readFirst? t

theorem ledBy_await? : LedBy "@await" await? :=
  Text.ledBy_of_after? () (forall_mem_of_all (by decide)) fun _ _ hread =>
    (Option.filter_eq_some_iff.1 hread).1

theorem settles_await? (p : Text) : Settles await? p := by
  have hends : Text.EndsAtSign (Text.afterWord? "@await") :=
    (Text.endsAtSign_after? '@' (by decide)).filter_endsWord
  exact hends.settles () p

theorem settles_directive? (hword : '@' ∉ word) (p : Text) :
    Settles (directive? ('@' :: word)) p := fun _ _ hne u => directive?_append hword hne u

/-- What is read first in a text with a region stands before the region, in it or after it. -/
theorem first?_around {α : Type} {reader : Text → Option (α × Text)}
    (hword : word ∈ Verbatim.headerWords) (h : LedBy word reader)
    (hsettles : ∀ p, Settles reader p) (p c s : Text) :
    (first? reader (p ++ (ofContent c ++ s))).map fst =
      ((first? reader p).map fst).or
        (((first? reader c).map fst).or ((first? reader s).map fst)) := by
  have hclash := Bool.and_eq_true_iff.1 (List.all_eq_true.1 Verbatim.headerWords_clash word hword)
  have hnil : reader [] = none := (h.consumes (Verbatim.headerWords_ne_nil word hword)).nil
  have hcontent : (first? reader (ofContent c ++ s)).map fst =
      ((first? reader c).map fst).or ((first? reader s).map fst) := by
    have hsign : "@endverbatim" ++ s = '@' :: ("endverbatim" ++ s) := rfl
    rw [Region.ofContent_append, Text.first?_silent (h.silent_of_clashesIn hclash.1), hsign,
      Text.first?_append hnil (hsettles c), ← hsign,
      Text.first?_silent (h.silent_of_clashesIn hclash.2)]
    cases first? reader c <;> rfl
  rw [← hcontent]
  rw [Region.ofContent_cons, Text.first?_append hnil (hsettles p)]
  cases first? reader p <;> rfl

theorem isSome_first?_around {α : Type} {reader : Text → Option (α × Text)}
    (hword : word ∈ Verbatim.headerWords) (h : LedBy word reader)
    (hsettles : ∀ p, Settles reader p) (p c s : Text) :
    (first? reader (p ++ (ofContent c ++ s))).isSome =
      ((first? reader p).isSome || (first? reader c).isSome ||
        (first? reader s).isSome) := by
  have haround := congrArg Option.isSome (first?_around hword h hsettles p c s)
  simpa only [Option.isSome_or, Option.isSome_map, Bool.or_assoc] using haround

/-- **A view waits for data if the word stands anywhere, in a region or outside.** -/
theorem awaits_region (p c s : Text) :
    awaits (p ++ (ofContent c ++ s)) = (awaits p || awaits c || awaits s) := by
  simp only [awaits_eq]
  exact isSome_first?_around (by decide) ledBy_await? settles_await? p c s

theorem settles_fetch (p : Text) : Settles (directive? "@fetch") p :=
  settles_directive? (by decide) p

theorem ledBy_fetch : LedBy "@fetch" (directive? "@fetch") :=
  ledBy_directive? (forall_mem_of_all (by decide))

theorem fetches_region (p c s : Text) :
    fetches (p ++ (ofContent c ++ s)) = (fetches p || fetches c || fetches s) := by
  simp only [fetches_eq]
  exact isSome_first?_around (by decide) ledBy_fetch settles_fetch p c s

theorem settles_viewType? (p : Text) : Settles viewType? p :=
  fun _ _ hne u => viewType?_append hne u

/-- The first type that a text names, if it names one. -/
def namedType? (t : Text) : Option Text := (first? viewType? t).map Prod.fst

theorem viewTypeOf_eq (t : Text) : viewTypeOf t = (namedType? t).getD "view" := by
  rw [viewTypeOf, namedType?, first?]
  cases Text.readFirst? (fun _ => viewType?) none t <;> rfl

theorem namedType?_region (p c s : Text) :
    namedType? (p ++ (ofContent c ++ s)) =
      (namedType? p).or ((namedType? c).or (namedType? s)) :=
  first?_around (by decide) ledBy_viewType? settles_viewType? p c s

end Header

namespace Verbatim

theorem Closes.settles_closedArgs? (hp : Closes p) (hword : '@' ∉ word)
    (hname : '@' :: word ∈ argumentNames) : Settles (Header.closedArgs? ('@' :: word)) p := by
  intro s hs hne u
  rw [Header.closedArgs?, Header.closedArgs?, Header.directive?_append hword hne u]
  cases hread : Header.directive? ('@' :: word) s with
  | none => rfl
  | some found =>
    have hclosed := hp.args s hs _ hname found hread
    obtain ⟨⟨inner, rest⟩, hgroup⟩ := Option.isSome_iff_exists.1 hclosed
    simp only [Option.map_some, hgroup, Group.read?_append_right hgroup]

namespace Varies

variable {s t : Text}

theorem firstArgs?_eq (hword : '@' ∉ word) (hfold : ∀ k ∈ '@' :: word, foldsTo k k = true)
    (hheader : '@' :: word ∈ headerWords) (hname : '@' :: word ∈ argumentNames)
    (h : Varies Closes IsQuiet s t) :
    Header.firstArgs? ('@' :: word) s = Header.firstArgs? ('@' :: word) t := by
  have hled : LedBy ('@' :: word) (Header.closedArgs? ('@' :: word)) :=
    (Header.ledBy_directive? hfold).map _
  rw [Header.firstArgs?_eq, Header.firstArgs?_eq,
    h.first?_eq (fun p hp => hp.settles_closedArgs? hword hname)
      (fun c hc => hc.silent hheader hled) (hled.consumes (List.cons_ne_nil _ _)).nil]

theorem subscription?_eq (h : Varies Closes IsQuiet s t) :
    subscription? s = subscription? t := by
  have hends : Text.EndsAtSign Body.dontSubscribe? :=
    (Text.endsAtSign_afterFold? '@' (forall_mem_of_all (by decide))).filter_endsWord
  have hled : LedBy "@dontsubscribe" fun t =>
      (Body.dontSubscribe? t).map fun rest => ((), rest) := by
    intro t value rest hread
    obtain ⟨rest', hrest, heq⟩ := Option.map_eq_some_iff.1 hread
    cases heq
    exact ⟨rest, (Option.filter_eq_some_iff.1 hrest).1, List.suffix_rfl⟩
  have hoff := h.isSome_first?_eq (fun p _ => hends.settles () p)
    (fun c hc => hc.silent (by decide) hled) rfl
  have hlines : Body.subscribeLine? s = Body.subscribeLine? t := by
    refine h.subscribeLine?_eq (fun p hp => hp.subscribe) fun c hc hstands => ?_
    obtain ⟨u, ⟨rest, hrest⟩, hu⟩ := List.infix_iff_prefix_suffix.1 hstands
    have hfold := Text.afterFold?_of_after? (forall_mem_of_all (by decide))
      (Text.after?_eq_some.2 hrest.symm)
    cases (hc.words u hu "@subscribe" (by decide)).symm.trans hfold
  simp only [subscription?, Text.isSome_readFirst?, hoff]
  change (if _ then _ else (Body.subscribeLine? s).map _) =
    if _ then _ else (Body.subscribeLine? t).map _
  rw [hlines]

/-- **The headers agree.** -/
theorem header_eq (bindings : Bindings) (h : Varies Closes IsQuiet s t) :
    Header.read bindings s = Header.read bindings t := by
  have hawait : Header.awaits s = Header.awaits t := by
    rw [Header.awaits_eq, Header.awaits_eq]
    exact h.isSome_first?_eq (fun p _ => Header.settles_await? p)
      (fun c hc => hc.silent (by decide) Header.ledBy_await?) rfl
  have hfetch : Header.fetches s = Header.fetches t := by
    rw [Header.fetches_eq, Header.fetches_eq]
    exact h.isSome_first?_eq (fun p _ => Header.settles_fetch p)
      (fun c hc => hc.silent (by decide) Header.ledBy_fetch) rfl
  have hfetchArgs : Header.firstArgs? "@fetch" s = Header.firstArgs? "@fetch" t :=
    h.firstArgs?_eq (by decide) (forall_mem_of_all (by decide)) (by decide) (by decide)
  have hextendsArgs : Header.firstArgs? "@extends" s = Header.firstArgs? "@extends" t :=
    h.firstArgs?_eq (by decide) (forall_mem_of_all (by decide)) (by decide) (by decide)
  have htype : Header.viewTypeOf s = Header.viewTypeOf t := by
    rw [Header.viewTypeOf_eq, Header.viewTypeOf_eq, Header.namedType?, Header.namedType?,
      h.first?_eq (fun p _ => Header.settles_viewType? p)
        (fun c hc => hc.silent (by decide) Header.ledBy_viewType?) rfl]
  have hinit : initOf s = initOf t := by
    have hall := h.readAll_eq (fun p hp => hp.settles_named? (by decide))
      (fun c hc => hc.silent (by decide) (ledBy_named? "oninit"))
      ((ledBy_named? "oninit").consumes (by decide))
    rw [initOf, initOf, hall]
  unfold Header.read
  rw [hawait, hfetch, extends?, extends?, hextendsArgs, fetch?, fetch?,
    hfetchArgs, h.subscription?_eq, htype, hinit]

end Varies
end Verbatim

/-! ## Assets -/

namespace Assets

theorem consumes_region? : Text.Consumes region? := by
  intro t value rest hread
  obtain ⟨name, -, hnamed⟩ := List.exists_of_findSome?_eq_some hread
  exact (ledBy_named? name).consumes (List.cons_ne_nil _ _) _ _ _ hnamed

theorem ledBy_setupScript? : LedBy "<script" setupScript? := by
  intro t value rest hread
  obtain ⟨⟨attributes, body, rest'⟩, hscript, heq⟩ := Option.bind_eq_some_iff.1 hread
  cases heq
  have hclose : ∀ s rest, closingTag? "script" s = some rest → rest <:+ s := by
    intro s rest hread
    obtain ⟨inside, hinside, hbracket⟩ := Option.bind_eq_some_iff.1 hread
    have hsuffix : rest <:+ Text.trimStart inside := ⟨_, (Text.after?_eq_some.1 hbracket).symm⟩
    exact hsuffix.trans ((Text.trimStart_suffix inside).trans (Text.afterFold?_suffix hinside))
  exact Region.script?_suffix hclose hscript

/-- Setup scripts that are closed in a piece. -/
theorem settles_setupScript? (hp : Verbatim.ClosesScripts (closingTag? "script") p) :
    Settles setupScript? p := by
  intro s hs hne u
  have hclose : Text.EndsAtSign (closingTag? "script") :=
    Region.endsAtSign_closingTag? (forall_mem_of_all (by decide))
  have hscript := Region.script?_append hclose rfl (hp s hs) hne u
  rw [setupScript?, setupScript?, hscript]
  cases hread : Region.script? (closingTag? "script") s with
  | none => rfl
  | some found =>
    obtain ⟨attributes, body, rest⟩ := found
    have hlength : (s ++ '@' :: u).length - (rest ++ '@' :: u).length = s.length - rest.length := by
      simp only [List.length_append]
      omega
    simp only [Option.map_some, Option.bind_eq_bind, Option.bind_some, hlength]
    rw [List.take_append_of_le_length (Nat.sub_le _ _)]
    rfl

end Assets

namespace Verbatim

theorem Closes.settles_region? (hp : Closes p) : Settles Assets.region? p := by
  have hnames : ∀ name ∈ Assets.regions, name ∈ regionNames := by decide
  intro s hs hne u
  exact Text.findSome?_eq_map fun name hname => hp.settles_named? (hnames name hname) s hs hne u

theorem IsQuiet.silent_region? (hc : IsQuiet c) :
    Text.Silent Assets.region? (ofContent c) := by
  have hwords : ∀ name ∈ Assets.regions, "@" ++ name ∈ headerWords := by decide
  intro s hs hne u
  refine List.findSome?_eq_none_iff.2 fun name hname => ?_
  exact hc.silent (hwords name hname) (ledBy_named? name) s hs hne u

theorem withoutAssets_append (h : ∀ c ∈ blanks, isBlank c = true) (t : Text) :
    withoutAssets (blanks ++ t) = blanks ++ withoutAssets t := by
  have hsign : '@' ∉ blanks := fun hmem => absurd (h _ hmem) (by decide)
  have hsilent : Text.Silent Assets.region? blanks := by
    intro s hs hne u
    refine List.findSome?_eq_none_iff.2 fun name _ => ?_
    exact (ledBy_named? name).silent_of_notMem (by decide) hsign s hs hne u
  have hsilent' := hsilent.map fun _ => ([] : Text)
  unfold withoutAssets
  rw [Text.substitute_eq_pass, Text.substitute_eq_pass, Text.pass_silent hsilent',
    List.flatMap_singleton']

theorem Closes.of_append (hblanks : ∀ c ∈ blanks, isBlank c = true) (h : Closes (blanks ++ p)) :
    Closes p where
  args := fun s hs => h.args s (hs.trans (List.suffix_append _ _))
  subscribe := h.subscribe.suffix (List.suffix_append _ _)
  regions := fun s hs => h.regions s (hs.trans (List.suffix_append _ _))
  scripts := fun s hs => h.scripts s (hs.trans (List.suffix_append _ _))
  setups := by
    intro s hs
    have hsetups := h.setups s
    rw [withoutAssets_append hblanks] at hsetups
    exact hsetups (hs.trans (List.suffix_append _ _))

/-- **The assets agree.** -/
theorem Varies.assets_eq {s t : Text} (h : Varies Closes IsQuiet s t) :
    Assets.source? s = Assets.source? t := by
  have hcontents := h.readAll_eq (fun p hp => hp.settles_region?) (fun c hc => hc.silent_region?)
    Assets.consumes_region?
  have houtside : Varies (ClosesScripts (closingTag? "script")) IsQuiet (withoutAssets s)
      (withoutAssets t) :=
    h.substitute (Assets.consumes_region?.map fun _ => [])
      (fun p hp => ⟨hp.settles_region?.map fun _ => [], hp.setups⟩)
      (fun c hc => hc.silent_region?.map fun _ => [])
  have hscripts := houtside.readAll_eq (fun p hp => Assets.settles_setupScript? hp)
    (fun c hc => hc.silent (by decide) Assets.ledBy_setupScript?)
    (Assets.ledBy_setupScript?.consumes (by decide))
  have hscripts' : Text.readAll (fun _ => Assets.setupScript?) (withoutAssets s) =
      Text.readAll (fun _ => Assets.setupScript?) (withoutAssets t) := hscripts
  unfold withoutAssets at hscripts'
  simp only [Assets.source?, hcontents, hscripts']

end Verbatim
end BladeView
