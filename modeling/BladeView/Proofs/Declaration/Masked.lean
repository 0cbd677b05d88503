import BladeView.Proofs.Declaration.Visit
import BladeView.Proofs.Source.Outside

/-!
# Declarations around verbatim regions

A verbatim region holds no declarations: it is masked as a whole, unless a word in its content
closes it in another case. What is declared before and after it does not depend on its content, as
long as no argument list and no script element reaches into it.
-/
namespace BladeView

open Text (afterFold? readBeyond upTo?)
open Region (ofContent)
open Option (bind_some map_eq_some_iff map_map map_some or)
open List (cons_append length_append length_cons replicate)

variable {t s c p : Text}

namespace Declaration

theorem named?_eq (t name : Text) (kind : DeclarationKind) :
    named? t (name, kind) = (Header.directive? name t).map fun found => (kind, found.2) := by
  rw [named?, Header.directive?]
  cases Text.after? name t with
  | none => rfl
  | some rest =>
    simp only [Option.bind_eq_bind, bind_some]
    split <;> rfl

/-- A declaring directive is one with an argument list. -/
theorem exists_of_directive? {rest : Text} {kind : DeclarationKind}
    (h : directive? t = some (kind, rest)) :
    ∃ name ∈ Verbatim.argumentNames, Header.directive? name t = some ((), rest) := by
  have hnames : ∀ entry ∈ directives, entry.1 ∈ Verbatim.argumentNames := by decide
  rw [directive?_eq] at h
  obtain ⟨⟨name, kind'⟩, hentry, hread⟩ := List.exists_of_findSome?_eq_some h
  rw [named?_eq] at hread
  obtain ⟨found, hfound, heq⟩ := map_eq_some_iff.1 hread
  cases heq
  exact ⟨name, hnames _ hentry, hfound⟩

theorem directive?_append (hs : s ≠ []) (u : Text) :
    directive? (s ++ '@' :: u) =
      (directive? s).map fun found => (found.1, found.2 ++ '@' :: u) := by
  have hsign : ∀ entry ∈ directives, entry.1.head? = some '@' ∧ '@' ∉ entry.1.tail := by decide
  rw [directive?_eq, directive?_eq]
  refine Text.findSome?_eq_map fun entry hentry => ?_
  obtain ⟨name, kind⟩ := entry
  obtain ⟨hhead, hword⟩ := hsign _ hentry
  obtain ⟨word, rfl⟩ : ∃ word, name = '@' :: word := ⟨_, List.eq_cons_of_mem_head? hhead⟩
  change '@' ∉ word at hword
  rw [named?_eq, named?_eq, Header.directive?_append hword hs u, map_map, map_map]
  rfl

end Declaration

namespace Declarations

/-! ## The mask -/

/-- Reads a region without declarations. -/
def masked? (t : Text) : Option (Unit × Text) := (opaqueRegion? t).map fun rest => ((), rest)

theorem opaqueMask_eq_pass (t : Text) :
    opaqueMask t = Text.pass masked? (fun _ n => replicate n true) (fun _ => [false]) t := by
  refine Text.sweep_congr (fun before state c t => ?_) none () 0 t
  rw [masked?]
  cases opaqueRegion? (c :: t) <;> rfl

theorem consumes_masked? : Text.Consumes masked? := by
  intro t value rest hread
  obtain ⟨rest', hregion, heq⟩ := map_eq_some_iff.1 hread
  cases heq
  obtain hscript | ⟨-, hnamed⟩ := Option.or_eq_some_iff.1 hregion
  · obtain ⟨⟨attributes, body, rest'⟩, hfound, rfl⟩ := map_eq_some_iff.1 hscript
    obtain ⟨inside, hinside, hrest⟩ :=
      Region.script?_suffix (fun _ _ => Text.afterFold?_suffix) hfound
    exact Text.exists_piece_of_afterFold? (by decide) hinside hrest
  · obtain ⟨found, hfound, rfl⟩ := map_eq_some_iff.1 hnamed
    exact (Region.ledBy_named? "verbatim").consumes (by decide) _ _ _ hfound

theorem length_opaqueMask (t : Text) : (opaqueMask t).length = t.length := by
  rw [opaqueMask_eq_pass]
  induction t using Text.substitute_induction consumes_masked? with
  | nil => rfl
  | found t value rest hread ih =>
    obtain ⟨piece, -, rfl⟩ := consumes_masked? _ _ _ hread
    rw [Text.pass_found consumes_masked? hread, length_append, ih, List.length_replicate,
      length_append]
    omega
  | other c t hread ih =>
    rw [Text.pass_other hread, length_append, ih, List.length_singleton, length_cons]
    omega

theorem upTo?_content (hc : Verbatim.IsQuiet c) (s : Text) :
    upTo? (afterFold? "@endverbatim") (c ++ ("@endverbatim" ++ s)) = some (c, s) := by
  have hends : Text.EndsAtSign (afterFold? "@endverbatim") :=
    Text.endsAtSign_afterFold? '@' (Text.forall_mem_of_all (by decide))
  have hnone : ∀ b, b <:+ c → afterFold? "@endverbatim" b = none := fun b hb =>
    hc.words b hb _ List.mem_cons_self
  clear hc
  induction c with
  | nil =>
    have hread : afterFold? "@endverbatim" ('@' :: ("endverbatim" ++ s)) = some s :=
      Text.afterFold?_of_after? (Text.forall_mem_of_all (by decide)) (Text.after?_eq_some.2 rfl)
    change upTo? (afterFold? "@endverbatim") ('@' :: ("endverbatim" ++ s)) = _
    rw [upTo?, hread]
  | cons x c ih =>
    have hread : afterFold? "@endverbatim" (x :: (c ++ ("@endverbatim" ++ s))) = none := by
      have hmore := hends (x :: c) (List.cons_ne_nil x c) ("endverbatim" ++ s)
      rwa [hnone _ List.suffix_rfl, Option.map_none] at hmore
    rw [cons_append, upTo?, hread]
    simp only [ih fun b hb => hnone b (hb.trans (List.suffix_cons x c)), map_some]

/-- A region is masked as a whole. -/
theorem masked?_region (hc : Verbatim.IsQuiet c) (s : Text) :
    masked? (ofContent c ++ s) = some ((), s) := by
  have hword : Text.afterFoldWord? "@verbatim" (ofContent c ++ s) =
      some (c ++ ("@endverbatim" ++ s)) := by
    have hread : afterFold? "@verbatim" (ofContent c ++ s) =
        some (c ++ ("@endverbatim" ++ s)) :=
      Text.afterFold?_of_after? (Text.forall_mem_of_all (by decide))
        (Text.after?_eq_some.2 (Region.ofContent_append c s))
    have hends : Text.endsWord (c ++ ("@endverbatim" ++ s)) = true := by
      refine (Text.endsWord_append_cons (by decide) c _).trans ?_
      cases c with
      | nil => rfl
      | cons x c => simpa [Text.endsWord] using hc.starts
    rw [Text.afterFoldWord?, hread, Option.filter_some, if_pos hends]
  have hscript : Text.afterFoldWord? "<script" (ofContent c ++ s) = none := by
    have hnone : afterFold? "<script" (ofContent c ++ s) = none := by
      rw [Region.ofContent_cons]
      exact Text.afterFold?_eq_none rfl (by decide) _ _
    rw [Text.afterFoldWord?, hnone]
    rfl
  rw [masked?, opaqueRegion?, Region.script?, hscript, Region.named?]
  change (or none (((Text.afterFoldWord? "@verbatim" _).bind
    (upTo? (afterFold? "@endverbatim"))).map Prod.snd)).map _ = _
  rw [hword, bind_some, upTo?_content hc]
  rfl

end Declarations

namespace Verbatim

theorem Closes.settles_masked? (hp : Closes p) : Text.Settles Declarations.masked? p := by
  intro s hs hne u
  have hclose : Text.EndsAtSign (afterFold? "</script>") :=
    Text.endsAtSign_afterFold? '<' (Text.forall_mem_of_all (by decide))
  have hscript := Region.script?_append hclose rfl (hp.scripts s hs) hne u
  have hnamed := hp.settles_named? (by decide : "verbatim".toList ∈ regionNames) s hs hne u
  rw [Declarations.masked?, Declarations.masked?, Declarations.opaqueRegion?,
    Declarations.opaqueRegion?, hscript, hnamed]
  cases Region.script? (afterFold? "</script>") s with
  | some found => rfl
  | none => cases Region.named? "verbatim" s <;> rfl

end Verbatim

namespace Declarations

theorem opaqueMask_region (hp : Verbatim.Closes p) (hc : Verbatim.IsQuiet c) (s : Text) :
    opaqueMask (p ++ (ofContent c ++ s)) =
      opaqueMask p ++ (replicate (ofContent c).length true ++ opaqueMask s) := by
  have hlength : (ofContent c ++ s).length - s.length = (ofContent c).length := by
    rw [length_append]
    omega
  have hpiece : opaqueMask (p ++ (ofContent c ++ s)) =
      opaqueMask p ++ opaqueMask (ofContent c ++ s) := by
    rw [Region.ofContent_cons]
    simp only [opaqueMask_eq_pass]
    exact Text.pass_append consumes_masked? hp.settles_masked? _
  rw [hpiece, opaqueMask_eq_pass (ofContent c ++ s),
    Text.pass_found consumes_masked? (masked?_region hc s), hlength, ← opaqueMask_eq_pass]

/-! ## The declarations -/

/-- Reads a declaring directive with its argument list. -/
def declared? (t : Text) : Option (DeclarationKind × Text × Text) :=
  (Declaration.directive? t).bind fun (kind, rest) =>
    (Group.read? rest).map fun (args, after) => (kind, args, after)

/-- A directive whose argument list is closed in a piece. -/
theorem declared?_append (h : ∀ found, Declaration.directive? s = some found →
    (Group.read? found.2).isSome) (hs : s ≠ []) (u : Text) :
    declared? (s ++ '@' :: u) =
      (declared? s).map fun found => (found.1, found.2.1, found.2.2 ++ '@' :: u) := by
  rw [declared?, declared?, Declaration.directive?_append hs u]
  cases hread : Declaration.directive? s with
  | none => rfl
  | some found =>
    obtain ⟨⟨args, after⟩, hgroup⟩ := Option.isSome_iff_exists.1 (h found hread)
    simp only [map_some, bind_some, hgroup, Group.read?_append_right hgroup]

theorem readFrom_declared {before : Option Char} {masked : Bool} {mask : List Bool} {c : Char} :
    readFrom before 0 (masked :: mask) (c :: t) =
      match if masked || before == some '@' then none else declared? (c :: t) with
      | some (kind, args, after) =>
        Declaration.ofArgs kind args ++ readFrom (some c) (readBeyond (c :: t) after) mask t
      | none => readFrom (some c) 0 mask t := rfl

/-- The declarations of a piece that closes its argument lists, and of what follows. -/
theorem readFrom_append (hp : ∀ s, s <:+ p → ∀ found, Declaration.directive? s = some found →
      (Group.read? found.2).isSome) {before : Option Char} {jump : Nat} {mask : List Bool}
    (hmask : mask.length = p.length) (hjump : jump ≤ p.length) (rest : List Bool) (u : Text) :
    readFrom before jump (mask ++ rest) (p ++ '@' :: u) =
      readFrom before jump mask p ++ readFrom (p.getLast?.or before) 0 rest ('@' :: u) := by
  induction p generalizing before jump mask with
  | nil =>
    obtain rfl : jump = 0 := Nat.le_zero.1 hjump
    obtain rfl : mask = [] := List.length_eq_zero_iff.1 hmask
    rfl
  | cons c p ih =>
    have hsuffix := fun s (hs : s <:+ p) => hp s (hs.trans (List.suffix_cons c p))
    obtain ⟨masked, mask, rfl⟩ := List.exists_cons_of_length_eq_add_one hmask
    have hlength : mask.length = p.length := Nat.succ.inj hmask
    rw [Text.getLast?_cons_or]
    cases jump with
    | succ jump => exact ih hsuffix hlength (Nat.le_of_succ_le_succ hjump)
    | zero =>
      have hread := declared?_append (hp (c :: p) List.suffix_rfl) (List.cons_ne_nil c p) u
      rw [cons_append] at hread
      rw [cons_append, cons_append, readFrom_declared, readFrom_declared, hread]
      split_ifs
      · exact ih hsuffix hlength (Nat.zero_le _)
      · cases declared? (c :: p) with
        | none => exact ih hsuffix hlength (Nat.zero_le _)
        | some found =>
          obtain ⟨kind, args, after⟩ := found
          have hbeyond : readBeyond (c :: (p ++ '@' :: u)) (after ++ '@' :: u) =
              readBeyond (c :: p) after := by
            simp only [readBeyond, length_cons, length_append]
            omega
          have hshort : readBeyond (c :: p) after ≤ p.length := by
            rw [readBeyond, length_cons]
            omega
          simp only [map_some, hbeyond, ih hsuffix hlength hshort, List.append_assoc]

/-- Nothing is declared in a masked piece. -/
theorem readFrom_masked (v : Text) (before : Option Char) (mask : List Bool) (u : Text) :
    readFrom before 0 (replicate v.length true ++ mask) (v ++ u) =
      readFrom (v.getLast?.or before) 0 mask u := by
  induction v generalizing before with
  | nil => rfl
  | cons c v ih =>
    rw [Text.getLast?_cons_or, ← ih, length_cons, List.replicate_succ, cons_append,
      cons_append, readFrom]
    rfl

end Declarations

namespace Verbatim.Varies

/-- **The declarations agree.** -/
theorem declarations_eq (h : Varies Closes IsQuiet s t) :
    Declarations.read s = Declarations.read t := by
  have hregion : ∀ {p c}, Closes p → IsQuiet c → ∀ before s,
      Declarations.readFrom before 0 (Declarations.opaqueMask (p ++ (ofContent c ++ s)))
          (p ++ (ofContent c ++ s)) =
        Declarations.readFrom before 0 (Declarations.opaqueMask p) p ++
          Declarations.readFrom (some 'm') 0 (Declarations.opaqueMask s) s := by
    intro p c hp hc before s
    have hargs : ∀ s, s <:+ p → ∀ found, Declaration.directive? s = some found →
        (Group.read? found.2).isSome := by
      intro s hs found hread
      obtain ⟨name, hname, hdirective⟩ := Declaration.exists_of_directive? hread
      exact hp.args s hs name hname _ hdirective
    have hmasked := Declarations.readFrom_masked (ofContent c) (p.getLast?.or before)
      (Declarations.opaqueMask s) s
    rw [Region.getLast?_ofContent, Option.some_or] at hmasked
    rw [Declarations.opaqueMask_region hp hc, ← hmasked]
    rw [Region.ofContent_cons]
    exact Declarations.readFrom_append hargs (Declarations.length_opaqueMask p) (Nat.zero_le _) _ _
  suffices hfrom : ∀ before, Declarations.readFrom before 0 (Declarations.opaqueMask s) s =
      Declarations.readFrom before 0 (Declarations.opaqueMask t) t from hfrom none
  induction h with
  | last p => exact fun _ => rfl
  | region hp hc hd _ ih =>
    intro before
    rw [hregion hp hc, hregion hp hd, ih]

end Verbatim.Varies
end BladeView
