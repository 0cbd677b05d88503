import BladeView.Declaration.Reader
import BladeView.Proofs.Text.Traced

/-!
# Declaring directives and the ones that are read

The occurrences of the declaring directives in a source, and the places at which declarations are
read. The reading goes from left to right: a directive is passed over if it lies in a region without
declarations, if an at sign stands before it, or if the reading is inside the argument list of
another directive at that point.
-/
namespace BladeView

open Traced (chars ofText reads)

/-- The name of a declaring directive. -/
def DeclarationKind.word : DeclarationKind → Text
  | vars => "vars"
  | «let» => "let"
  | const => "const"
  | useState => "useState"

namespace Declaration

/-- Reads one declaring directive up to its argument list. -/
def named? (t : Text) (directive : Text × DeclarationKind) : Option (DeclarationKind × Text) :=
  (Text.after? directive.1 t).bind fun rest =>
    if Text.startsWith "(" (Text.trimStart rest) then some (directive.2, Text.trimStart rest) else none

theorem directive?_eq (t : Text) : directive? t = directives.findSome? (named? t) := rfl

/-- A declaring directive is read up to its argument list, whatever blanks stand before that. -/
theorem directive?_word (kind : DeclarationKind) {blanks : Text}
    (hblanks : ∀ c ∈ blanks, isBlank c = true) (rest : Text) :
    directive? ('@' :: (kind.word ++ (blanks ++ '(' :: rest))) = some (kind, '(' :: rest) := by
  have htrim : Text.trimStart (blanks ++ '(' :: rest) = '(' :: rest :=
    (List.dropWhile_append_of_pos hblanks).trans rfl
  generalize blanks ++ '(' :: rest = t at htrim
  generalize hs : '@' :: (kind.word ++ t) = s
  have hread : ∀ name, Text.after? name s = some t →
      named? s (name, kind) = some (kind, '(' :: rest) := by
    intro name hafter
    rw [named?, hafter, Option.bind_some, htrim]
    rfl
  have hskip : ∀ name other, Text.after? name s = none → named? s (name, other) = none := by
    intro name other hafter
    rw [named?, hafter]
    rfl
  subst hs
  rw [directive?_eq, directives]
  cases kind with
  | vars => rw [List.findSome?_cons, hread _ rfl]
  | «let» => rw [List.findSome?_cons, hskip _ _ rfl, List.findSome?_cons, hread _ rfl]
  | const =>
    rw [List.findSome?_cons, hskip _ _ rfl, List.findSome?_cons, hskip _ _ rfl, List.findSome?_cons,
      hread _ rfl]
  | useState =>
    rw [List.findSome?_cons, hskip _ _ rfl, List.findSome?_cons, hskip _ _ rfl, List.findSome?_cons,
      hskip _ _ rfl, List.findSome?_cons, hread _ rfl]

/-- A declaring directive with a closed argument list in a source. -/
structure Occurrence (t : Text) where
  front : Text
  kind : DeclarationKind
  blanks : Text
  args : Text
  back : Text
  text_eq : t = front ++ '@' :: (kind.word ++ (blanks ++ '(' :: (args ++ ')' :: back)))
  blanks_isBlank : ∀ c ∈ blanks, isBlank c = true
  read_eq : Group.read? ('(' :: (args ++ ')' :: back)) = some (args, back)

namespace Occurrence

variable {t : Text} (o : Occurrence t)

/-- The at sign. -/
def sign : Char × Option Nat := ('@', some o.front.length)

/-- From the name to the parenthesis that opens the argument list. -/
def opening : Traced := ofText (o.front.length + 1) (o.kind.word ++ (o.blanks ++ ['(']))

/-- Where the arguments begin. -/
def start : Nat := o.front.length + 1 + (o.kind.word ++ (o.blanks ++ ['('])).length

/-- The parenthesis that closes the argument list. -/
def closing : Char × Option Nat := (')', some (o.start + o.args.length))

/-- The whole directive. -/
def span : Traced := o.sign :: (o.opening ++ (ofText o.start o.args ++ [o.closing]))

theorem ofText_eq : ofText 0 t = ofText 0 o.front ++ o.sign ::
    (o.opening ++ (ofText o.start o.args ++
      o.closing :: ofText (o.start + o.args.length + 1) o.back)) := by
  have hopening : o.kind.word ++ (o.blanks ++ '(' :: (o.args ++ ')' :: o.back)) =
      (o.kind.word ++ (o.blanks ++ ['('])) ++ (o.args ++ ')' :: o.back) := by simp
  have hsplit : ofText 0 t = ofText 0 o.front ++ o.sign ::
      ofText (o.front.length + 1)
        (o.kind.word ++ (o.blanks ++ '(' :: (o.args ++ ')' :: o.back))) := by
    rw [congrArg (ofText 0) o.text_eq, Traced.ofText_append, Nat.zero_add]
    rfl
  have hargs : ofText o.start (o.args ++ ')' :: o.back) = ofText o.start o.args ++
      o.closing :: ofText (o.start + o.args.length + 1) o.back :=
    Traced.ofText_append _ _ _
  rw [hsplit, hopening, Traced.ofText_append _ (o.kind.word ++ (o.blanks ++ ['('])), ← hargs]
  rfl

end Occurrence
end Declaration

namespace Declarations

/-- Reads a declaring directive with its argument list. `mask` tells for each place of the source
whether it lies in a region without declarations. -/
def visit? (mask : List Bool) (before : Option Char) :
    Traced → Option ((DeclarationKind × Text) × Nat)
  | [] => none
  | x :: r =>
    if (x.2.bind fun i => mask[i]?).getD false || before == some '@' then none
    else (Declaration.directive? (chars (x :: r))).bind fun directive =>
      (Group.read? directive.2).map fun list =>
        ((directive.1, list.1), Text.readBeyond (chars (x :: r)) list.2)

/-- The directives whose arguments are read, in order, with their pieces of the source. -/
def visits (t : Text) : List ((DeclarationKind × Text) × Traced) :=
  reads (visit? (opaqueMask t)) none 0 (ofText 0 t)

theorem visit?_ofText (mask : List Bool) (before : Option Char) (i : Nat) (c : Char) (t : Text) :
    visit? mask before (ofText i (c :: t)) =
      if (mask.drop i).headD false || before == some '@' then none
      else (Declaration.directive? (c :: t)).bind fun directive =>
        (Group.read? directive.2).map fun list =>
          ((directive.1, list.1), Text.readBeyond (c :: t) list.2) := by
  have hhead : (mask.drop i).headD false = (mask[i]?).getD false := by
    rw [List.headD_eq_head?_getD, List.head?_drop]
  rw [hhead, ofText, visit?, ← ofText, Traced.chars_ofText]
  rfl

theorem readFrom_eq (mask : List Bool) (before : Option Char) (jump i : Nat) (t : Text) :
    readFrom before jump (mask.drop i) t =
      (reads (visit? mask) before jump (ofText i t)).flatMap fun visit =>
        Declaration.ofArgs visit.1.1 visit.1.2 := by
  induction t generalizing before jump i with
  | nil => cases jump <;> rfl
  | cons c t ih =>
    have htail : (mask.drop i).tail = mask.drop (i + 1) := List.tail_drop
    cases jump with
    | succ jump =>
      rw [readFrom, htail, ih]
      rfl
    | zero =>
      have hvisit := visit?_ofText mask before i c t
      have hnone : visit? mask before (ofText i (c :: t)) = none →
          reads (visit? mask) before 0 (ofText i (c :: t)) =
            reads (visit? mask) (some c) 0 (ofText (i + 1) t) := Traced.reads_other
      rw [readFrom]
      cases hskip : (mask.drop i).headD false || before == some '@' with
      | true =>
        rw [hnone (by rw [hvisit, hskip, if_pos rfl])]
        simp only [if_true, htail, ih]
      | false =>
        rw [hskip] at hvisit
        cases hdirective : Declaration.directive? (c :: t) with
        | none =>
          rw [hnone (by rw [hvisit, hdirective]; rfl)]
          simp only [Bool.false_eq_true, if_false, Option.bind_none, htail, ih]
        | some found =>
          obtain ⟨kind, rest⟩ := found
          cases hread : Group.read? rest with
          | none =>
            rw [hnone (by rw [hvisit, hdirective, Option.bind_some, hread]; rfl)]
            simp only [Bool.false_eq_true, if_false, Option.bind_some, hread, Option.map_none, htail,
              ih]
          | some list =>
            obtain ⟨args, after⟩ := list
            have hfound : visit? mask before (ofText i (c :: t)) =
                some ((kind, args), Text.readBeyond (c :: t) after) := by
              rw [hvisit, hdirective, Option.bind_some, hread]
              rfl
            have hreads : reads (visit? mask) before 0 (ofText i (c :: t)) = _ :=
              Traced.reads_found hfound
            rw [hreads]
            simp only [Bool.false_eq_true, if_false, Option.bind_some, hread, Option.map_some, htail,
              ih, List.flatMap_cons]

/-- **The declarations of a source are those of the directives that are visited.** -/
theorem read_eq_visits (t : Text) :
    read t = (visits t).flatMap fun visit => Declaration.ofArgs visit.1.1 visit.1.2 :=
  readFrom_eq (opaqueMask t) none 0 0 t

end Declarations

namespace Declaration.Occurrence

variable {t : Text} (o : Occurrence t)

/-- The directive lies in a region without declarations. -/
def isOpaque : Bool := ((Declarations.opaqueMask t)[o.front.length]?).getD false

/-- The arguments of the directive are read. -/
def Visited : Prop := ((o.kind, o.args), o.span) ∈ Declarations.visits t

/-- The directive stands inside of another one whose arguments are read. -/
def InVisit : Prop := ∃ visit ∈ Declarations.visits t, o.sign ∈ visit.2.tail

/-- What the reader of declarations makes of an occurrence. -/
theorem visit?_eq (mask : List Bool) (before : Option Char) (rest : Traced)
    (hrest : chars rest = o.back) :
    Declarations.visit? mask before (o.span ++ rest) =
      if (mask[o.front.length]?).getD false || before == some '@' then none
      else some ((o.kind, o.args), (o.span).length - 1) := by
  have hchars : chars (o.span ++ rest) =
      '@' :: (o.kind.word ++ (o.blanks ++ '(' :: (o.args ++ ')' :: o.back))) := by
    simp [span, sign, opening, closing, hrest]
  have hcons : o.span ++ rest =
      o.sign :: (o.opening ++ (ofText o.start o.args ++ [o.closing]) ++ rest) := rfl
  have hbeyond : Text.readBeyond (chars (o.span ++ rest)) o.back = o.span.length - 1 := by
    rw [Text.readBeyond, ← hrest, Traced.length_chars, Traced.length_chars, List.length_append,
      Nat.add_sub_cancel]
  rw [hchars] at hbeyond
  rw [hcons, Declarations.visit?, ← hcons, hchars, directive?_word _ o.blanks_isBlank,
    Option.bind_some, o.read_eq, Option.map_some, hbeyond]
  rfl

/-- **An occurrence is visited if it lies in no region without declarations, no at sign stands
before it, and it is not inside of another one that is visited.** -/
theorem visited_iff :
    o.Visited ↔ o.isOpaque = false ∧ o.front.getLast? ≠ some '@' ∧ ¬ o.InVisit := by
  have hsplit : ofText 0 t = ofText 0 o.front ++
      (o.span ++ ofText (o.start + o.args.length + 1) o.back) := by
    rw [o.ofText_eq]
    simp [span]
  have hnodup := Traced.nodup_origins_ofText 0 t
  rw [hsplit] at hnodup
  have hvisits : Declarations.visits t =
      reads (Declarations.visit? (Declarations.opaqueMask t)) none 0
        (ofText 0 o.front ++ (o.span ++ ofText (o.start + o.args.length + 1) o.back)) := by
    rw [Declarations.visits, hsplit]
  have hiff := @Traced.mem_reads_iff o.sign _ none _
    (Declarations.visit? (Declarations.opaqueMask t)) (ofText 0 o.front) _ rfl hnodup (o.kind, o.args) o.span
  have hbefore : Traced.lastOr (ofText 0 o.front) none = o.front.getLast? := by
    rw [Traced.lastOr, Traced.chars_ofText, Option.or_none]
  have hvisit := o.visit?_eq (Declarations.opaqueMask t) o.front.getLast? _
    (Traced.chars_ofText (o.start + o.args.length + 1) o.back)
  rw [← isOpaque] at hvisit
  have hlength : 0 < o.span.length := Nat.succ_pos _
  rw [hbefore] at hiff
  constructor
  · intro hvisited
    rw [Visited, hvisits] at hvisited
    obtain ⟨⟨n, hread, -⟩, hover⟩ := hiff.1 ⟨hvisited, rfl⟩
    replace hread := hvisit.symm.trans hread
    split at hread
    · cases hread
    · next hpasses =>
      rw [Bool.or_eq_true, beq_iff_eq, not_or, Bool.not_eq_true] at hpasses
      refine ⟨hpasses.1, hpasses.2, ?_⟩
      rintro ⟨visit, hmem, htail⟩
      rw [hvisits] at hmem
      exact hover visit hmem htail
  · rintro ⟨hclear, hat, hinside⟩
    rw [hclear, Bool.false_or, beq_false_of_ne hat, if_neg (by decide)] at hvisit
    rw [Visited, hvisits]
    refine (hiff.2 ⟨⟨_, hvisit, ?_⟩, ?_⟩).1
    · rw [Nat.sub_add_cancel hlength]
      exact List.take_left.symm
    · intro visit hmem htail
      refine hinside ⟨visit, ?_, htail⟩
      rw [hvisits]
      exact hmem

end Declaration.Occurrence
end BladeView
