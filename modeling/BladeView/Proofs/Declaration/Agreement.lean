import BladeView.Proofs.Declaration.Removal
import BladeView.Proofs.Markup.Standing

/-!
# Which declaring directives are read and which are removed

The declarations are read from the source, and the directives are removed from the rendered text. The
two look for directives in different ways. The reading takes any blanks before an argument list and
any character before the at sign but another one, and leaves out regions without declarations. The
removal takes spaces and tabs only, no directive right after a name, and whatever the passes before
it have left.

## Main statements

* `Declaration.Occurrence.visited_deleted_iff`: which occurrences are read and which are removed.
-/
namespace BladeView

namespace Declaration.Occurrence

variable {t : Text} (o : Occurrence t)

/-- The passes before the removal leave the occurrence and the character before it as they are, no
region hides it, and it is inside of no other directive. -/
structure Undisturbed : Prop where
  rendered_eq : ∃ before after, Body.rendered t = before ++ (o.span ++ after) ∧
    (Traced.chars before).getLast? = o.front.getLast?
  clear : o.isOpaque = false
  not_inVisit : ¬ o.InVisit
  not_inRemoval : ¬ o.InRemoval

theorem Undisturbed.exists_copied (h : o.Undisturbed) :
    ∃ before args after, o.Copied before args after ∧
      (Traced.chars before).getLast? = o.front.getLast? := by
  obtain ⟨before, after, hrendered, hlast⟩ := h.rendered_eq
  refine ⟨before, Traced.ofText o.start o.args, after, ⟨?_, ?_⟩, hlast⟩
  · rw [hrendered, span]
    simp
  · rw [Traced.chars_ofText]
    exact Group.inside?_rest o.read_eq (Traced.chars after)

theorem Undisturbed.deleted_iff (h : o.Undisturbed) :
    o.Deleted ↔ o.Visited ∧ (∀ c ∈ o.blanks, isSpaceOrTab c = true) ∧
      o.front.getLast?.any isNameChar = false := by
  obtain ⟨before, args, after, hcopied, hlast⟩ := h.exists_copied
  rw [o.deleted_iff, o.visited_iff]
  constructor
  · rintro ⟨⟨before', args', after', hcopied', hstarts⟩, hnarrow, -⟩
    have hnodup := o.rendered_carries.nodup
    rw [hcopied.rendered_eq] at hnodup
    obtain ⟨rfl, -⟩ := Traced.append_cons_unique rfl hnodup
      (hcopied.rendered_eq.symm.trans hcopied'.rendered_eq)
    rw [hlast, Body.startsDirective_iff] at hstarts
    exact ⟨⟨h.clear, hstarts.1, h.not_inVisit⟩, hnarrow, hstarts.2⟩
  · rintro ⟨⟨-, hsign, -⟩, hnarrow, hname⟩
    refine ⟨⟨before, args, after, hcopied, ?_⟩, hnarrow, h.not_inRemoval⟩
    rw [hlast]
    exact Body.startsDirective_iff.2 ⟨hsign, hname⟩

/-- **Which occurrences are read, and which are removed.** The declarations are those of the visited
occurrences, and the body is what the removal leaves of the rendered text. An occurrence is visited
if no region hides it, no at sign stands before it and it is inside of no other one that is visited.
It is removed if the passes before the removal leave it with a closed list, no at sign and no name
stands before what they leave, only spaces and tabs stand before the list, and it is inside of no
other one that is removed. So the two differ even where nothing disturbs an occurrence: a visited one
is removed just if only spaces and tabs stand before its list and it does not follow a name. -/
theorem visited_deleted_iff :
    Declarations.read t = (Declarations.visits t).flatMap (fun visit => ofArgs visit.1.1 visit.1.2) ∧
    (∃ stays : Traced, (Body.ofTemplate t).text =
        Body.removeStandaloneSubscribe (Traced.chars stays) ∧
      (stays ++ (Body.removed t).flatten).Perm (Body.rendered t)) ∧
    (o.Visited ↔ o.isOpaque = false ∧ o.front.getLast? ≠ some '@' ∧ ¬ o.InVisit) ∧
    (o.Deleted ↔ (∃ before args after, o.Copied before args after ∧
        Body.startsDirective (Traced.chars before).getLast? = true) ∧
      (∀ c ∈ o.blanks, isSpaceOrTab c = true) ∧ ¬ o.InRemoval) ∧
    (o.Undisturbed → (o.Deleted ↔ o.Visited ∧ (∀ c ∈ o.blanks, isSpaceOrTab c = true) ∧
      o.front.getLast?.any isNameChar = false)) :=
  ⟨Declarations.read_eq_visits t, Body.exists_stays t, o.visited_iff, o.deleted_iff,
    Undisturbed.deleted_iff o⟩

/-- Two declarations, the second with a line break before its argument list. -/
def twoLines : Text := "@let ($x = 1)\n@const\n($y = 2)"

def firstLine : Occurrence twoLines where
  front := []
  kind := .let
  blanks := [' ']
  args := "$x = 1"
  back := "\n@const\n($y = 2)"
  text_eq := by decide
  blanks_isBlank := List.forall_mem_singleton.2 rfl
  read_eq := by decide +kernel

def secondLine : Occurrence twoLines where
  front := "@let ($x = 1)\n"
  kind := .const
  blanks := ['\n']
  args := "$y = 2"
  back := []
  text_eq := by decide
  blanks_isBlank := List.forall_mem_singleton.2 rfl
  read_eq := by decide +kernel

/-- Both declarations are read, and only the first one is removed. -/
theorem visited_deleted_iff_twoLines :
    (firstLine.Undisturbed ∧ firstLine.Visited ∧ firstLine.Deleted) ∧
      secondLine.Undisturbed ∧ secondLine.Visited ∧ ¬ secondLine.Deleted := by
  have hundisturbed : ∀ o : Occurrence twoLines, o.isOpaque = false →
      (∀ visit ∈ Declarations.visits twoLines, o.sign ∉ visit.2.tail) →
      (∀ d ∈ Body.removals twoLines, o.sign ∉ d.tail) →
      (∃ before after, Body.rendered twoLines = before ++ (o.span ++ after) ∧
        (Traced.chars before).getLast? = o.front.getLast?) → o.Undisturbed :=
    fun o hclear hvisits hremovals hrendered =>
      ⟨hrendered, hclear, fun ⟨visit, hmem, htail⟩ => hvisits visit hmem htail,
        fun ⟨d, hmem, htail⟩ => hremovals d hmem htail⟩
  have hfirst : firstLine.Undisturbed := hundisturbed firstLine (by decide +kernel)
    (by decide +kernel) (by decide +kernel)
    ⟨[], Traced.ofText 13 "\n@const\n($y = 2)", by decide +kernel, rfl⟩
  have hsecond : secondLine.Undisturbed := hundisturbed secondLine (by decide +kernel)
    (by decide +kernel) (by decide +kernel)
    ⟨Traced.ofText 0 "@let ($x = 1)\n", [], by decide +kernel, by decide +kernel⟩
  obtain ⟨-, -, hvisitedFirst, -, hdeletedFirst⟩ := firstLine.visited_deleted_iff
  obtain ⟨-, -, hvisitedSecond, -, hdeletedSecond⟩ := secondLine.visited_deleted_iff
  have hvisited : firstLine.Visited :=
    hvisitedFirst.2 ⟨hfirst.clear, by decide, hfirst.not_inVisit⟩
  have hdeleted : firstLine.Deleted :=
    (hdeletedFirst hfirst).2 ⟨hvisited, List.forall_mem_singleton.2 rfl, rfl⟩
  refine ⟨⟨hfirst, hvisited, hdeleted⟩, hsecond,
    hvisitedSecond.2 ⟨hsecond.clear, by decide +kernel, hsecond.not_inVisit⟩, ?_⟩
  intro h
  exact absurd (((hdeletedSecond hsecond).1 h).2.1 '\n' (by decide)) (by decide)

end Declaration.Occurrence
end BladeView
