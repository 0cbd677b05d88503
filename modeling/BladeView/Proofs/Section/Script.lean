import BladeView.Compile
import BladeView.Proofs.Section.Framed
import BladeView.Proofs.Text.Basic
import Mathlib.Data.List.Induction

/-!
# Scripts of sections

A script for a section is given to the first section of its name, and the description of a view
has one entry for each name, which is that of the last section of the name. So the script is in the
description if the body has at most one section of the name. If the body has several, as when both
branches of a condition have the section, the entry has no script.

## Main statements

* `View.section_script_iff`: when the description has the script of a section.
-/
namespace BladeView

variable {key name source : Text} {entry : Text × Text}

/-! ## Entries of objects -/

namespace Script

/-- The values of the entries with a key. -/
def valuesOf (key : Text) (entries : List (Text × Expr)) : List Expr :=
  (entries.filter fun entry => entry.1 == key).map Prod.snd

/-- The values that an object has under a key. An entry with an empty key stands for itself. -/
def Expr.valuesAt (key : Text) : Expr → List Expr
  | .object entries => if key.isEmpty then [] else valuesOf key entries
  | _ => []

/-- The values at the end of a path of keys. -/
def Expr.valuesUnder : List Text → Expr → List Expr
  | [], value => [value]
  | key :: path, value => (value.valuesAt key).flatMap (valuesUnder path)

theorem Expr.valuesAt_object (h : key ≠ []) (entries : List (Text × Expr)) :
    (Expr.object entries).valuesAt key = valuesOf key entries := by
  cases key with
  | nil => exact absurd rfl h
  | cons c key => rfl

theorem valuesOf_append (key : Text) (entries more : List (Text × Expr)) :
    valuesOf key (entries ++ more) = valuesOf key entries ++ valuesOf key more := by
  rw [valuesOf, List.filter_append, List.map_append, valuesOf, valuesOf]

theorem valuesOf_cons (key : Text) (entry : Text × Expr) (entries : List (Text × Expr)) :
    valuesOf key (entry :: entries) =
      if entry.1 == key then entry.2 :: valuesOf key entries else valuesOf key entries := by
  rw [valuesOf, List.filter_cons, valuesOf]
  split <;> rfl

theorem print_isInfix_printBlock (level : Nat) (stmts : List Stmt) (value : Expr)
    (more : List Stmt) :
    value.print level <:+: printBlock level (stmts ++ .expr value :: more) := by
  induction stmts with
  | nil =>
    rw [List.nil_append, printBlock, Stmt.print, List.append_assoc]
    exact List.infix_append _ _ _
  | cons stmt stmts ih =>
    rw [List.cons_append, printBlock]
    exact ih.trans (List.suffix_append ..).isInfix

end Script

open Script

/-! ## The description -/

/-- The sections of a name. -/
def Section.named (name : Text) (sections : List Section) : List Section :=
  sections.filter fun s => s.name == name

namespace View

/-- Setting an entry leaves the others. -/
theorem valuesOf_setEntry (key key' : Text) (value : Expr) (entries : List (Text × Expr)) :
    valuesOf key (setEntry key' value entries) =
      if key' == key then value :: (valuesOf key entries).tail else valuesOf key entries := by
  induction entries with
  | nil => exact valuesOf_cons ..
  | cons entry entries ih =>
    rw [setEntry]
    by_cases hentry : entry.1 = key'
    · rw [if_pos (by simpa using hentry), valuesOf_cons, valuesOf_cons, hentry]
      split <;> rfl
    · rw [if_neg (by simpa using hentry), valuesOf_cons, valuesOf_cons, ih]
      by_cases hkey : key' = key
      · subst hkey
        simp [hentry]
      · simp [hkey]

/-- A name has one entry, that of the last section of the name. -/
theorem valuesOf_sectionEntries (name : Text) (sections : List Section) :
    valuesOf name (sectionEntries sections) =
      ((Section.named name sections).getLast?.map Section.toExpr).toList := by
  induction sections using List.reverseRecOn with
  | nil => rfl
  | append_singleton sections s ih =>
    have hlast : sectionEntries (sections ++ [s]) =
        setEntry s.name s.toExpr (sectionEntries sections) := by
      rw [sectionEntries, List.foldl_append]
      rfl
    rw [hlast, valuesOf_setEntry, ih, Section.named, Section.named, List.filter_append]
    by_cases hname : s.name = name
    · have htail (last : Option Section) : (last.map Section.toExpr).toList.tail = [] := by
        cases last <;> rfl
      rw [if_pos (by simpa using hname), List.filter_cons_of_pos (by simpa using hname), htail]
      simp
    · rw [if_neg (by simpa using hname), List.filter_cons_of_neg (by simpa using hname)]
      simp

/-- The shared entries have no keys of their own. -/
theorem valuesAt_description_eq (v : View) (scan : Text) (h : key ≠ []) :
    (v.description scan).valuesAt key = valuesOf key
      (v.structureEntries ++ v.dataEntries ++ v.assetEntries ++ v.functionEntries scan) := by
  have hshared : valuesOf key v.sharedEntries = [] := by
    unfold sharedEntries
    dsimp only
    split
    · rfl
    · rw [valuesOf_cons, if_neg (by simpa using Ne.symm h)]
      rfl
  rw [description, Expr.valuesAt_object h]
  simp only [valuesOf_append, hshared, List.append_nil]

theorem valuesAt_description (v : View) (scan : Text) :
    (v.description scan).valuesAt "sections" = [.object (sectionEntries v.sections)] :=
  (v.valuesAt_description_eq scan (by decide)).trans rfl

end View

/-! ## Attaching scripts -/

namespace Section

theorem attachScript_cons {s : Section} (h : s.name = entry.1) (rest : List Section) :
    attachScript (s :: rest) entry = { s with script := some entry.2 } :: rest := by
  rw [attachScript, if_pos (by simpa using h)]

theorem attachScript_cons_of_ne {s : Section} (h : s.name ≠ entry.1) (rest : List Section) :
    attachScript (s :: rest) entry = s :: attachScript rest entry := by
  rw [attachScript, if_neg (by simpa using h)]

theorem named_cons_of_eq {s : Section} (h : s.name = name) (rest : List Section) :
    named name (s :: rest) = s :: named name rest :=
  List.filter_cons_of_pos (by simpa using h)

theorem named_cons_of_ne {s : Section} (h : s.name ≠ name) (rest : List Section) :
    named name (s :: rest) = named name rest :=
  List.filter_cons_of_neg (by simpa using h)

/-- Among the sections of one name, the script is attached to the first of them. -/
theorem named_attachScript (sections : List Section) (entry : Text × Text) :
    named entry.1 (attachScript sections entry) =
      attachScript (named entry.1 sections) entry := by
  induction sections with
  | nil => exact named_cons_of_eq rfl []
  | cons s rest ih =>
    by_cases hname : s.name = entry.1
    · rw [attachScript_cons hname, named_cons_of_eq hname, attachScript_cons hname]
      exact named_cons_of_eq (s := { s with script := some entry.2 }) hname rest
    · rw [attachScript_cons_of_ne hname, named_cons_of_ne hname, named_cons_of_ne hname, ih]

/-- The sections of other names do not change. -/
theorem named_attachScript_of_ne (h : entry.1 ≠ name) (sections : List Section) :
    named name (attachScript sections entry) = named name sections := by
  induction sections with
  | nil => exact named_cons_of_ne h []
  | cons s rest ih =>
    by_cases hentry : s.name = entry.1
    · have hname : s.name ≠ name := fun hs => h (hentry.symm.trans hs)
      rw [attachScript_cons hentry, named_cons_of_ne hname]
      exact named_cons_of_ne (s := { s with script := some entry.2 }) hname rest
    · rw [attachScript_cons_of_ne hentry]
      by_cases hname : s.name = name
      · rw [named_cons_of_eq hname, named_cons_of_eq hname, ih]
      · rw [named_cons_of_ne hname, named_cons_of_ne hname, ih]

theorem exists_named_attachScript (sections : List Section) (entry : Text × Text) :
    ∃ s, s.script = some entry.2 ∧
      named entry.1 (attachScript sections entry) = s :: (named entry.1 sections).tail := by
  rw [named_attachScript]
  cases hnamed : named entry.1 sections with
  | nil => exact ⟨_, rfl, rfl⟩
  | cons s rest =>
    have hname : s.name = entry.1 := by
      have hmem : s ∈ named entry.1 sections := hnamed ▸ List.mem_cons_self
      simpa using (List.mem_filter.1 hmem).2
    exact ⟨_, rfl, attachScript_cons hname rest⟩

/-- Scripts leave all but the first section of a name as they are. -/
theorem tail_named_foldl (name : Text) (sections : List Section) (entries : List (Text × Text)) :
    (named name (entries.foldl attachScript sections)).tail = (named name sections).tail := by
  induction entries generalizing sections with
  | nil => rfl
  | cons entry entries ih =>
    rw [List.foldl_cons, ih]
    by_cases hname : entry.1 = name
    · obtain ⟨s, -, hattached⟩ := exists_named_attachScript sections entry
      rw [← hname, hattached, List.tail_cons]
    · rw [named_attachScript_of_ne hname]

/-- Of several scripts for a name the last is left, at the first section of the name. The other
sections of the name stay as they are. -/
theorem exists_named_attached {code : Text} {entries : List (Text × Text)}
    (h : entries.reverse.lookup name = some code) (sections : List Section) :
    ∃ s, s.script = some code ∧
      named name (entries.foldl attachScript sections) = s :: (named name sections).tail := by
  induction entries using List.reverseRecOn with
  | nil => cases h
  | append_singleton entries entry ih =>
    rw [List.reverse_append, List.reverse_singleton, List.singleton_append, List.lookup_cons] at h
    rw [List.foldl_append, List.foldl_cons, List.foldl_nil]
    by_cases hname : entry.1 = name
    · obtain ⟨s, hscript, hattached⟩ :=
        exists_named_attachScript (entries.foldl attachScript sections) entry
      have hcode : entry.2 = code := by simpa [hname] using h
      rw [tail_named_foldl] at hattached
      rw [hcode] at hscript
      rw [hname] at hattached
      exact ⟨s, hscript, hattached⟩
    · have hother : (name == entry.1) = false := by simpa using Ne.symm hname
      rw [hother] at h
      rw [named_attachScript_of_ne hname]
      exact ih h

theorem script_analyze (injected : List Text) (deferred : Bool) (s : Section) :
    (s.analyze injected deferred).script = s.script := rfl

theorem named_map_analyze (name : Text) (injected : List Text) (deferred : Bool)
    (sections : List Section) :
    named name (sections.map (analyze injected deferred)) =
      (named name sections).map (analyze injected deferred) :=
  List.filter_map

/-- The script form of a script, which is an empty object if there is none. -/
def scriptExpr : Option Text → Expr
  | some code => .object [("type", .json "code"), ("content", .json code)]
  | none => .raw "\x7b\x7d"

theorem valuesAt_toExpr (s : Section) : s.toExpr.valuesAt "script" = [scriptExpr s.script] := by
  unfold toExpr scriptExpr
  cases s.script <;> rfl

end Section

/-! ## Views -/

/-- The script for a section, which is the last if there are several. -/
def Assets.scriptFor? (a : Assets) (name : Text) : Option Text :=
  a.sectionScripts.reverse.lookup name

namespace View

/-- The sections of the body of a template. -/
def bodySections (source : Text) : List Section :=
  let t := Region.stripComments (Text.trim source)
  (Machine.run (Declarations.read t).bindings (Token.ofBody (Body.ofTemplate t).text)).sections

theorem sections_ofTemplate (shared : SharedCode) (source name : Text) :
    ∃ injected deferred, (ofTemplate shared source name).sections =
      ((ofTemplate shared source name).assets.sectionScripts.foldl Section.attachScript
        (bodySections source)).map (Section.analyze injected deferred) :=
  ⟨_, _, rfl⟩

theorem script_of_mem_bodySections {s : Section} (h : s ∈ bodySections source) : s.script = none :=
  (Machine.named_of_mem_run h).2

theorem exists_functionBody_eq (v : View) (scan : Text) :
    ∃ stmts front more, v.functionBody scan =
      stmts ++ .expr (.raw (front ++ (v.description scan).print 1 ++ ")")) :: more := by
  unfold functionBody
  exact ⟨_, _, _, rfl⟩

theorem exists_source_eq (v : View) :
    ∃ front back, v.toModule.source =
      front ++ printBlock 1 (v.functionBody v.toModule.virtualRender) ++ back := by
  unfold toModule
  dsimp only
  exact ⟨_, _, rfl⟩

/-- The description of a view stands in its module. -/
theorem print_description_isInfix (v : View) :
    (v.description v.toModule.virtualRender).print 1 <:+: v.toModule.source := by
  obtain ⟨front, back, hsource⟩ := exists_source_eq v
  obtain ⟨stmts, call, more, hbody⟩ := exists_functionBody_eq v v.toModule.virtualRender
  have hcall := print_isInfix_printBlock 1 stmts
    (.raw (call ++ (v.description v.toModule.virtualRender).print 1 ++ ")")) more
  rw [← hbody] at hcall
  rw [hsource]
  exact (List.infix_append call _ _).trans (hcall.trans (List.infix_append _ _ _))

/-- A section that has a script has one entry in the description. It is that of the last section
of the name: the one the script is attached to, if the body has at most one section of the name. -/
theorem exists_section_entry {shared : SharedCode} {n c : Text}
    (h : (ofTemplate shared source name).assets.scriptFor? n = some c) (hn : n ≠ []) (scan : Text) :
    ∃ entry, ((ofTemplate shared source name).description scan).valuesUnder ["sections", n] =
        [entry] ∧
      entry.valuesAt "script" = [Section.scriptExpr
        (if (Section.named n (bodySections source)).length ≤ 1 then some c else none)] := by
  obtain ⟨injected, deferred, hsections⟩ := sections_ofTemplate shared source name
  obtain ⟨s, hscript, hattached⟩ := Section.exists_named_attached h (bodySections source)
  have hnamed := Section.named_map_analyze n injected deferred
    ((ofTemplate shared source name).assets.sectionScripts.foldl Section.attachScript
      (bodySections source))
  rw [← hsections, hattached] at hnamed
  have hvalues : ((ofTemplate shared source name).description scan).valuesUnder ["sections", n] =
      ((Section.named n (ofTemplate shared source name).sections).getLast?.map
        Section.toExpr).toList := by
    rw [Expr.valuesUnder, valuesAt_description]
    simp [Expr.valuesUnder, Expr.valuesAt_object hn, valuesOf_sectionEntries]
  rw [hvalues, hnamed, List.getLast?_map, List.getLast?_cons]
  cases hlast : (Section.named n (bodySections source)).tail.getLast? with
  | none =>
    have hone : (Section.named n (bodySections source)).length ≤ 1 := by
      have hlength := congrArg List.length (List.getLast?_eq_none_iff.1 hlast)
      rw [List.length_tail, List.length_nil] at hlength
      omega
    refine ⟨(s.analyze injected deferred).toExpr, rfl, ?_⟩
    rw [Section.valuesAt_toExpr, Section.script_analyze, hscript, if_pos hone]
  | some last =>
    have hmem : last ∈ (Section.named n (bodySections source)).tail := List.mem_of_getLast? hlast
    have hmany : ¬ (Section.named n (bodySections source)).length ≤ 1 := by
      have hlength := List.length_pos_of_mem hmem
      rw [List.length_tail] at hlength
      omega
    have hnone : last.script = none :=
      script_of_mem_bodySections (List.mem_filter.1 (List.mem_of_mem_tail hmem)).1
    refine ⟨(last.analyze injected deferred).toExpr, rfl, ?_⟩
    rw [Section.valuesAt_toExpr, Section.script_analyze, hnone, if_neg hmany]

/-- **When the description has the script of a section.** Let `c` be the last script for the
section `n` that a template registers. The description, which stands in the module, has exactly one
entry for `n` with that script if and only if the name is not empty and the body has at most one
section of the name. If the body has several, the entry says that there is no script. -/
theorem section_script_iff (shared : SharedCode) (source name : Text) {n c : Text}
    (h : (ofTemplate shared source name).assets.scriptFor? n = some c) :
    let description := (ofTemplate shared source name).description
      (compile shared source name).virtualRender
    ((∃ entry, description.valuesUnder ["sections", n] = [entry] ∧ entry.valuesAt "script" =
        [.object [("type", .json "code"), ("content", .json c)]]) ↔
      n ≠ [] ∧ (Section.named n (bodySections source)).length ≤ 1) ∧
    (n ≠ [] → 1 < (Section.named n (bodySections source)).length →
      ∃ entry, description.valuesUnder ["sections", n] = [entry] ∧
        entry.valuesAt "script" = [.raw "\x7b\x7d"]) ∧
    description.print 1 <:+: (compile shared source name).source := by
  intro description
  refine ⟨⟨?_, ?_⟩, ?_, print_description_isInfix _⟩
  · rintro ⟨entry, hentry, hscript⟩
    have hn : n ≠ [] := by
      rintro rfl
      rw [Expr.valuesUnder, valuesAt_description] at hentry
      cases hentry
    refine ⟨hn, ?_⟩
    obtain ⟨entry', hentry', hscript'⟩ := exists_section_entry h hn _
    obtain rfl : entry = entry' := by simpa using hentry.symm.trans hentry'
    by_contra hmany
    rw [if_neg hmany, hscript] at hscript'
    cases hscript'
  · rintro ⟨hn, hone⟩
    obtain ⟨entry, hentry, hscript⟩ := exists_section_entry h hn _
    exact ⟨entry, hentry, by rw [hscript, if_pos hone]; rfl⟩
  · intro hn hmany
    obtain ⟨entry, hentry, hscript⟩ := exists_section_entry h hn _
    exact ⟨entry, hentry, by rw [hscript, if_neg (by omega)]; rfl⟩

/-- A view with two sections of one name and a script for them, and two scripts for a section that
the body does not have. -/
def twiceSource : Text :=
  "@section('s',1)\n@section('s',2)\n@register<script section=s>a</script><script section=t>b</script><script section=t>c</script>@endregister"

theorem ofTemplate_twice :
    (ofTemplate {} twiceSource "v").assets.sectionScripts =
        [(['s'], ['a']), (['t'], ['b']), (['t'], ['c'])] ∧
      (Section.named "s" (bodySections twiceSource)).length = 2 ∧
      (Section.named "t" (bodySections twiceSource)).length = 0 := by
  decide +kernel

/-- The script of the section that is there twice is lost. The other section has its last script. -/
theorem section_script_iff_twice :
    let description := (ofTemplate {} twiceSource "v").description
      (compile {} twiceSource "v").virtualRender
    (∃ entry, description.valuesUnder ["sections", "t"] = [entry] ∧ entry.valuesAt "script" =
        [.object [("type", .json "code"), ("content", .json "c")]]) ∧
      ¬ ∃ entry, description.valuesUnder ["sections", "s"] = [entry] ∧ entry.valuesAt "script" =
        [.object [("type", .json "code"), ("content", .json "a")]] := by
  obtain ⟨hscripts, htwo, hnone⟩ := ofTemplate_twice
  constructor
  · have hlast : (ofTemplate {} twiceSource "v").assets.scriptFor? "t" = some "c" := by
      rw [Assets.scriptFor?, hscripts]
      decide
    exact (section_script_iff {} twiceSource "v" hlast).1.2 ⟨by decide, by omega⟩
  · intro hkept
    have hlast : (ofTemplate {} twiceSource "v").assets.scriptFor? "s" = some "a" := by
      rw [Assets.scriptFor?, hscripts]
      decide
    have hone := ((section_script_iff {} twiceSource "v" hlast).1.1 hkept).2
    omega

end View

end BladeView
