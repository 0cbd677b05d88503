import BladeView.Compile
import BladeView.Proofs.Section.Framed
import BladeView.Proofs.Section.Removal
import BladeView.Proofs.ViewModule.Finish

/-!
# Sections that are shown twice

A pass before the data arrives shows the static sections of a view, and rendering should leave them
out. It takes their fragments out of the wrapped region, so they are shown twice if they stand
outside of it, if taking out fragments puts one together again, or if the view shows something that
looks like a fragment.

## Main statements

* `View.render_shows_iff`: when rendering shows a static section again.
-/
namespace BladeView

open List (append_assoc infix_append mem_append mem_cons mem_cons_self mem_map)

variable {name source t : Text} {sections : List Section} {s : Section}

/-! ## The literals of a function -/

namespace Script

mutual

/-- The template literals that a statement assigns. -/
def Stmt.literals : Stmt → List Text
  | .assign _ (.template body) => [body]
  | .guarded body _ handler => literalsOf body ++ literalsOf handler
  | _ => []

def literalsOf : List Stmt → List Text
  | [] => []
  | stmt :: stmts => stmt.literals ++ literalsOf stmts

end

/-- A template literal, as it is printed. -/
def literalText (body : Text) : Text := "`" ++ body ++ "`"

theorem Expr.print_template (level : Nat) (body : Text) :
    (Expr.template body).print level = literalText body := rfl

mutual

theorem Stmt.literal_isInfix_print (level : Nat) : (stmt : Stmt) → ∀ body ∈ stmt.literals,
    literalText body <:+: stmt.print level
  | .assign name value, body, h => by
    cases value with
    | template body' =>
      rw [Stmt.literals, List.mem_singleton] at h
      rw [h, Stmt.print, Expr.print_template]
      exact infix_append _ _ _
    | _ => simp [Stmt.literals] at h
  | .guarded stmts param handler, body, h => by
    rw [Stmt.literals, mem_append] at h
    rw [Stmt.print]
    rcases h with h | h
    · have hprint := literal_isInfix_printBlock (level + 1) stmts body h
      rw [append_assoc, append_assoc, append_assoc, append_assoc, append_assoc, append_assoc]
      exact hprint.trans (infix_append _ _ _)
    · have hprint := literal_isInfix_printBlock (level + 1) handler body h
      rw [append_assoc]
      exact hprint.trans (infix_append _ _ _)
  | .raw _, _, h => by simp [Stmt.literals] at h
  | .declare _ _, _, h => by simp [Stmt.literals] at h
  | .const _ _, _, h => by simp [Stmt.literals] at h
  | .expr _, _, h => by simp [Stmt.literals] at h
  | .return _, _, h => by simp [Stmt.literals] at h

theorem literal_isInfix_printBlock (level : Nat) : (stmts : List Stmt) → ∀ body ∈ literalsOf stmts,
    literalText body <:+: printBlock level stmts
  | [], _, h => by simp [literalsOf] at h
  | stmt :: stmts, body, h => by
    rw [literalsOf, mem_append] at h
    rw [printBlock]
    rcases h with h | h
    · exact (Stmt.literal_isInfix_print level stmt body h).trans (List.prefix_append _ _).isInfix
    · exact (literal_isInfix_printBlock level stmts body h).trans (List.suffix_append _ _).isInfix

end

theorem literalsOf_append (stmts more : List Stmt) :
    literalsOf (stmts ++ more) = literalsOf stmts ++ literalsOf more := by
  induction stmts with
  | nil => rfl
  | cons stmt stmts ih => rw [List.cons_append, literalsOf, ih, literalsOf, append_assoc]

/-- A function shows a text if one of the template literals that it assigns holds it. -/
def Function.Shows (f : Function) (t : Text) : Prop := ∃ body ∈ literalsOf f.body, t <:+: body

theorem Function.print_eq (f : Function) (level : Nat) :
    f.print level = "function(" ++ Text.join ", " f.params ++ ") \x7b\n" ++
      printBlock (level + 1) f.body ++ indent level ++ "\x7d" := rfl

theorem Function.literal_isInfix_print (f : Function) (level : Nat) {body : Text}
    (h : body ∈ literalsOf f.body) : literalText body <:+: f.print level := by
  rw [Function.print_eq, append_assoc]
  exact (literal_isInfix_printBlock (level + 1) f.body body h).trans (infix_append _ _ _)

end Script

/-! ## The fragments of a view -/

namespace Section

theorem needsPlaceholder_analyze (injected : List Text) (deferred : Bool) (s : Section) :
    (s.analyze injected deferred).needsPlaceholder =
      ((s.analyze injected deferred).usesInjected && deferred) := rfl

/-- Scripts are attached to sections, and new sections have no fragment. -/
theorem fragment_attachScript {entry : Text × Text} (h : s ∈ attachScript sections entry) :
    s.fragment = [] ∨ ∃ s' ∈ sections, s'.fragment = s.fragment := by
  induction sections with
  | nil =>
    rw [attachScript, List.mem_singleton] at h
    exact .inl (by rw [h])
  | cons first rest ih =>
    rw [attachScript] at h
    split at h
    · rcases mem_cons.mp h with rfl | h
      · exact .inr ⟨first, mem_cons_self, rfl⟩
      · exact .inr ⟨s, List.mem_cons_of_mem _ h, rfl⟩
    · rcases mem_cons.mp h with rfl | h
      · exact .inr ⟨_, mem_cons_self, rfl⟩
      · exact (ih h).imp_right fun ⟨s', hs', hsame⟩ => ⟨s', List.mem_cons_of_mem _ hs', hsame⟩

theorem fragment_foldl_attachScript {entries : List (Text × Text)}
    (h : s ∈ entries.foldl attachScript sections) :
    s.fragment = [] ∨ ∃ s' ∈ sections, s'.fragment = s.fragment := by
  induction entries generalizing sections with
  | nil => exact .inr ⟨s, h, rfl⟩
  | cons entry entries ih =>
    rcases ih h with hnil | ⟨s', hs', hsame⟩
    · exact .inl hnil
    · rw [← hsame]
      exact fragment_attachScript hs'

/-- The fragment of a section is an interpolation. -/
theorem IsFramed.isInterpolation {closing : Text} (h : s.IsFramed name closing) :
    IsInterpolation s.fragment := by
  have hopening : ∃ front, s.kind.opening name = '$' :: '\x7b' :: front := by
    cases s.kind with
    | short => exact ⟨_, rfl⟩
    | long => exact ⟨_, rfl⟩
  have hclosing : ∃ front, closing = front ++ ['\x7d'] := by
    rcases h.closing_eq with heq | ⟨-, heq⟩
    · cases hkind : s.kind with
      | short => exact ⟨", 'string')", by rw [heq, hkind]; decide⟩
      | long => exact ⟨"`, 'html')", by rw [heq, hkind]; decide⟩
    · cases hkind : s.kind with
      | short => exact ⟨'\n' :: ", 'string')".toList, by rw [heq, hkind]; decide⟩
      | long => exact ⟨'\n' :: "`, 'html')".toList, by rw [heq, hkind]; decide⟩
  obtain ⟨front, hfront⟩ := hopening
  obtain ⟨last, hlast⟩ := hclosing
  exact ⟨front ++ s.content ++ last, by rw [h.fragment_eq, hfront, hlast]; simp⟩

end Section

namespace View

open Script (literalsOf literalsOf_append Stmt Function)

/-- Every fragment of a view that has been read is an interpolation. -/
theorem isInterpolation_of_mem {shared : SharedCode}
    (hs : s ∈ (ofTemplate shared source name).sections) (hne : s.fragment ≠ []) :
    IsInterpolation s.fragment := by
  obtain ⟨s', hs', rfl⟩ := mem_map.mp hs
  rcases Section.fragment_foldl_attachScript hs' with hnil | ⟨s'', hs'', hsame⟩
  · exact absurd hnil hne
  · obtain ⟨name, closing, hframed⟩ := Machine.framed_of_mem_run hs''
    have hinterpolation := hframed.isInterpolation
    rw [hsame] at hinterpolation
    exact hinterpolation

theorem needsPlaceholder_of_mem {shared : SharedCode}
    (hs : s ∈ (ofTemplate shared source name).sections) (huses : s.usesInjected = false) :
    s.needsPlaceholder = false := by
  obtain ⟨s', -, rfl⟩ := mem_map.mp hs
  rw [Section.needsPlaceholder_analyze, huses, Bool.false_and]

/-! ## What the two functions show -/

theorem literalsOf_stateUpdates (ds : Declarations) : literalsOf ds.stateUpdates = [] := by
  have hmap : ∀ states : List StatePair, literalsOf (states.map StatePair.update) = [] := by
    intro states
    induction states with
    | nil => rfl
    | cons state states ih =>
      rw [List.map_cons, literalsOf, ih]
      rfl
  unfold Declarations.stateUpdates
  split
  · rfl
  · rw [literalsOf_append, hmap]
    rfl

theorem literalsOf_declare (name : Text) (value : Option Script.Expr) (more : List Stmt) :
    literalsOf (.declare name value :: more) = literalsOf more := rfl

theorem literalsOf_guardedAssign (target body : Text) (showsError : Bool) (more : List Stmt) :
    literalsOf (guardedAssign target body showsError :: more) = body :: literalsOf more := by
  cases showsError <;> rfl

theorem literalsOf_evaluate (v : View) (fragments : Text) :
    literalsOf (v.evaluate fragments) = if fragments.isEmpty then [] else [v.finish fragments] := by
  unfold evaluate
  split
  · rfl
  · exact literalsOf_guardedAssign ..

theorem literalsOf_returnStmt (v : View) : literalsOf [v.returnStmt] = [] := by
  unfold returnStmt
  split <;> rfl

/-- The regions of a view that rendering shows once the static sections have been shown. -/
def renderedRegions (v : View) : List Text :=
  [v.before, Section.removeAll v.staticSections v.template, v.after]

theorem before_mem_renderedRegions (v : View) : v.before ∈ v.renderedRegions :=
  mem_cons_self

/-- Rendering assigns what the view shows, and before and after it the fragments outside. -/
theorem literalsOf_render (v : View) : literalsOf v.render.body =
    (if v.before.isEmpty then [] else [v.finish v.before]) ++ v.renderTemplate ::
      (if v.after.isEmpty then [] else [v.finish v.after]) := by
  have hjunk : ∀ b : Bool, literalsOf
      (if b then [Stmt.declare junk (some (.str []))] else []) = [] := by
    intro b
    cases b <;> rfl
  simp only [render, literalsOf_append, literalsOf_stateUpdates, literalsOf_evaluate,
    literalsOf_declare, literalsOf_guardedAssign, literalsOf_returnStmt, hjunk,
    List.nil_append, List.append_nil, append_assoc, List.cons_append]

theorem render_shows {v : View} (hpre : v.hasPrerender = true) (ht : t ≠ []) :
    v.render.Shows t ↔ ∃ region ∈ v.renderedRegions, t <:+: v.finish region := by
  have htemplate : v.renderTemplate =
      v.finish (Section.removeAll v.staticSections v.template) := by
    rw [renderTemplate, if_pos hpre]
  have hempty : ∀ region : Text,
      (∃ body ∈ if region.isEmpty then [] else [v.finish region], t <:+: body) ↔
        t <:+: v.finish region := by
    intro region
    cases region with
    | nil =>
      have hnil : v.finish [] = [] := (Template.keepsBraces_finish v.verbatim).nil
      simp [hnil, ht]
    | cons c region => simp
  rw [Function.Shows, literalsOf_render, htemplate]
  simp only [mem_append, mem_cons, or_and_right, exists_or, hempty, exists_eq_left,
    renderedRegions, List.not_mem_nil, or_false]

theorem prerender_shows {v : View} (hpre : v.hasPrerender = true) :
    v.prerender.Shows t ↔ t <:+: v.prerenderTemplate := by
  have hliterals : literalsOf v.prerender.body = [v.prerenderTemplate] := by
    simp only [prerender, if_pos hpre, literalsOf_append, literalsOf_stateUpdates,
      literalsOf_declare, literalsOf_guardedAssign, literalsOf_returnStmt, List.nil_append]
  rw [Function.Shows, hliterals]
  simp

/-- The pass before the data arrives shows every static section. -/
theorem finish_isInfix_prerenderTemplate {v : View} (hs : s ∈ v.sections)
    (hshown : prerenderSection s = some s.fragment) (hpart : IsInterpolation s.fragment) :
    v.finish s.fragment <:+: v.prerenderTemplate := by
  refine (Template.keepsBraces_finish v.verbatim).isInfix hpart ?_
  have hmem : s.fragment ∈ v.prerenderPieces := by
    have hpiece : s.fragment ∈ v.sections.filterMap prerenderSection :=
      List.mem_filterMap.mpr ⟨s, hs, hshown⟩
    unfold prerenderPieces
    dsimp only
    split
    · exact List.mem_append_left _ hpiece
    · exact hpiece
  exact Text.isInfix_join _ hmem

/-- A region shows a fragment that does not stand in it: with the verbatim contents back, some part
of it looks the same once all calls have their final names. -/
def Resembles (v : View) (fragment region : Text) : Prop :=
  ¬ fragment <:+: region ∧ ∃ g, g <:+: Verbatim.restore v.verbatim region ∧
    Template.rename g = Template.rename (Verbatim.restore v.verbatim fragment)

theorem finish_isInfix_iff (v : View) {fragment region : Text} (h : IsInterpolation fragment) :
    v.finish fragment <:+: v.finish region ↔
      fragment <:+: region ∨ v.Resembles fragment region := by
  rw [finish, finish, Template.finish_isInfix_iff v.verbatim h]
  constructor
  · intro hlooks
    by_cases hstands : fragment <:+: region
    · exact .inl hstands
    · exact .inr ⟨hstands, hlooks⟩
  · rintro (hstands | ⟨-, hlooks⟩)
    · exact ⟨_, (Template.keepsBraces_restore v.verbatim).isInfix h hstands, rfl⟩
    · exact hlooks

/-- **When rendering shows a static section again.** The pass before the data arrives shows the
section. Rendering shows it again exactly if the fragment stands before or after the wrapped region,
or in what is left of the region when the fragments of all static sections have been taken out, or
if one of them holds something that looks the same. The fragment is left in the region only if the
region held a longer text with fragments inside of it that becomes the fragment when they are taken
out. -/
theorem render_shows_iff (shared : SharedCode) (source name : Text) {s : Section}
    (hpre : (compile shared source name).hasPrerender = true)
    (hs : s ∈ (ofTemplate shared source name).staticSections) (hne : s.fragment ≠ []) :
    let v := ofTemplate shared source name
    v.prerender.Shows (v.finish s.fragment) ∧
    (v.render.Shows (v.finish s.fragment) ↔
      ∃ region ∈ v.renderedRegions,
        s.fragment <:+: region ∨ v.Resembles s.fragment region) ∧
    (s.fragment <:+: Section.removeAll v.staticSections v.template →
      ∃ g, g <:+: v.template ∧ s.fragment.length < g.length ∧
        Text.Woven ((v.staticSections.filter fun s => !s.fragment.isEmpty).map (·.fragment))
          s.fragment g) ∧
    (∀ body ∈ literalsOf v.render.body,
      Script.literalText body <:+: (compile shared source name).render) ∧
    ∀ body ∈ literalsOf v.prerender.body,
      Script.literalText body <:+: (compile shared source name).prerender := by
  intro v
  have hpre' : v.hasPrerender = true := hpre
  obtain ⟨hmem, hstatic⟩ := List.mem_filter.mp hs
  have hpart : IsInterpolation s.fragment := isInterpolation_of_mem hmem hne
  have hfinish : v.finish s.fragment ≠ [] := by
    obtain ⟨inner, hinner⟩ := hpart
    rw [hinner, finish, (Template.keepsBraces_finish v.verbatim).interpolation]
    exact List.cons_ne_nil _ _
  have huses : s.usesInjected = false := by simpa using hstatic
  have hshown : prerenderSection s = some s.fragment := by
    have hwait : s.needsPlaceholder = false := needsPlaceholder_of_mem hmem huses
    simp [prerenderSection, hwait, huses, hne]
  refine ⟨?_, ?_, ?_, ?_, ?_⟩
  · rw [prerender_shows hpre']
    exact finish_isInfix_prerenderTemplate hmem hshown hpart
  · simp only [render_shows hpre' hfinish, finish_isInfix_iff v hpart]
  · intro hleft
    obtain ⟨inner, hinner⟩ := hpart
    obtain ⟨g, hg, hwoven, hlt⟩ := Section.exists_woven hs (m := '\x7b' :: inner) hinner hleft
    exact ⟨g, hg, hlt, hwoven⟩
  · exact fun body hbody => v.render.literal_isInfix_print 2 hbody
  · exact fun body hbody => v.prerender.literal_isInfix_print 2 hbody

/-- A view with a static section before the wrapped region. -/
def titleSource : Text := "@vars($x)\n@await\n@section('t','T')\n@wrap()\n\x7b\x7b$x\x7d\x7d\n@endwrap"

def titleSection : Section where
  name := "t"
  kind := .short
  content := "\"T\""
  fragment := "$\x7bApp.View.section('t', \"T\", 'string')\x7d"

theorem ofTemplate_title :
    (compile {} titleSource "v").hasPrerender = true ∧
      (ofTemplate {} titleSource "v").staticSections = [titleSection] ∧
      (ofTemplate {} titleSource "v").before = titleSection.fragment := by
  decide +kernel

/-- A static section before the wrapped region is shown twice. -/
theorem render_shows_iff_title :
    titleSection ∈ (ofTemplate {} titleSource "v").staticSections ∧
      (ofTemplate {} titleSource "v").prerender.Shows
        ((ofTemplate {} titleSource "v").finish titleSection.fragment) ∧
      (ofTemplate {} titleSource "v").render.Shows
        ((ofTemplate {} titleSource "v").finish titleSection.fragment) := by
  obtain ⟨hpre, hstatic, hbefore⟩ := ofTemplate_title
  have hs : titleSection ∈ (ofTemplate {} titleSource "v").staticSections := by
    rw [hstatic]
    exact List.mem_singleton_self _
  obtain ⟨hfirst, hagain, -⟩ := render_shows_iff {} titleSource "v" hpre hs (by decide)
  have hstands : titleSection.fragment <:+: (ofTemplate {} titleSource "v").before :=
    hbefore ▸ List.infix_rfl
  exact ⟨hs, hfirst, hagain.mpr ⟨_, before_mem_renderedRegions _, .inl hstands⟩⟩

end View
end BladeView
