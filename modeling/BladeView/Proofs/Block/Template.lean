import BladeView.Proofs.Block.Fragment
import BladeView.Proofs.Markup.YieldLists

/-!
# The template of nested blocks

Blocks may be nested in any mixture and to any depth. If the texts between them are plain and their
arguments are variables and quoted names, the template that the machine builds is the body of a
template literal: every interpolation, string and literal in it is closed, and properly nested. The
reader of groups finds the end of each interpolation, although it does not follow the nesting.
-/
namespace BladeView

open Text (closedLines closedLines_append closedLines_cons)
open Fragment (closeCase elseIf opens_openConditional opens_openLoop read?_complete reads_neutral)
open Nesting

variable {t line : Text} {isOpen : Bool} {kind : FrameKind} {body : List Text} {m m₁ m' : Machine}

/-! ## Lines -/

/-- Joining the lines leaves out a line break at the end, which changes nothing. -/
theorem Nesting.read?_join {part : Part} {stack : List Context} {lines : List Text}
    (hproper : IsProper stack) (h : read? part stack (closedLines lines) = some stack) :
    read? part stack (Text.join "\n" lines) = some stack := by
  cases lines with
  | nil => exact h
  | cons line lines =>
    rw [← Text.join_append_newline (by simp), read?_append] at h
    obtain ⟨next, hjoin, hbreak⟩ := Option.bind_eq_some_iff.mp h
    have hsame := read?_blank (hproper.read hjoin) (t := ['\n']) (List.all_eq_true.mp rfl) hbreak
    rw [hjoin, hsame]

/-- A loop that collects its output puts its body into a literal, without the blank lines. -/
theorem Fragment.closes_collect {output : Text} (houtput : IsNeutral output)
    (hbody : Reads (.literal :: FrameKind.for.inside) (closedLines body)
      (.literal :: FrameKind.for.inside)) :
    ∃ middle last stack,
      closedLines (collect output (body.filter fun line => !Text.isEmptyOrBlank line)
        ++ [closeLoop output]) = middle ++ (last ++ ['\n']) ∧
      Reads FrameKind.for.inside middle stack ∧ Closes last stack := by
  have hproper : IsProper (.literal :: FrameKind.for.inside) :=
    .of_forall fun quote hmem => by simp [FrameKind.inside] at hmem
  have hjoined := read?_join hproper (read?_filter_blank hproper hbody)
  cases hlines : body.filter fun line => !Text.isEmptyOrBlank line with
  | nil => exact ⟨[], closeLoop output, _, by simp [collect], rfl, closes_closeLoop houtput⟩
  | cons line lines =>
    rw [hlines] at hjoined
    refine ⟨output ++ " += `" ++ Text.join "\n" (line :: lines) ++ "`;" ++ ['\n'],
      closeLoop output, _, ?_, ?_, closes_closeLoop houtput⟩
    · simp only [collect, closedLines, List.flatMap_cons, List.flatMap_nil,
        List.append_assoc, List.append_nil, List.singleton_append]
    · have hopen : Reads FrameKind.for.inside " += `" (.literal :: FrameKind.for.inside) := rfl
      have hclose : Reads (.literal :: FrameKind.for.inside) "`;" FrameKind.for.inside := rfl
      exact ((((houtput _ (.inr ⟨_, _, rfl, rfl⟩)).append hopen).append hjoined).append
        hclose).append rfl

/-- The lines of a block after its first one go on with its body and close the interpolation. -/
theorem FrameKind.closes_finish (hgroup : kind.isSwitchGroup = false)
    (hkind : kind ≠ .register ∧ kind ≠ .wrapper)
    (hbody : Reads kind.around (closedLines body) kind.around) :
    ∃ middle last stack, closedLines (kind.finish body) = middle ++ (last ++ ['\n']) ∧
      Reads kind.inside middle stack ∧ Fragment.Closes last stack := by
  cases kind with
  | «for» => exact Fragment.closes_collect (.flat (by rfl)) hbody
  | «while» => exact Fragment.closes_collect (.flat (by rfl)) hbody
  | foreach | block | follow =>
    exact ⟨closedLines body, _, _, by simp [finish], hbody, Fragment.closes_closeBody⟩
  | «section» =>
    exact ⟨closedLines body, _, _, by simp [finish], hbody, Fragment.closes_closeSection⟩
  | php =>
    refine ⟨closedLines body, _, _, ?_, hbody, Fragment.closes_closeCode⟩
    rw [finish, closedLines_append]
    rfl
  | conditional | empty | isset | guard =>
    refine ⟨closedLines body, _, _, ?_, hbody, Fragment.closes_closeConditional⟩
    rw [finish, closedLines_append]
    rfl
  | register => exact absurd rfl hkind.1
  | wrapper => exact absurd rfl hkind.2
  | switch | case | default => cases hgroup

/-! ## Opening lines -/

/-- The arguments of an opening directive are plain. Names and keys must be a list of arguments;
conditions, subjects and loop headers may have signs and words in them. -/
def Directive.HasPlainArguments (d : Directive) : FrameKind → Prop
  | .section | .block | .follow | .wrapper => IsArgumentList d.arguments
  | _ => IsFlat d.arguments

namespace Machine

theorem isNeutral_convert (m : Machine) (h : IsFlat t) : IsNeutral (m.convert t) :=
  .flat (m.isFlat_convert h)

/-- The attributes of a block or a wrapper element: the second argument, or an empty object. -/
theorem isNeutral_attributes (m : Machine) {args : List Text} (h : ∀ arg ∈ args, IsArgument arg)
    (index : Nat) : IsNeutral ((args[index]?.map m.convert).getD "\x7b\x7d") := by
  cases hindex : args[index]? with
  | none => exact Fragment.isNeutral_braces
  | some arg => exact m.isNeutral_convert (h arg (List.mem_of_getElem? hindex)).isFlat

theorem openForeach_line (m : Machine) (raw : Text) {header : ForeachHeader}
    (hread : ForeachHeader.read? args = some header) (hargs : IsFlat args) :
    ∃ line, (m.openForeach raw args).lines = m.lines ++ [line] ∧
      Fragment.Opens line FrameKind.foreach.inside := by
  obtain ⟨hsubject, hvalue, hkey⟩ := ForeachHeader.read?_spec hread hargs
  have hkey : IsNeutral (header.key.getD "__loopKey") := by
    cases hk : header.key with
    | none => exact .flat rfl
    | some key => exact .flat (hkey key hk)
  simp only [openForeach, hread]
  exact ⟨_, rfl, Fragment.opens_openForeach (m.isNeutral_convert hsubject) (.flat hvalue) hkey⟩

theorem openBlock_line (m : Machine) (hargs : IsArgumentList args) :
    ∃ line, (m.openBlock args).lines = m.lines ++ [line] ∧
      Fragment.Opens line FrameKind.block.inside := by
  have hall := hargs.split
  simp only [openBlock]
  generalize TopLevel.split args = parts at hall ⊢
  have hname : IsNeutral (m.sectionName (parts.headD "''")).2 := by
    cases parts with
    | nil => exact .flat rfl
    | cons arg parts => exact .flat (m.isFlat_sectionName (hall arg (by simp)))
  exact ⟨_, rfl, Fragment.opens_openBlock hname (m.isNeutral_attributes hall 1)⟩

theorem openFollow_line (m : Machine) (hargs : IsArgumentList args) :
    ∃ line, (m.openFollow args).lines = m.lines ++ [line] ∧
      Fragment.Opens line FrameKind.follow.inside := by
  have hbracket : ∀ c ∈ args, (c == '[' || c == ']') = false := fun c hc => by
    simpa using hargs.isFlat.ne_bracket hc
  simp only [openFollow, Text.dropWhile_eq_self hbracket, Text.dropEndWhile_eq_self hbracket]
  refine ⟨_, rfl, Fragment.opens_openFollow fun key hkey => ?_⟩
  obtain ⟨arg, harg, rfl⟩ := List.mem_map.mp hkey
  exact .flat (Quoted.isFlat_double (Name.bare_isArgument (hargs.split arg harg)))

/-- The first line of a block whose directive has plain arguments. -/
theorem opening_line (hm : m.stack.top? ≠ some .register) {d : Directive}
    (hd : d.opens? = some kind) (hkind : kind ≠ .register ∧ kind ≠ .wrapper)
    (hargs : d.HasPlainArguments kind) :
    ∃ line, (m.feed (.directive d)).lines = m.lines ++ [line] ∧
      Fragment.Opens line kind.inside := by
  rw [feed_directive hm]
  unfold Directive.opens? at hd
  cases hkeyword : d.keyword <;> simp only [hkeyword, reduceCtorEq, Option.some.injEq] at hd
  case openIf =>
    subst hd
    exact ⟨_, rfl, opens_openConditional (m.isNeutral_convert hargs)⟩
  case openIsset =>
    subst hd
    exact ⟨_, rfl, opens_openConditional
      (Fragment.isNeutral_isSet (m.isNeutral_convert hargs))⟩
  case openEmpty =>
    subst hd
    exact ⟨_, rfl, opens_openConditional
      (Fragment.isNeutral_isEmpty (m.isNeutral_convert hargs))⟩
  case openGuard g =>
    subst hd
    exact ⟨_, rfl, opens_openConditional
      (Fragment.isNeutral_guard g (m.isNeutral_convert hargs))⟩
  case openSwitch =>
    subst hd
    exact ⟨_, rfl, Fragment.opens_openSwitch (m.isNeutral_convert hargs)⟩
  case openForeach =>
    obtain ⟨hheader, hd⟩ := Option.ite_none_right_eq_some.1 hd
    obtain ⟨header, hread⟩ := Option.isSome_iff_exists.mp hheader
    cases hd
    exact m.openForeach_line d.raw hread hargs
  case openFor =>
    subst hd
    exact ⟨_, rfl, opens_openLoop (.flat rfl)
      (.flat rfl) (.flat (m.isFlat_forHeader hargs))⟩
  case openWhile =>
    subst hd
    exact ⟨_, rfl, opens_openLoop (.flat rfl)
      (.flat rfl) (m.isNeutral_convert hargs)⟩
  case openSection =>
    obtain ⟨hsplit, hd⟩ := Option.ite_none_right_eq_some.1 hd
    obtain ⟨first, hfirst⟩ := List.length_eq_one_iff.mp hsplit
    cases hd
    have harg : IsArgument first := hargs.split first (by simp [hfirst])
    simp only [apply, openSection, hfirst]
    exact ⟨_, rfl, Fragment.opens_openSection (.flat (m.isFlat_sectionName harg))⟩
  case openBlock =>
    subst hd
    exact m.openBlock_line hargs
  case openFollow =>
    subst hd
    exact m.openFollow_line hargs
  case openPhp =>
    obtain ⟨hempty, hd⟩ := Option.ite_none_right_eq_some.1 hd
    cases hd
    simp only [apply, openCode, hempty, if_true]
    exact ⟨_, rfl, Fragment.opens_openCode⟩
  case openRegister => exact absurd hd.symm hkind.1
  case openWrapper => exact absurd hd.symm hkind.2

/-- The first line of a wrapper element is complete template text. -/
theorem wrapper_line (hm : m.stack.top? ≠ some .register) {d : Directive}
    (hd : d.opens? = some .wrapper) (hargs : IsArgumentList d.arguments) :
    ∃ line, (m.feed (.directive d)).lines = m.lines ++ [line] ∧
      ∀ part stack, InText part stack → ∀ u, read? part stack (line ++ u) = read? part stack u := by
  have hkeyword : d.keyword = .openWrapper := by
    unfold Directive.opens? at hd
    split at hd <;> simp_all
  rw [feed_directive hm, hkeyword]
  have hall := hargs.split
  have htag : IsNeutral (((TopLevel.split d.arguments)[0]?.map m.convert).getD "'div'") := by
    cases hfirst : (TopLevel.split d.arguments)[0]? with
    | none => exact .flat rfl
    | some arg => exact m.isNeutral_convert (hall arg (List.mem_of_getElem? hfirst)).isFlat
  exact ⟨_, rfl, fun part stack hin u =>
    Fragment.read?_openWrapper htag (m.isNeutral_attributes hall 1) hin u⟩

end Machine

/-! ## Plain text -/

/-- The characters of plain text: words, blanks, and the signs of tags. -/
def isLeafChar (c : Char) : Bool :=
  isWordChar c || isBlank c || c == '<' || c == '>' || c == '/'

/-- Plain text between blocks. -/
def IsLeaf (t : Text) : Prop := ∀ c ∈ t, isLeafChar c = true

theorem isQuietText_of_isLeafChar {c : Char} (h : isLeafChar c = true) : isQuietText c = true := by
  have hplain : isPlainCode c = true := isPlainCode_of h (by decide)
  have hdollar : c ≠ '$' := by
    rintro rfl
    exact absurd h (by decide)
  simp only [isPlainCode, Bool.not_eq_true', Bool.or_eq_false_iff] at hplain
  simp [isQuietText, hplain, hdollar]

theorem IsLeaf.compile (h : IsLeaf t) (bindings : Bindings) : Markup.compile bindings t = t := by
  have hnot : ∀ c, isLeafChar c = false → c ∉ t := by
    intro c hc hmem
    rw [h c hmem] at hc
    cases hc
  exact Markup.compile_eq_self bindings (hnot _ (by decide)) (hnot _ (by decide))
    (hnot _ (by decide))

namespace Machine

/-- Text in such a block is template text. -/
def takesText : Option FrameKind → Bool
  | some .switch | some .register | some .php => false
  | _ => true

theorem ne_register_of_takesText {top : Option FrameKind} (h : takesText top = true) :
    top ≠ some .register := by
  rintro rfl
  cases h

/-- Lines that are complete template text. Within a condition, other branches of it may begin in
them. -/
def Completes : (inBranch : Bool) → List Text → Prop
  | false, new => ∀ part stack, InText part stack →
      read? part stack (closedLines new) = some stack
  | true, new => Reads FrameKind.conditional.inside (closedLines new)
      FrameKind.conditional.inside

namespace Completes

variable {inBranch : Bool} {new more : List Text}

theorem of_false (h : Completes false new) : Completes inBranch new := by
  cases inBranch with
  | false => exact h
  | true => exact h .code _ (.inr ⟨_, rfl⟩)

theorem append (h : Completes inBranch new) (h' : Completes inBranch more) :
    Completes inBranch (new ++ more) := by
  cases inBranch with
  | false =>
    intro part stack hin
    rw [closedLines_append, read?_append, h part stack hin]
    exact h' part stack hin
  | true =>
    have hreads := Reads.append h h'
    rwa [← closedLines_append] at hreads

theorem nil : Completes inBranch [] :=
  of_false fun _ _ _ => rfl

/-- Lines of quiet text. -/
theorem quiet (h : ∀ line ∈ new, ∀ c ∈ line, isQuietText c = true) : Completes inBranch new := by
  refine of_false fun part stack hin => ?_
  have hall : ∀ c ∈ closedLines new, isQuietText c = true := by
    intro c hc
    obtain ⟨line, hline, hc⟩ := List.mem_flatMap.mp hc
    rcases List.mem_append.mp hc with hc | hc
    · exact h line hline c hc
    · rw [List.mem_singleton.mp hc]
      rfl
  have hread := read?_quiet_append hin hall []
  rwa [List.append_nil] at hread

/-- A block whose body is complete is an interpolation. -/
theorem block (hline : Fragment.Opens line kind.inside) (hgroup : kind.isSwitchGroup = false)
    (hkind : kind ≠ .register ∧ kind ≠ .wrapper)
    (hbody : Reads kind.around (closedLines body) kind.around) :
    Completes inBranch (line :: kind.finish body) := by
  refine of_false fun part stack hin => ?_
  obtain ⟨middle, last, inner, heq, hmiddle, hlast⟩ :=
    FrameKind.closes_finish hgroup hkind hbody
  have hbreak : Reads kind.inside ['\n'] kind.inside := by cases kind <;> rfl
  have hread := read?_complete hline (hbreak.append hmiddle) hlast hin ['\n']
  rw [closedLines_cons, heq]
  exact hread.trans (read?_quiet hin rfl [])

end Completes

/-! ## Steps -/

theorem completes_text (hm : takesText m.stack.top? = true) (ht : IsLeaf t) {inBranch : Bool} :
    Completes inBranch (textLines m.bindings t m.stack.top?) := by
  have hpieces : ∀ line ∈ Text.splitOn '\n' t, ∀ c ∈ line, isQuietText c = true :=
    fun line hline c hc => isQuietText_of_isLeafChar (ht c (Text.mem_of_mem_splitOn hline hc))
  unfold textLines
  split
  case h_1 htop => rw [htop] at hm; cases hm
  case h_2 htop => rw [htop] at hm; cases hm
  case h_3 htop => rw [htop] at hm; cases hm
  all_goals rw [ht.compile]
  case h_6 => exact .quiet hpieces
  all_goals exact .quiet fun line hline => hpieces line (List.mem_filter.mp hline).1

/-- Another branch of a condition. -/
theorem completes_branch (hm : takesText m.stack.top? = true)
    (hin : m.isIn FrameKind.isConditional = true) {d : Directive}
    (hd : d.keyword = .otherwise ∨ d.keyword = .elseIf ∧ IsFlat d.arguments) :
    ∃ new, Adds m (m.feed (.directive d)) new ∧ Completes true new := by
  rw [feed_directive (ne_register_of_takesText hm)]
  rcases hd with hk | ⟨hk, hargs⟩
  · refine ⟨[Fragment.otherwise], ?_, rfl⟩
    simpa [hk, apply, branch, hin] using Adds.emit m [Fragment.otherwise]
  · refine ⟨[elseIf (m.convert d.arguments)], ?_, ?_⟩
    · simpa [hk, apply, branch, hin] using Adds.emit m [elseIf (m.convert d.arguments)]
    · have hfirst : Reads FrameKind.conditional.inside "`; \x7d else if("
          (.group '(' :: [.group '\x7b', .group '(']) := rfl
      have hlast : Reads (.group '(' :: [.group '\x7b', .group '(']) ")\x7b return `"
          FrameKind.conditional.inside := rfl
      have hline := (hfirst.append (reads_neutral rfl (m.isNeutral_convert hargs))).append
        hlast
      rw [Completes, closedLines_cons]
      exact hline.append rfl

/-- The lines that plain text adds to a block of code are flat. -/
theorem reads_code (hm : m.stack.top? = some .php) {texts : List Text}
    (htexts : ∀ t ∈ texts, IsLeaf t) :
    ∃ new, Adds m (m.feedAll (texts.map .text)) new ∧
      Reads FrameKind.php.inside (closedLines new) FrameKind.php.inside := by
  induction texts generalizing m with
  | nil => exact ⟨[], Adds.refl m, rfl⟩
  | cons t texts ih =>
    have ht := htexts t (by simp)
    have hfirst := Adds.text m t
    obtain ⟨more, hadds, hreads⟩ := ih (m := m.text t) (by rw [hfirst.stack, hm])
      fun u hu => htexts u (by simp [hu])
    refine ⟨_, hfirst.trans hadds, ?_⟩
    have hlines : ∀ line ∈ textLines m.bindings t m.stack.top?, IsFlat line := by
      intro line hline
      rw [hm] at hline
      simp only [textLines, List.mem_map, List.mem_filter] at hline
      obtain ⟨trimmed, ⟨⟨source, hsource, rfl⟩, -⟩, rfl⟩ := hline
      have hplain : IsFlat (Text.trim source) := .of_plain fun c hc =>
        isPlainCode_of (ht c (Text.mem_of_mem_lines hsource (Text.mem_of_mem_trim hc))) (by decide)
      refine IsFlat.append ?_ (Expression.isFlat_toScript m.bindings hplain)
      rfl
    have hclosed : IsFlat (closedLines (textLines m.bindings t m.stack.top?)) := by
      generalize textLines m.bindings t m.stack.top? = lines at hlines
      induction lines with
      | nil => exact .nil
      | cons line lines ih =>
        have hbreak : IsFlat ['\n'] := rfl
        rw [closedLines_cons]
        exact (hlines line (by simp)).append
          (hbreak.append (ih fun l hl => hlines l (by simp [hl])))
    rw [closedLines_append]
    exact (reads_neutral rfl (.flat hclosed)).append hreads

/-! ## Switches -/

/-- The delimiters that are open inside a switch, with or without an open branch. -/
def branchInside (isOpen : Bool) : List Context :=
  if isOpen then FrameKind.case.inside else FrameKind.switch.inside

/-- Text between the branches of a switch is left out. -/
theorem adds_gap (hm : m.stack.top? = some .switch) {gap : List Token}
    (hgap : ∀ token ∈ gap, ∃ t, token = .text t) : Adds m (m.feedAll gap) [] := by
  induction gap generalizing m with
  | nil => exact Adds.refl m
  | cons token gap ih =>
    obtain ⟨t, rfl⟩ := hgap token (by simp)
    have hfirst : Adds m (m.feed (.text t)) [] := by
      simpa [feed, hm, textLines] using Adds.text m t
    have hrest := ih (m := m.feed (.text t)) (by rw [hfirst.stack, hm])
      fun token htoken => hgap token (by simp [htoken])
    exact hfirst.trans hrest

/-- The end of the open branch, if there is one. -/
theorem reads_closeBranch {new : List Text}
    (hnew : Reads FrameKind.switch.inside (closedLines new) (branchInside isOpen)) :
    Reads FrameKind.switch.inside
      (closedLines (new ++ if isOpen then [closeCase] else []))
      FrameKind.switch.inside := by
  rw [closedLines_append]
  refine hnew.append ?_
  cases isOpen <;> rfl

/-- The first line of a branch, after the end of the branch before it. -/
theorem reads_openBranch {new : List Text}
    (hnew : Reads FrameKind.switch.inside (closedLines new) (branchInside isOpen))
    (hline : Reads FrameKind.switch.inside line FrameKind.case.inside) :
    Reads FrameKind.switch.inside
      (closedLines (new ++ (if isOpen then [closeCase] else []) ++ [line]))
      (branchInside true) := by
  rw [closedLines_append, closedLines_cons]
  exact (reads_closeBranch hnew).append (hline.append rfl)

/-- The line of a branch with plain arguments opens the literal of its body. -/
theorem reads_branchLine {arguments : Text} (hargs : IsFlat arguments)
    (hline : line ∈ [Fragment.openCase (m.convert arguments), Fragment.openDefault]) :
    Reads FrameKind.switch.inside line FrameKind.case.inside := by
  simp only [List.mem_cons, List.not_mem_nil, or_false] at hline
  rcases hline with rfl | rfl
  · have hfirst : Reads FrameKind.switch.inside "\ncase " FrameKind.switch.inside := rfl
    exact (hfirst.append (reads_neutral rfl (m.isNeutral_convert hargs))).append rfl
  · rfl

/-- A branch takes text. -/
theorem takesText_of_isIn_branch (hm : m.isIn FrameKind.isBranch = true) :
    takesText m.stack.top? = true := by
  cases htop : m.stack.top? with
  | none => rfl
  | some kind =>
    simp only [isIn, htop] at hm
    cases kind <;> simp_all [FrameKind.isBranch, takesText]

end Machine

/-- A branch of a switch with plain arguments, and nothing but text after its break. -/
structure SwitchBranch.IsPlain (b : SwitchBranch) : Prop where
  wellFormed : b.IsWellFormed
  arguments : IsFlat b.head.arguments
  gap : ∀ token ∈ b.gap, ∃ t, token = .text t

namespace Machine

/-- The branches of a switch leave its delimiters open, and maybe the literal of the last one. -/
theorem inSwitch_branches_reads (htop : m₁.stack.top? = some .switch)
    {branches : List SwitchBranch} (hplain : ∀ b ∈ branches, b.IsPlain)
    (hbody : ∀ b ∈ branches, ∀ m : Machine, takesText m.stack.top? = true →
      ∃ new, Adds m (m.feedAll b.body) new ∧ Completes false new)
    {m' : Machine} {new : List Text} {isOpen : Bool} (h : InSwitch m₁ m' new isOpen)
    (hnew : Reads FrameKind.switch.inside (closedLines new) (branchInside isOpen)) :
    ∃ new' isOpen', InSwitch m₁ (m'.feedAll (branches.flatMap SwitchBranch.tokens)) new' isOpen' ∧
      Reads FrameKind.switch.inside (closedLines new') (branchInside isOpen') := by
  refine feedAll_flatMap (Q := fun m' => ∃ new isOpen, InSwitch m₁ m' new isOpen ∧
    Reads FrameKind.switch.inside (closedLines new) (branchInside isOpen)) ?_ ⟨_, _, h, hnew⟩
  rintro b hb m' ⟨new, isOpen, h, hnew⟩
  obtain ⟨hwell, hargs, hgap⟩ := hplain b hb
  obtain ⟨line, hline, body, ending, isOpen', hcomplete, hending, hinside⟩ :=
    h.feed_branch (B := Completes false) (G := (· = [])) htop hwell
      (fun m hm => hbody b hb m (takesText_of_isIn_branch hm))
      (fun m hm => ⟨[], adds_gap hm hgap, rfl⟩)
  refine ⟨_, isOpen', hinside, ?_⟩
  have hopened := reads_openBranch hnew (reads_branchLine hargs hline)
  rw [closedLines_append, closedLines_append]
  refine (hopened.append (hcomplete .code _ (.inr ⟨_, rfl⟩))).append ?_
  rcases hending with ⟨rfl, rfl⟩ | ⟨rfl, _, rfl, rfl⟩ <;> rfl

end Machine

/-! ## Nested blocks -/

/-- The stretches of tokens that nest properly, with plain text and plain arguments. Directly inside
a condition there may be other branches of it; a block of code holds only text, and a switch only
branches. -/
inductive Nested : (inBranch : Bool) → List Token → Prop
  | nil {inBranch : Bool} : Nested inBranch []
  | text {inBranch : Bool} {t : Text} : IsLeaf t → Nested inBranch [.text t]
  | append {inBranch : Bool} {tokens more : List Token} : Nested inBranch tokens →
      Nested inBranch more → Nested inBranch (tokens ++ more)
  | branch {d : Directive} :
      d.keyword = .otherwise ∨ d.keyword = .elseIf ∧ IsFlat d.arguments →
      Nested true [.directive d]
  | block {inBranch : Bool} {opener closer : Directive} {kind : FrameKind} {body : List Token} :
      opener.opens? = some kind → kind ∉ [FrameKind.switch, .register, .php] →
      opener.HasPlainArguments kind → Nested kind.isConditional body →
      closer.closes kind = true →
      Nested inBranch (.directive opener :: (body ++ [.directive closer]))
  | code {inBranch : Bool} {opener closer : Directive} {texts : List Text} :
      opener.opens? = some .php → (∀ t ∈ texts, IsLeaf t) → closer.closes .php = true →
      Nested inBranch (.directive opener :: (texts.map .text ++ [.directive closer]))
  | switch {inBranch : Bool} {opener closer : Directive} {gap : List Token}
      {branches : List SwitchBranch} :
      opener.opens? = some .switch → IsFlat opener.arguments →
      (∀ token ∈ gap, ∃ t, token = .text t) → (∀ b ∈ branches, b.IsPlain) →
      (∀ b ∈ branches, Nested false b.body) → closer.closes .switch = true →
      Nested inBranch (.directive opener :: (gap ++ branches.flatMap SwitchBranch.tokens
        ++ [.directive closer]))

namespace Machine

/-- The body of a block is read inside its delimiters. -/
theorem Completes.reads_around
    (hkind : kind ∉ [FrameKind.switch, .register, .php] ∧ kind ≠ .wrapper)
    (h : Completes kind.isConditional body) :
    Reads kind.around (closedLines body) kind.around := by
  cases kind with
  | conditional | empty | isset | guard => exact h
  | «for» | «while» | foreach | «section» | block | follow | case | default =>
    exact h .code _ (.inr ⟨_, rfl⟩)
  | wrapper => exact absurd rfl hkind.2
  | switch | register | php => exact absurd hkind.1 (by decide)

/-- A wrapper element around complete template text. -/
theorem Completes.wrapper {inBranch : Bool} (hline : ∀ part stack, InText part stack → ∀ u,
      read? part stack (line ++ u) = read? part stack u) (hbody : Completes false body) :
    Completes inBranch (line :: FrameKind.wrapper.finish body) := by
  refine of_false fun part stack hin => ?_
  rw [closedLines_cons, hline part stack hin, read?_quiet hin rfl, FrameKind.finish,
    closedLines_append, read?_append, hbody part stack hin, Option.bind_some,
    closedLines_cons, Fragment.read?_closeWrapper hin]
  exact read?_quiet hin rfl []

/-- What is known of the line that a directive puts out. -/
theorem of_line {P : Text → Prop} (h : ∃ line', m'.lines = m.lines ++ [line'] ∧ P line')
    (hline : m'.lines = m.lines ++ [line]) : P line := by
  obtain ⟨line', hline', hread⟩ := h
  have hsame : line = line' := by simpa using hline.symm.trans hline'
  exact hsame ▸ hread

/-- **Nested blocks add complete template text.** The induction is on the nesting; each block is one
interpolation around what its body adds. -/
theorem completes_of_nested {inBranch : Bool} {tokens : List Token} (h : Nested inBranch tokens)
    (hm : takesText m.stack.top? = true)
    (hbranch : inBranch = true → m.isIn FrameKind.isConditional = true) :
    ∃ new, Adds m (m.feedAll tokens) new ∧ Completes inBranch new := by
  induction h generalizing m with
  | nil => exact ⟨[], Adds.refl m, .nil⟩
  | text ht => exact ⟨_, Adds.text m _, completes_text hm ht⟩
  | append _ _ ih ih' =>
    obtain ⟨new, hnew, hcomplete⟩ := ih hm hbranch
    have htop : m.stack = (m.feedAll _).stack := hnew.stack.symm
    obtain ⟨more, hmore, hcomplete'⟩ := ih' (m := m.feedAll _) (htop ▸ hm)
      (fun hb => by rw [isIn, ← htop]; exact hbranch hb)
    exact ⟨new ++ more, by simpa using hnew.trans hmore, hcomplete.append hcomplete'⟩
  | branch hd => exact completes_branch hm (hbranch rfl) hd
  | @block _ opener closer kind body hopens hkind hargs _ hcloses ih =>
    have hne := ne_register_of_takesText hm
    have hregister : kind ≠ .register := fun heq => hkind (by simp [heq])
    have hswitch : kind ≠ .switch := fun heq => hkind (by simp [heq])
    obtain ⟨names, first, hopened, -, -⟩ := opened_of_opens? hne hopens hregister
    obtain ⟨inside, hinside, hcomplete⟩ := ih (m := m.feed (.directive opener))
      (by
        rw [hopened.top]
        revert hkind
        cases kind <;> simp [takesText])
      (fun hb => by simp [isIn, hopened.top, hb])
    obtain ⟨line, hlines, hadds⟩ := adds_block hne hopens hswitch hregister hcloses hinside
    refine ⟨_, hadds, ?_⟩
    by_cases hwrapper : kind = .wrapper
    · subst hwrapper
      exact .wrapper (of_line (wrapper_line hne hopens hargs) hlines) hcomplete
    · have hline := of_line (opening_line hne hopens ⟨hregister, hwrapper⟩ hargs) hlines
      exact .block hline (Directive.isSwitchGroup_of_opens? hopens hswitch)
        ⟨hregister, hwrapper⟩ (hcomplete.reads_around ⟨hkind, hwrapper⟩)
  | @code _ opener closer texts hopens htexts hcloses =>
    have hne := ne_register_of_takesText hm
    obtain ⟨names, first, hopened, -, -⟩ := opened_of_opens? hne hopens (by decide)
    obtain ⟨inside, hinside, hreads⟩ := reads_code hopened.top htexts
    obtain ⟨line, hlines, hadds⟩ :=
      adds_block hne hopens (by decide) (by decide) hcloses hinside
    have hargs : opener.HasPlainArguments .php := by
      have hempty : opener.arguments = [] := by
        unfold Directive.opens? at hopens
        split at hopens <;> simp_all
      have hflat : IsFlat opener.arguments := by
        rw [hempty]
        exact .nil
      exact hflat
    have hline := of_line (opening_line hne hopens ⟨by decide, by decide⟩ hargs) hlines
    exact ⟨_, hadds, .block hline rfl ⟨by decide, by decide⟩ hreads⟩
  | @switch _ opener closer gap branches hopens hargs hgap hplain _ hcloses ih =>
    have hne := ne_register_of_takesText hm
    obtain ⟨names, line, hopened, -, hother⟩ := opened_of_opens? hne hopens (by decide)
    cases hother (by decide)
    have hargs : opener.HasPlainArguments .switch := hargs
    have hline := of_line (opening_line hne hopens ⟨by decide, by decide⟩ hargs) hopened.lines
    obtain ⟨new, isOpen, hinside, hreads⟩ := inSwitch_branches_reads hopened.top hplain
      (fun b hb m hm => ih b hb hm (by simp)) (.between (adds_gap hopened.top hgap)) rfl
    rw [feedAll_cons, feedAll_append, feedAll_append, feedAll_cons, feedAll_nil]
    refine ⟨_, hinside.feed_closer hopened hcloses, .of_false fun part stack hin => ?_⟩
    have hbreak : Reads FrameKind.switch.inside ['\n'] FrameKind.switch.inside := rfl
    have hread := read?_complete hline
      (hbreak.append (reads_closeBranch hreads)) Fragment.closes_closeSwitch hin ['\n']
    rw [List.append_assoc, List.singleton_append, closedLines_cons, closedLines_append,
      closedLines_cons]
    exact hread.trans (read?_quiet hin rfl [])

/-- **The template of nested blocks is a well-formed template-literal body**, for all bindings, at
any depth and in any mixture. For each interpolation at the top level, the reader of groups that
starts at its brace gives the brace that closes it: no other brace cuts the rest into code and more
template text. -/
theorem template_wellFormed (bindings : Bindings) {tokens : List Token}
    (h : Nested false tokens) :
    WellFormed .template (run bindings tokens).template ∧
      ∀ before rest, (run bindings tokens).template = before ++ '$' :: '\x7b' :: rest →
        WellFormed .template before →
        ∃ code after, rest = code ++ '\x7d' :: after ∧ WellFormed .code code ∧
          WellFormed .template after ∧
          (∀ code' after', WellFormed .code code' → rest = code' ++ '\x7d' :: after' →
            code' = code) ∧
          Group.at? (run bindings tokens).template (Text.byteSize before + 1) =
            some ⟨Text.byteSize before + 1, Text.byteSize before + 2 + Text.byteSize code,
              code⟩ := by
  obtain ⟨new, hadds, hcomplete⟩ := completes_of_nested h (m := start bindings) rfl (by simp)
  have hlines : (run bindings tokens).lines = new := by
    rw [run_eq_feedAll, hadds.lines]
    rfl
  have hread : read? .template [] (run bindings tokens).template = some [] := by
    rw [template, hlines]
    exact read?_join (.of_forall (by simp)) (hcomplete .template [] (.inl ⟨rfl, rfl⟩))
  exact ⟨wellFormed_of_read? hread, fun before rest heq hbefore =>
    at?_interpolation hread heq hbefore⟩

/-- A section around a condition whose branches hold a counting loop around a switch, and a block of
code. -/
def mixture : List Token :=
  let choice : SwitchBranch :=
    ⟨⟨"case", some "'one'", "@case('one')"⟩, [.text "<b>one</b>"],
      some ⟨"break", none, "@break"⟩, []⟩
  let otherwise : SwitchBranch := ⟨⟨"default", none, "@default"⟩, [.text "other"], none, []⟩
  let switch : List Token := .directive ⟨"switch", some "$x", "@switch($x)"⟩ ::
    ([] ++ [choice, otherwise].flatMap SwitchBranch.tokens
      ++ [.directive ⟨"endswitch", none, "@endswitch"⟩])
  let loop : List Token :=
    .directive ⟨"for", some "$i = 0; $i < $n; $i++", "@for($i = 0; $i < $n; $i++)"⟩ ::
      (switch ++ [.directive ⟨"endfor", none, "@endfor"⟩])
  let code : List Token := .directive ⟨"php", none, "@php"⟩ ::
    ((["nothing"] : List Text).map .text ++ [.directive ⟨"endphp", none, "@endphp"⟩])
  let condition : List Token := .directive ⟨"if", some "$a", "@if($a)"⟩ ::
    (loop ++ ([.directive ⟨"else", none, "@else"⟩] ++ code)
      ++ [.directive ⟨"endif", none, "@endif"⟩])
  .directive ⟨"section", some "'main'", "@section('main')"⟩ ::
    (condition ++ [.directive ⟨"endsection", none, "@endsection"⟩])

theorem nested_mixture : Nested false mixture := by
  have hleaf : ∀ t : Text, t.all isLeafChar = true → IsLeaf t := fun t ht =>
    List.all_eq_true.mp ht
  have hmain : IsArgument "'main'" := @IsArgument.quoted '\x27' "main" rfl rfl (by decide)
  have hname : IsArgumentList "'main'" := by
    refine ⟨["'main'"], fun entry hentry => ?_, rfl⟩
    rw [List.mem_singleton.mp hentry]
    exact hmain
  refine @Nested.block _ _ _ .section _ (by decide +kernel) (by decide) hname ?_ rfl
  refine @Nested.block _ _ _ .conditional _ rfl (by decide) rfl (.append ?_ (.append ?_ ?_)) rfl
  · refine @Nested.block _ _ _ .for _ rfl (by decide) rfl ?_ rfl
    refine .switch rfl rfl (by simp) ?_ ?_ rfl
    · intro b hb
      simp only [List.mem_cons, List.not_mem_nil, or_false] at hb
      rcases hb with rfl | rfl
      · exact ⟨⟨by decide, by rintro d ⟨⟩; rfl⟩, rfl, by simp⟩
      · exact ⟨⟨by decide, by simp⟩, rfl, by simp⟩
    · intro b hb
      simp only [List.mem_cons, List.not_mem_nil, or_false] at hb
      rcases hb with rfl | rfl
      · exact .text (hleaf _ (by decide))
      · exact .text (hleaf _ (by decide))
  · exact .branch (.inl rfl)
  · exact .code rfl (by simpa using hleaf _ (by decide)) rfl

/-- The template of the mixture, and its outermost interpolation. -/
theorem template_wellFormed_mixture :
    WellFormed .template (run Bindings.empty mixture).template ∧
      ∃ code after, (run Bindings.empty mixture).template.drop 2 = code ++ '\x7d' :: after ∧
        Group.at? (run Bindings.empty mixture).template 1
          = some ⟨1, 2 + Text.byteSize code, code⟩ := by
  have hstart : (run Bindings.empty mixture).template.take 2 = ['$', '\x7b'] := by decide +kernel
  have hsplit : ∀ t : Text, t.take 2 = ['$', '\x7b'] → t = [] ++ '$' :: '\x7b' :: t.drop 2 := by
    intro t ht
    have hparts := List.take_append_drop 2 t
    rw [ht] at hparts
    exact hparts.symm
  obtain ⟨hwell, hgroups⟩ := template_wellFormed Bindings.empty nested_mixture
  obtain ⟨code, after, hcut, -, -, -, hat⟩ := hgroups [] _ (hsplit _ hstart) .nil
  exact ⟨hwell, code, after, hcut, hat⟩

end Machine
end BladeView
