import BladeView.Compile
import BladeView.Proofs.ScanVariant.Followed
import BladeView.Proofs.Script.Interpolation

/-!
# Followed blocks

A followed block should be left as it is in the scan variant of the code, and all calls outside of
the blocks should become scan calls. What becomes of a call depends on whether it is in a region
that the pass finds, and the pass may find other ends than those of the blocks. So the code is
compared call by call.

## Main statements

* `ScanVariant.virtualRender_eq_iff`: when the followed blocks of a compiled view are left as they
  are.
-/
namespace BladeView.ScanVariant

open Script (indent)
open Text (calls mapCalls mapMarked)

variable {code rest : Text}

/-! ## What becomes of a call -/

/-- The calls outside of the blocks that do not stay scan calls in a region that the pass finds. -/
def undone : List String :=
  (renames.filter fun e => (reverts.map Prod.fst).contains e.2).map Prod.fst ++ reverts.map Prod.fst

/-- The calls that do not become what they should, by whether they are in a block and whether they
are in a region that the pass finds. -/
def changed : Bool → Bool → List String
  | true, true => lossy
  | true, false => renames.map Prod.fst
  | false, true => undone
  | false, false => []

/-- What becomes of the piece before a parenthesis, by whether the call is inside. -/
def change (inside : Text → Text) : Bool → Text → Text
  | true => inside
  | false => rewriteAll renames

/-- What becomes of a call in a region that the pass finds. -/
def back (piece : Text) : Text := rewriteAll reverts (rewriteAll renames piece)

theorem Separated.rewriteAll_eq_self {table : List (String × String)} (h : Separated table)
    (piece : Text) : rewriteAll table piece = piece ↔ ∀ e ∈ table, ¬ nameOf e.1 <:+ piece := by
  constructor
  · intro hsame e he hend
    exact h.not_suffix_rewriteAll he piece (hsame.symm ▸ hend)
  · exact rewriteAll_of_forall_not

theorem revert_eq_self (piece : Text) :
    back piece = rewriteAll renames piece ↔ ∀ call ∈ undone, ¬ nameOf call <:+ piece := by
  have hmem : ∀ call, call ∈ undone ↔
      (∃ e ∈ renames, (∃ e' ∈ reverts, e'.1 = e.2) ∧ e.1 = call) ∨ ∃ e ∈ reverts, e.1 = call := by
    simp [undone, and_assoc]
  simp only [hmem]
  rw [back, separated_reverts.rewriteAll_eq_self]
  rcases separated_renames.rewriteAll_cases piece with ⟨e, he, front, rfl, hnew⟩ | ⟨hnot, hsame⟩
  · rw [hnew]
    constructor
    · rintro h call (⟨e', he', ⟨r, hr, hcall⟩, rfl⟩ | ⟨r, hr, rfl⟩) hend
      · have hentry : e' = e :=
          (List.suffix_or_suffix_of_suffix hend (List.suffix_append front _)).elim
            ((separated_renames e' he').2.2 e he).1
            fun hlong => (((separated_renames e he).2.2 e' he').1 hlong).symm
        refine h r hr ?_
        rw [hcall, hentry]
        exact List.suffix_append front _
      · exact (List.suffix_or_suffix_of_suffix hend (List.suffix_append front _)).elim
          (renames_reverts e he r hr).1.2 (renames_reverts e he r hr).1.1
    · intro h r hr hend
      have hcall : e.2 = r.1 := (renames_reverts e he r hr).2.1
        (List.suffix_or_suffix_of_suffix (List.suffix_append front _) hend)
      exact h e.1 (.inl ⟨e, he, ⟨r, hr, hcall.symm⟩, rfl⟩) (List.suffix_append front _)
  · rw [hsame]
    constructor
    · rintro h call (⟨e, he, -, rfl⟩ | ⟨r, hr, rfl⟩)
      · exact hnot e he
      · exact h r hr
    · exact fun h r hr => h r.1 (.inr ⟨r, hr, rfl⟩)

/-- A call becomes what it should exactly if it is not one of those that are changed. -/
theorem change_eq_iff (inBlock inRegion : Bool) (piece : Text) :
    change back inRegion piece = change id inBlock piece ↔
      ∀ call ∈ changed inBlock inRegion, ¬ nameOf call <:+ piece := by
  match inBlock, inRegion with
  | true, true => exact revert_rename_piece piece
  | true, false =>
    have hnames : (∀ call ∈ renames.map Prod.fst, ¬ nameOf call <:+ piece) ↔
        ∀ e ∈ renames, ¬ nameOf e.1 <:+ piece := List.forall_mem_map
    exact (separated_renames.rewriteAll_eq_self piece).trans hnames.symm
  | false, true => exact revert_eq_self piece
  | false, false => simp [change, changed]

/-! ## Code with blocks -/

/-- Code is made of some blocks, with the code before each, and a rest. -/
structure Divides (code : Text) (blocks : List Region) (rest : Text) : Prop where
  code_eq : code = blocks.flatMap Region.code ++ rest
  call : ∀ g ∈ blocks, g.call ∈ followCalls

theorem Parses.divides {regions : List Region} (h : Parses code regions rest) :
    Divides code regions rest :=
  ⟨h.code_eq, fun g hg => (h.found g hg).call⟩

/-- For each call of the code, whether it is in the body of a block. -/
def marks (blocks : List Region) (rest : Text) : List Bool :=
  blocks.flatMap (fun g => List.replicate (g.outside.count '(' + 1) false ++
    List.replicate (g.body.count '(') true) ++ List.replicate (rest.count '(') false

theorem Divides.length_marks {blocks : List Region} (h : Divides code blocks rest) :
    (marks blocks rest).length = code.count '(' := by
  obtain ⟨rfl, hcalls⟩ := h
  have hopening : ∀ call ∈ followCalls, (opening call).count '(' = 1 := by decide
  have hclosing : ['\x7d'].count '(' = 0 := by decide
  induction blocks with
  | nil => simp [marks]
  | cons g blocks ih =>
    rw [List.forall_mem_cons] at hcalls
    have hrest := ih hcalls.2
    simp only [marks, List.flatMap_cons, List.length_append, List.length_replicate, Region.code,
      List.count_append, hopening g.call hcalls.1, hclosing] at hrest ⊢
    omega

/-- The calls of divided code are changed as the marks say. -/
theorem Divides.mapMarked {blocks : List Region} (h : Divides code blocks rest)
    {inside : Text → Text}
    (hcut : ∀ c, isPathChar c = false → ∀ x y, inside (x ++ c :: y) = x ++ c :: inside y) :
    mapMarked (change inside) (marks blocks rest) code =
      blocks.flatMap (fun g => replaceAll renames g.outside ++ start ++ mapCalls inside g.body ++
        ['\x7d']) ++ replaceAll renames rest := by
  have hchange : ∀ c, isPathChar c = false → ∀ mark x y,
      change inside mark (x ++ c :: y) = x ++ c :: change inside mark y := by
    intro c hc mark
    cases mark with
    | false => exact separated_renames.rewriteAll_append_cons hc
    | true => exact hcut c hc
  obtain ⟨rfl, hcalls⟩ := h
  induction blocks with
  | nil =>
    rw [separated_renames.replaceAll_eq]
    exact Text.mapMarked_replicate (change inside) false rest
  | cons g blocks ih =>
    rw [List.forall_mem_cons] at hcalls
    obtain ⟨hcall, hcalls⟩ := hcalls
    obtain ⟨hparen, hname, hfollow⟩ := followCalls_spec g.call hcall
    have hbrace : change inside false ('\x7b' :: nameOf g.call) =
        '\x7b' :: nameOf "this.__followScan(" := by
      have hskip := hchange '\x7b' (by decide) false [] (nameOf g.call)
      exact hskip.trans (congrArg ('\x7b' :: ·) hfollow)
    have hstart : start = '$' :: '\x7b' :: (nameOf "this.__followScan(" ++ ['(']) := by decide
    have hmarks : marks (g :: blocks) rest = List.replicate (g.outside.count '(') false ++
        (false :: (List.replicate (g.body.count '(') true ++ marks blocks rest)) := by
      simp [marks, List.replicate_succ']
    have hcode : (g :: blocks).flatMap Region.code ++ rest = g.outside ++ '$' ::
        ('\x7b' :: nameOf g.call ++ '(' :: (g.body ++ '\x7d' ::
          (blocks.flatMap Region.code ++ rest))) := by
      simp [Region.code, opening, hparen]
    rw [hmarks, hcode, Text.mapMarked_append_cons (by decide) (hchange '$' (by decide)),
      Text.mapMarked_paren _ _ _ (by simp [hname]), hbrace,
      Text.mapMarked_append_cons (by decide) (hchange '\x7d' (by decide)), ih hcalls,
      List.flatMap_cons, separated_renames.replaceAll_eq g.outside, hstart]
    simp [change]

theorem Divides.kept {blocks : List Region} (h : Divides code blocks rest) :
    blocks.flatMap Region.kept ++ replaceAll renames rest =
      Text.mapMarked (change id) (marks blocks rest) code := by
  have hid : ∀ t, mapCalls id t = t := fun t => Text.mapCalls_eq_self fun _ _ => rfl
  rw [h.mapMarked fun _ _ _ _ => rfl]
  simp only [hid]
  rfl

theorem Parses.variant {regions : List Region} (h : Parses code regions rest) :
    ofCode code = Text.mapMarked (change back) (marks regions rest) code := by
  have hback : ∀ t, mapCalls back t = replaceAll reverts (replaceAll renames t) := by
    intro t
    rw [separated_renames.replaceAll_eq, separated_reverts.replaceAll_eq,
      Text.mapCalls_mapCalls separated_renames.rewriteAll_noParen]
    rfl
  have hcut : ∀ c, isPathChar c = false → ∀ x y, back (x ++ c :: y) = x ++ c :: back y := by
    intro c hc x y
    rw [back, separated_renames.rewriteAll_append_cons hc,
      separated_reverts.rewriteAll_append_cons hc, back]
  rw [h.divides.mapMarked hcut, ofCode_eq h]
  simp only [hback]
  rfl

/-- The scan variant leaves the blocks as they are, and renames all calls outside of them, exactly
if no call is changed that should not be. -/
theorem ofCode_eq_kept_iff {last : Text} {blocks regions : List Region}
    (h : Divides code blocks rest) (hparses : Parses code regions last) :
    ofCode code = blocks.flatMap Region.kept ++ replaceAll renames rest ↔
      ∀ x ∈ ((marks blocks rest).zip (marks regions last)).zip (calls code),
        ∀ call ∈ changed x.1.1 x.1.2, ¬ nameOf call <:+ x.2 := by
  have hkeep : ∀ inside, (∀ piece, '(' ∉ piece → '(' ∉ inside piece) →
      ∀ mark piece, '(' ∉ piece → '(' ∉ change inside mark piece := by
    intro inside hinside mark
    cases mark with
    | false => exact separated_renames.rewriteAll_noParen
    | true => exact hinside
  have hback : ∀ piece, '(' ∉ piece → '(' ∉ back piece := fun piece hpiece =>
    separated_reverts.rewriteAll_noParen _ (separated_renames.rewriteAll_noParen piece hpiece)
  simp only [← change_eq_iff]
  rw [h.kept, hparses.variant, eq_comm,
    Text.mapMarked_eq_iff (hkeep id fun _ h => h) (hkeep back hback) h.length_marks
      hparses.divides.length_marks]
  exact forall₂_congr fun _ _ => eq_comm

/-! ## Blocks that are nested as scripts are -/

/-- The interpolation of a block is nested as scripts are, without characters that could be taken
for delimiters. -/
def Region.IsNested (g : Region) : Prop :=
  Nesting.read? .code [] (g.call.toList ++ g.body) = some []

/-- The reader of groups finds the end of a nested block. -/
theorem Region.IsNested.closed {g : Region} (h : g.IsNested) (hcall : g.call ∈ followCalls) :
    Closed g.body := by
  have hplain : ∀ call ∈ followCalls, call.toList.all (!isDelimiter ·) = true := by decide
  have hread : Group.inside? '\x7b' '\x7d' 0 none (g.call.toList ++ g.body ++ ['\x7d']) =
      some (g.call.toList ++ g.body, []) := Nesting.group_read?_interpolation h []
  rw [List.append_assoc, Group.inside?_plain (by simp) (by simpa using hplain g.call hcall),
    Group.extend_eq_some] at hread
  obtain ⟨inner, hinner, hsame⟩ := hread
  rw [← List.append_cancel_left hsame] at hinner
  exact hinner

/-- Blocks that are nested as scripts are, and hold none of the calls that have no way back, are
left as they are. -/
theorem ofCode_eq_kept_iff_of_nested {blocks : List Region} (h : Divides code blocks rest)
    (hblocks : ∀ g ∈ blocks, Outside g.outside ∧ g.IsNested) (hrest : Outside rest) :
    ofCode code = blocks.flatMap Region.kept ++ replaceAll renames rest ↔
      ∀ g ∈ blocks, ∀ call ∈ lossy, ¬ call.toList <:+: g.body := by
  have hparses : Parses code blocks rest :=
    ⟨h.code_eq, fun g hg => ⟨(hblocks g hg).1, h.call g hg, (hblocks g hg).2.closed (h.call g hg)⟩,
      .outside hrest⟩
  rw [ofCode_eq hparses, List.append_left_inj]
  clear h hblocks hparses
  induction blocks with
  | nil => simp
  | cons g blocks ih =>
    rw [List.flatMap_cons, List.flatMap_cons, List.forall_mem_cons, Region.variant, Region.kept]
    simp only [List.append_assoc, List.append_right_inj]
    rw [revert_rename_iff, List.append_right_inj]
    exact and_congr Iff.rfl ih

theorem virtualRender_toModule (v : View) :
    v.toModule.virtualRender = ofCode v.toModule.render := by
  rw [View.toModule]

/-- **When the followed blocks of a view are left as they are.** Its code for scanning is its code
with all calls renamed, and changed back within the regions that the pass finds. For blocks that
begin and end anywhere, their bodies are left as they are and all calls outside of them are renamed
exactly if no call is changed otherwise, which depends on whether the call is in a block, and
whether it is in a region that is found. If the blocks are nested as scripts are, only the calls
that have no way back are. -/
theorem virtualRender_eq_iff (shared : SharedCode) (source name : Text) {blocks : List Region}
    {rest : Text} (h : Divides (compile shared source name).render blocks rest) :
    (∃ regions last, Parses (compile shared source name).render regions last) ∧
    (∀ regions last, Parses (compile shared source name).render regions last →
      (compile shared source name).virtualRender =
        regions.flatMap Region.variant ++ replaceAll renames last ∧
      ((compile shared source name).virtualRender =
          blocks.flatMap Region.kept ++ replaceAll renames rest ↔
        ∀ x ∈ ((marks blocks rest).zip (marks regions last)).zip
            (calls (compile shared source name).render),
          ∀ call ∈ changed x.1.1 x.1.2, ¬ nameOf call <:+ x.2)) ∧
    ((∀ g ∈ blocks, Outside g.outside ∧ g.IsNested) → Outside rest →
      ((compile shared source name).virtualRender =
          blocks.flatMap Region.kept ++ replaceAll renames rest ↔
        ∀ g ∈ blocks, ∀ call ∈ lossy, ¬ call.toList <:+: g.body)) ∧
    ∀ e ∈ renames, ∀ t, ¬ e.1.toList <:+: replaceAll renames t := by
  rw [compile, virtualRender_toModule]
  refine ⟨exists_parses _, fun regions last hparses => ⟨ofCode_eq hparses, ?_⟩, ?_, ?_⟩
  · exact ofCode_eq_kept_iff h hparses
  · exact ofCode_eq_kept_iff_of_nested h
  · exact fun e he t => separated_renames.not_infix_replaceAll he t

/-- A view with an apostrophe in a followed block that is in another one. -/
def apostropheSource : Text := "@follow($a)\n@follow($b)\n'\n@endfollow\n@endfollow"

/-- The outer block of the view, in its code. -/
def apostropheBlock : Region where
  outside := "function() \x7b\n" ++ indent 3 ++ "let " ++ View.output ++ " = '';\n" ++ indent 3 ++
    "try \x7b\n" ++ indent 4 ++ View.output ++ " = `"
  call := "this.__follow("
  body := "[\"a\"], () => `\n" ++ "$\x7bthis.__follow([\"b\"], () => `\n" ++ "'\n`)\x7d\n`)"

/-- The code after the block. -/
def apostropheRest : Text :=
  "`;\n" ++ indent 3 ++ "\x7d catch(e) \x7b\n" ++ indent 4 ++ View.output ++
    " = this.__showError(e.message);\n" ++ indent 4 ++ "console.warn(e);\n" ++ indent 3 ++
    "\x7d\n" ++ indent 3 ++ "return " ++ View.output ++ ";\n" ++ indent 2 ++ "\x7d"

theorem render_apostrophe : (compile {} apostropheSource "v").render =
    [apostropheBlock].flatMap Region.code ++ apostropheRest := by
  decide +kernel

/-- The apostrophe hides the end of the block, so that the inner block is called for scanning. -/
theorem virtualRender_eq_iff_apostrophe :
    Divides (compile {} apostropheSource "v").render [apostropheBlock] apostropheRest ∧
      (compile {} apostropheSource "v").virtualRender ≠
        [apostropheBlock].flatMap Region.kept ++ replaceAll renames apostropheRest := by
  have hdivides : Divides (compile {} apostropheSource "v").render [apostropheBlock]
      apostropheRest := ⟨render_apostrophe, by decide⟩
  have hparses : Parses (compile {} apostropheSource "v").render []
      ([apostropheBlock].flatMap Region.code ++ apostropheRest) := by
    refine ⟨by rw [render_apostrophe, List.flatMap_nil, List.nil_append], by simp, ?_⟩
    have hdollar : '$' ∉ apostropheBlock.outside := by decide +kernel
    have hout : Outside apostropheBlock.outside := fun call _ h =>
      hdollar (h.subset List.mem_cons_self)
    have hopen : Group.read? ('\x7b' :: (apostropheBlock.body ++ ['\x7d'] ++ apostropheRest)) =
        none := by decide +kernel
    have hsplit : [apostropheBlock].flatMap Region.code ++ apostropheRest =
        apostropheBlock.outside ++ opening apostropheBlock.call ++
          (apostropheBlock.body ++ ['\x7d'] ++ apostropheRest) := by
      simp only [List.flatMap_cons, List.flatMap_nil, Region.code, List.append_assoc,
        List.append_nil]
    rw [hsplit]
    exact .opened hout (by decide) hopen
  refine ⟨hdivides, fun hkept => ?_⟩
  have hcalls := ((virtualRender_eq_iff {} apostropheSource "v" hdivides).2.1 _ _ hparses).2.mp
    hkept
  rw [render_apostrophe] at hcalls
  -- the call of the inner block is in the outer one, but in no region that is found
  have hat : (((marks [apostropheBlock] apostropheRest).zip
      (marks [] ([apostropheBlock].flatMap Region.code ++ apostropheRest))).zip
        (calls ([apostropheBlock].flatMap Region.code ++ apostropheRest)))[3]? =
          some ((true, false), ") => `\n$\x7bthis.__follow".toList) := by decide +kernel
  exact hcalls _ (List.mem_of_getElem? hat) "this.__follow(" (by decide) (by decide)

end BladeView.ScanVariant
