import BladeView.Block.Machine
import BladeView.Proofs.TopLevel.ClosedCode

/-!
# The arguments of block directives

The plain arguments are variables with their sigil and quoted names. A list of them is split into
just these arguments, and whatever a block directive makes of them is flat code: the names of
sections and blocks, the keys of a region that follows something, and the headers of loops.
-/
namespace BladeView

open Option (bind_eq_some_iff map_eq_some_iff)

variable {t rest name sign : Text} {mark c : Char}

/-! ## Loop headers -/

namespace Text

theorem readFirst?_eq_some {α : Type} {reader : Option Char → Text → Option (α × Text)}
    {before : Option Char} {start : Text} {value : α}
    (h : readFirst? reader before t = some (start, value, rest)) :
    ∃ before' t', t = start ++ t' ∧ reader before' t' = some (value, rest) := by
  induction t generalizing before start with
  | nil =>
    obtain ⟨found, hread, heq⟩ := map_eq_some_iff.mp h
    cases heq
    exact ⟨before, [], rfl, hread⟩
  | cons c t ih =>
    rw [readFirst?] at h
    split at h
    case h_1 hread =>
      cases h
      exact ⟨before, c :: t, rfl, hread⟩
    case h_2 =>
      obtain ⟨⟨start', value', rest'⟩, hfound, heq⟩ := map_eq_some_iff.mp h
      cases heq
      obtain ⟨before', t', rfl, hread⟩ := ih hfound
      exact ⟨before', t', rfl, hread⟩

/-- A word that a sigil may precede, and flat code after it. -/
theorem sigilWord?_spec {word : Text} (h : sigilWord? t = some (word, rest)) :
    (∀ c ∈ word, isPlainCode c = true) ∧ (IsFlat t → IsFlat rest) := by
  simp only [sigilWord?] at h
  obtain ⟨-, h⟩ := Option.ite_none_left_eq_some.1 h
  cases h
  refine ⟨fun c hc => isPlainCode_of_isWordChar (List.all_eq_true.mp List.all_takeWhile c hc), ?_⟩
  intro ht
  have hstart : IsFlat ((after? "$" t).getD t) := by
    cases hafter : after? "$" t with
    | none => exact ht
    | some start =>
      rw [after?_eq_some.mp hafter] at ht
      exact ht.of_append_plain (List.all_eq_true.mp rfl)
  exact hstart.dropWhile fun _ => isPlainCode_of_isWordChar

theorem trimStart_isFlat (h : IsFlat t) : IsFlat (trimStart t) :=
  h.dropWhile fun _ => isPlainCode_of_isBlank

/-- What stands before and after a semicolon of flat code is flat. -/
theorem beforeSemicolon?_spec {α : Type} {reader : Text → Option α} {before : Text} {value : α}
    (h : beforeSemicolon? reader t = some (before, value)) (ht : IsFlat t) :
    IsFlat before ∧ ∃ rest, IsFlat rest ∧ reader rest = some value := by
  obtain ⟨⟨start, found, rest⟩, hfirst, h⟩ := bind_eq_some_iff.mp h
  simp only at h
  obtain ⟨-, h⟩ := Option.ite_none_left_eq_some.1 h
  cases h
  obtain ⟨before', t', rfl, hread⟩ := readFirst?_eq_some hfirst
  obtain ⟨tail, hafter, hread⟩ := bind_eq_some_iff.mp hread
  obtain ⟨found, hreader, heq⟩ := bind_eq_some_iff.mp hread
  cases heq
  rw [after?_eq_some.mp hafter] at ht
  obtain ⟨hbefore, htail⟩ := IsFlat.cut (c := ';') rfl rfl ht
  exact ⟨hbefore, tail, htail.of_cons rfl, hreader⟩

end Text

theorem ForeachHeader.names?_spec {names : Option Text × Text} (h : names? t = some names) :
    (∃ c rest, t = c :: rest ∧ isBlank c = true) ∧ (∀ c ∈ names.2, isPlainCode c = true) ∧
      ∀ key ∈ names.1, ∀ c ∈ key, isPlainCode c = true := by
  obtain ⟨afterBlanks, hblanks, h⟩ := bind_eq_some_iff.mp h
  obtain ⟨afterWord, -, h⟩ := bind_eq_some_iff.mp h
  obtain ⟨nameStart, -, h⟩ := bind_eq_some_iff.mp h
  obtain ⟨⟨first, rest⟩, hfirst, h⟩ := bind_eq_some_iff.mp h
  have hblank : ∃ c rest, t = c :: rest ∧ isBlank c = true := by
    cases t with
    | nil => simp [Text.blanks?] at hblanks
    | cons c rest =>
      refine ⟨c, rest, rfl, ?_⟩
      cases hc : isBlank c with
      | true => rfl
      | false => simp [Text.blanks?, hc] at hblanks
  refine ⟨hblank, ?_⟩
  have hfirst := (Text.sigilWord?_spec hfirst).1
  simp only at h
  split at h
  case isTrue =>
    cases h
    exact ⟨hfirst, by simp⟩
  case isFalse =>
    obtain ⟨afterArrow, -, h⟩ := bind_eq_some_iff.mp h
    obtain ⟨⟨second, rest'⟩, hsecond, h⟩ := bind_eq_some_iff.mp h
    simp only at h
    obtain ⟨-, h⟩ := Option.ite_none_right_eq_some.1 h
    cases h
    refine ⟨(Text.sigilWord?_spec hsecond).1, ?_⟩
    rintro key ⟨⟩
    exact hfirst

/-- The parts of a loop header in flat code are flat. -/
theorem ForeachHeader.read?_spec {header : ForeachHeader} (h : read? t = some header)
    (ht : IsFlat t) :
    IsFlat header.subject ∧ IsFlat header.value ∧ ∀ key ∈ header.key, IsFlat key := by
  obtain ⟨⟨subject, ⟨key, value⟩, rest⟩, hfirst, heq⟩ := bind_eq_some_iff.mp h
  cases heq
  obtain ⟨before, t', rfl, hread⟩ := Text.readFirst?_eq_some hfirst
  obtain ⟨names, hnames, heq⟩ := map_eq_some_iff.mp hread
  cases heq
  obtain ⟨⟨c, rest, rfl, hblank⟩, hvalue, hkey⟩ := names?_spec hnames
  have hsubject : IsFlat subject :=
    (IsFlat.cut (isQuote_eq_false_of_isPlainCode (isPlainCode_of_isBlank hblank))
      (isNameChar_eq_false_of_isBlank hblank) ht).1
  exact ⟨hsubject, .of_plain hvalue, fun key hmem => .of_plain (hkey key hmem)⟩

namespace ForHeader

theorem step?_spec (h : step? t = some (name, sign)) : IsFlat sign := by
  obtain ⟨⟨word, rest⟩, -, h⟩ := bind_eq_some_iff.mp h
  simp only at h
  obtain ⟨hsign, h⟩ := Option.ite_none_right_eq_some.1 h
  cases h
  simp only [Bool.and_eq_true, Bool.or_eq_true, beq_iff_eq] at hsign
  rcases hsign.1 with hsign | hsign <;> rw [hsign] <;> rfl

theorem condition?_spec {bound stepName step : Text}
    (h : condition? t = some (name, sign, bound, stepName, step)) (ht : IsFlat t) :
    IsFlat sign ∧ IsFlat bound ∧ IsFlat step := by
  obtain ⟨⟨word, rest⟩, hword, h⟩ := bind_eq_some_iff.mp h
  have hrest := Text.trimStart_isFlat ((Text.sigilWord?_spec hword).2 (Text.trimStart_isFlat ht))
  have hsigns : ∀ c : Char, (c == '<' || c == '>' || c == '=' || c == '!') = true →
      isPlainCode c = true := fun c hc =>
    isPlainCode_of (p := fun c => c == '<' || c == '>' || c == '=' || c == '!') hc (by decide)
  simp only at h
  obtain ⟨-, h⟩ := Option.ite_none_left_eq_some.1 h
  obtain ⟨⟨bound', stepName', step'⟩, hbound, heq⟩ := bind_eq_some_iff.mp h
  cases heq
  obtain ⟨hflat, tail, -, hstep⟩ :=
    Text.beforeSemicolon?_spec hbound (Text.trimStart_isFlat (hrest.dropWhile hsigns))
  refine ⟨.of_plain fun c hc => ?_, hflat, step?_spec hstep⟩
  exact hsigns c (List.all_eq_true.mp List.all_takeWhile c hc)

theorem parts?_spec {header : ForHeader} (h : parts? t = some header) (ht : IsFlat t) :
    IsFlat header.name ∧ IsFlat header.start ∧ IsFlat header.comparison ∧ IsFlat header.bound ∧
      IsFlat header.step := by
  obtain ⟨⟨name, rest⟩, hname, h⟩ := bind_eq_some_iff.mp h
  obtain ⟨hplain, hrest⟩ := Text.sigilWord?_spec hname
  obtain ⟨afterEquals, hequals, h⟩ := bind_eq_some_iff.mp h
  have hflat := Text.trimStart_isFlat (hrest ht)
  rw [Text.after?_eq_some.mp hequals] at hflat
  have hflat : IsFlat afterEquals := hflat.of_append_plain (List.all_eq_true.mp rfl)
  obtain ⟨⟨start, name', sign, bound, stepName, step⟩, hstart, h⟩ := bind_eq_some_iff.mp h
  obtain ⟨hbefore, tail, htail, hcondition⟩ :=
    Text.beforeSemicolon?_spec hstart (Text.trimStart_isFlat hflat)
  obtain ⟨hsign, hbound, hstep⟩ := condition?_spec hcondition htail
  simp only at h
  obtain ⟨-, h⟩ := Option.ite_none_right_eq_some.1 h
  cases h
  exact ⟨.of_plain hplain, hbefore, hsign, hbound, hstep⟩

/-- The parts of a counting header in flat code are flat. -/
theorem read?_spec {header : ForHeader} (h : read? t = some header) (ht : IsFlat t) :
    IsFlat header.name ∧ IsFlat header.start ∧ IsFlat header.comparison ∧ IsFlat header.bound ∧
      IsFlat header.step := by
  have hstart := Text.trimStart_isFlat ht
  rcases Option.or_eq_some_iff.mp h with hdeclared | ⟨-, hparts⟩
  · obtain ⟨word, hmem, hread⟩ := List.exists_of_findSome?_eq_some hdeclared
    obtain ⟨afterWord, hword, hread⟩ := bind_eq_some_iff.mp hread
    obtain ⟨rest, hblanks, hparts⟩ := bind_eq_some_iff.mp hread
    rw [Text.after?_eq_some.mp hword] at hstart
    have hplain : List.all word isPlainCode = true := by
      simp only [List.mem_cons, List.not_mem_nil, or_false] at hmem
      rcases hmem with rfl | rfl <;> rfl
    have hafter := hstart.of_append_plain (List.all_eq_true.mp hplain)
    have hrest : IsFlat rest := by
      simp only [Text.blanks?] at hblanks
      split at hblanks <;> cases hblanks
      exact Text.trimStart_isFlat hafter
    exact parts?_spec hparts hrest
  · exact parts?_spec hparts hstart

end ForHeader

/-! ## Plain arguments -/

/-- A variable with its sigil, or a quoted name. -/
inductive IsArgument : Text → Prop
  | sigil {name : Text} : Name.isIdentifier name = true → IsArgument ('$' :: name)
  | quoted {mark : Char} {name : Text} : isQuote mark = true → Name.isIdentifier name = true →
      (mark = '\x60' → '$' ∉ name) → IsArgument (mark :: (name ++ [mark]))

/-- Plain arguments with commas between them. There may be blanks around each of them. -/
def IsArgumentList (t : Text) : Prop :=
  ∃ entries : List Text, (∀ entry ∈ entries, IsArgument (Text.trim entry)) ∧
    t = Text.join "," entries

/-- The characters of a quoted name can stand within its quotation. -/
theorem Flat.isQuoted_of_isIdentifier (hmark : isQuote mark = true)
    (hname : Name.isIdentifier name = true) (hdollar : mark = '\x60' → '$' ∉ name) :
    ∀ c ∈ name, c ≠ mark ∧ isQuoted mark c = true := by
  intro c hc
  have hchar := (Name.isIdentifier_spec hname).2 c hc
  refine ⟨?_, ?_⟩
  · rintro rfl
    rw [isQuote_eq_false_of_isPlainCode (isPlainCode_of_isNameChar hchar)] at hmark
    cases hmark
  · have hother : (mark == '\x60' && c == '$') = false := by
      rw [Bool.eq_false_iff, Ne, Bool.and_eq_true, beq_iff_eq, beq_iff_eq]
      rintro ⟨hmark, rfl⟩
      exact hdollar hmark hc
    simp [isQuoted, hchar, hother]

namespace IsArgument

variable {arg : Text}

theorem isFlat (h : IsArgument arg) : IsFlat arg := by
  cases h with
  | @sigil name hname =>
    refine .of_plain fun c hc => ?_
    rcases List.mem_cons.mp hc with rfl | hc
    · rfl
    · exact isPlainCode_of_isNameChar ((Name.isIdentifier_spec hname).2 c hc)
  | quoted hmark hname hdollar =>
    exact .quoted hmark (Flat.isQuoted_of_isIdentifier hmark hname hdollar) .nil

/-- An argument has no blanks and no commas in it. -/
theorem mem (h : IsArgument arg) (hc : c ∈ arg) : isBlank c = false ∧ c ≠ ',' := by
  have hchar : isNameChar c = true ∨ isQuote c = true := by
    cases h with
    | sigil hname =>
      rcases List.mem_cons.mp hc with rfl | hc
      · exact .inl rfl
      · exact .inl ((Name.isIdentifier_spec hname).2 c hc)
    | quoted hmark hname =>
      simp only [List.mem_cons, List.mem_append, List.not_mem_nil, or_false] at hc
      rcases hc with rfl | hc | rfl
      · exact .inr hmark
      · exact .inl ((Name.isIdentifier_spec hname).2 c hc)
      · exact .inr hmark
  constructor
  · cases hblank : isBlank c with
    | false => rfl
    | true =>
      rw [isNameChar_eq_false_of_isBlank hblank,
        isQuote_eq_false_of_isPlainCode (isPlainCode_of_isBlank hblank)] at hchar
      rcases hchar with hchar | hchar <;> cases hchar
  · rintro rfl
    exact absurd hchar (by decide)

theorem ne_nil (h : IsArgument arg) : arg ≠ [] := by
  cases h <;> simp

end IsArgument

/-- An argument with blanks around it. -/
theorem IsArgument.entry {entry : Text} (h : IsArgument (Text.trim entry)) :
    IsFlat entry ∧ ',' ∉ entry := by
  obtain ⟨before, after, heq, hbefore, hafter⟩ := Text.trim_spec entry
  have hblank : ∀ t : Text, (∀ c ∈ t, isBlank c = true) → IsFlat t ∧ ',' ∉ t := fun t ht =>
    ⟨.of_plain fun c hc => isPlainCode_of_isBlank (ht c hc), fun hmem => by cases ht _ hmem⟩
  obtain ⟨hflat, hcomma⟩ := hblank before hbefore
  obtain ⟨hflat', hcomma'⟩ := hblank after hafter
  have hcomma'' : ',' ∉ Text.trim entry := fun hmem => (h.mem hmem).2 rfl
  rw [heq]
  exact ⟨(hflat.append h.isFlat).append hflat', by simp [hcomma, hcomma', hcomma'']⟩

theorem IsArgumentList.isFlat (h : IsArgumentList t) : IsFlat t := by
  obtain ⟨entries, hentries, rfl⟩ := h
  exact Text.join_induction .nil (fun _ _ => .append) rfl
    fun entry hentry => (hentries entry hentry).entry.1

/-! ## Lists of arguments -/

namespace TopLevel

/-- A list of plain arguments is split into these arguments. -/
theorem split_join {entries : List Text}
    (hentries : ∀ entry ∈ entries, IsArgument (Text.trim entry)) :
    split (Text.join "," entries) = entries.map Text.trim := by
  have hwhole : ∀ entry ∈ entries, IsWhole ',' entry := fun entry hentry => by
    obtain ⟨hflat, hcomma⟩ := (hentries entry hentry).entry
    refine (ClosedCode.of_flat hflat fun c hc => ?_).isWhole
    rw [bne_iff_ne]
    exact ne_of_mem_of_not_mem hc hcomma
  cases entries with
  | nil => rfl
  | cons entry entries =>
    have hpieces : pieces ',' Level.start (Text.join "," (entry :: entries)) =
        entry :: entries.map ([] ++ ·) := pieces_join pieces_comma (fun _ => rfl) hwhole
    rw [split_eq, hpieces, List.map_congr_left fun _ _ => List.nil_append _, List.map_id']
    refine dropEmptyLast_eq_self fun part hpart => ?_
    obtain ⟨e, he, rfl⟩ := List.mem_map.mp hpart
    exact (hentries e he).ne_nil

end TopLevel

/-- The parts of a list of plain arguments. -/
theorem IsArgumentList.split (h : IsArgumentList t) :
    ∀ arg ∈ TopLevel.split t, IsArgument arg := by
  obtain ⟨entries, hentries, rfl⟩ := h
  rw [TopLevel.split_join hentries]
  intro arg harg
  obtain ⟨entry, hentry, rfl⟩ := List.mem_map.mp harg
  exact hentries entry hentry

/-! ## Names in fragments -/

theorem IsArgument.trim {arg : Text} (h : IsArgument arg) : Text.trim arg = arg :=
  Text.trim_eq_self fun _ hc => (h.mem hc).1

theorem Name.unquote?_sigil (hname : isIdentifier name = true) : unquote? ('$' :: name) = none := by
  simp [unquote?, (IsArgument.sigil hname).trim, isQuote]

theorem Name.unquote?_quoted (hmark : isQuote mark = true) (hname : isIdentifier name = true)
    (hdollar : mark = '\x60' → '$' ∉ name) :
    unquote? (mark :: (name ++ [mark])) = some name := by
  simp [unquote?, (IsArgument.quoted hmark hname hdollar).trim, hmark, Text.enclosed?]

/-- A text is left as it is if none of its characters is escaped. -/
theorem Quoted.flatMap_eq_self {escape : Char → Text} (h : ∀ c ∈ t, escape c = [c]) :
    t.flatMap escape = t := by
  induction t with
  | nil => rfl
  | cons c t ih =>
    rw [List.flatMap_cons, h c (by simp), ih fun d hd => h d (by simp [hd])]
    rfl

/-- A string of name characters is flat if they are not escaped. -/
theorem Quoted.isFlat_string {escape : Char → Text} (hmark : mark = '\x27' ∨ mark = '\x22')
    (hescape : ∀ c, isNameChar c = true → escape c = [c])
    (hname : ∀ c ∈ name, isNameChar c = true) :
    IsFlat (mark :: (name.flatMap escape ++ [mark])) := by
  rw [flatMap_eq_self fun c hc => hescape c (hname c hc)]
  refine .quoted (by rcases hmark with rfl | rfl <;> rfl) (fun c hc => ⟨?_, ?_⟩) .nil
  · exact isNameChar_ne (hname c hc) (by rcases hmark with rfl | rfl <;> rfl)
  · have hbacktick : mark ≠ '\x60' := by rcases hmark with rfl | rfl <;> decide
    simp [Flat.isQuoted, hname c hc, hbacktick]

theorem Quoted.isFlat_single (hname : ∀ c ∈ name, isNameChar c = true) : IsFlat (single name) := by
  refine isFlat_string (.inl rfl) (fun c hc => ?_) hname
  simp [singleChar, isNameChar_ne hc (d := '\\') rfl, isNameChar_ne hc (d := '\x27') rfl,
    isNameChar_ne hc (d := '\n') rfl, isNameChar_ne hc (d := '\r') rfl]

theorem Quoted.doubleChar_of_isNameChar (hc : isNameChar c = true) : doubleChar c = [c] := by
  have hcontrol : ¬c.toNat < 0x20 := by
    intro hlow
    have hall : ∀ n < 0x20, isNameChar (Char.ofNat n) = false := by decide
    have hclass := hall c.toNat hlow
    rw [Char.ofNat_toNat, hc] at hclass
    cases hclass
  simp [doubleChar, isNameChar_ne hc (d := '\\') rfl, isNameChar_ne hc (d := '\x22') rfl,
    isNameChar_ne hc (d := '\n') rfl, isNameChar_ne hc (d := '\r') rfl,
    isNameChar_ne hc (d := '\t') rfl, isNameChar_ne hc (d := '\x08') rfl,
    isNameChar_ne hc (d := '\x0c') rfl, hcontrol]

theorem Quoted.double_of_names (hname : ∀ c ∈ name, isNameChar c = true) :
    double name = '\x22' :: (name ++ ['\x22']) := by
  rw [double, flatMap_eq_self fun c hc => doubleChar_of_isNameChar (hname c hc)]
  rfl

theorem Quoted.isFlat_double (hname : ∀ c ∈ name, isNameChar c = true) : IsFlat (double name) :=
  isFlat_string (.inr rfl) (fun _ => doubleChar_of_isNameChar) hname

theorem Name.bare_isArgument {arg : Text} (h : IsArgument arg) :
    ∀ c ∈ bare arg, isNameChar c = true := by
  cases h with
  | @sigil name hname =>
    obtain ⟨⟨c, rest, rfl, hstart⟩, hchars⟩ := isIdentifier_spec hname
    have hdollar : c ≠ '$' := by
      rintro rfl
      cases hstart
    have hbare : bare ('$' :: c :: rest) = c :: rest := by
      simp [bare, unquote?_sigil hname, (IsArgument.sigil hname).trim, hdollar]
    rwa [hbare]
  | quoted hmark hname hdollar =>
    rw [bare, unquote?_quoted hmark hname hdollar]
    exact (isIdentifier_spec hname).2

namespace Machine

theorem isFlat_convert (m : Machine) (h : IsFlat t) : IsFlat (m.convert t) :=
  Expression.isFlat_toScript m.bindings h

/-- The script form of the name of a section or a block. -/
theorem isFlat_sectionName (m : Machine) {arg : Text} (h : IsArgument arg) :
    IsFlat (m.sectionName arg).2 := by
  unfold sectionName
  split
  case h_2 => exact m.isFlat_convert h.isFlat
  case h_1 name hname =>
    obtain ⟨hname, -⟩ := Option.filter_eq_some_iff.mp hname
    cases h with
    | sigil hsigil =>
      rw [Name.unquote?_sigil hsigil] at hname
      cases hname
    | quoted hmark hquoted hdollar =>
      rw [Name.unquote?_quoted hmark hquoted hdollar] at hname
      cases hname
      exact Quoted.isFlat_single (Name.isIdentifier_spec hquoted).2

/-- The script form of the header of a counting loop. -/
theorem isFlat_forHeader (m : Machine) {args : Text} (h : IsFlat args) :
    IsFlat (m.forHeader args) := by
  unfold forHeader
  split
  case h_1 => exact m.isFlat_convert h
  case h_2 header hread =>
    obtain ⟨hname, hstart, hcomparison, hbound, hstep⟩ := ForHeader.read?_spec hread h
    have hlet : IsFlat "let " := rfl
    have hassign : IsFlat " = " := rfl
    have hsemicolon : IsFlat "; " := rfl
    have hspace : IsFlat " " := rfl
    exact (((((((((hlet.append hname).append hassign).append (m.isFlat_convert hstart)).append
      hsemicolon).append hname).append hspace).append hcomparison).append hspace).append
        (m.isFlat_convert hbound)).append hsemicolon |>.append hname |>.append hstep

end Machine
end BladeView
