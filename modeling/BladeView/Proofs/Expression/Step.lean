import BladeView.Expression.Convert
import BladeView.Proofs.Group.Reading
import BladeView.Proofs.Script.Nesting
import BladeView.Proofs.Text.Word

/-!
# The steps of the conversion

A step of the pass looks at the class of the character it stands at. What it can do there is said
once, as a relation between what is read, what is left and the pass after it, so that what is proved
of the pass need not go through the conditions of the step again.
-/
namespace BladeView

open Text (startsWith)

/-! ## Characters -/

theorem isPlainCode_eq_false {c : Char} (h : isPlainCode c = false) :
    c ∈ ['\x27', '\x22', '\x60', '\\', '(', ')', '[', ']', '\x7b', '\x7d'] := by
  simp only [isPlainCode, isQuote, Bool.not_eq_false', Bool.or_eq_true, beq_iff_eq] at h
  simpa [or_assoc] using h

/-- A class of characters is plain if none of the delimiters is in it. -/
theorem isPlainCode_of {p : Char → Bool} {c : Char} (hc : p c = true)
    (hp : ['\x27', '\x22', '\x60', '\\', '(', ')', '[', ']', '\x7b', '\x7d'].any p = false) :
    isPlainCode c = true := by
  cases hplain : isPlainCode c with
  | true => rfl
  | false =>
    exact absurd hc (List.any_eq_false.mp hp c (isPlainCode_eq_false hplain))

theorem isPlainCode_of_isNameChar {c : Char} (h : isNameChar c = true) : isPlainCode c = true :=
  isPlainCode_of h (by decide)

theorem isPlainCode_of_isBlank {c : Char} (h : isBlank c = true) : isPlainCode c = true :=
  isPlainCode_of h (by decide)

theorem isPlainCode_of_isWordChar {c : Char} (h : isWordChar c = true) : isPlainCode c = true :=
  isPlainCode_of h (by decide)

theorem isQuote_eq_false_of_isPlainCode {c : Char} (h : isPlainCode c = true) :
    isQuote c = false := by
  simp only [isPlainCode, Bool.not_eq_true', Bool.or_eq_false_iff] at h
  exact h.1.1.1.1.1.1.1

namespace Expression

/-! ## One step -/

theorem number_prefix (t : Text) :
    ∃ rest, t = number t ++ rest ∧ ∀ c ∈ number t, isPlainCode c = true := by
  induction t with
  | nil => exact ⟨[], rfl, by simp [number]⟩
  | cons c t ih =>
    obtain ⟨rest, heq, hplain⟩ := ih
    rw [number]
    split
    case isFalse => exact ⟨c :: t, rfl, by simp⟩
    case isTrue hc =>
      refine ⟨rest, by rw [List.cons_append, ← heq], ?_⟩
      intro d hd
      rcases List.mem_cons.mp hd with rfl | hd
      · have hclass : (fun d : Char => d.isAlphanum || d == '_' || d == '.') d = true := by
          simp only [Bool.or_eq_true, Bool.and_eq_true] at hc ⊢
          exact hc.imp_right And.left
        exact isPlainCode_of (p := fun d => d.isAlphanum || d == '_' || d == '.') hclass (by decide)
      · exact hplain d hd

variable {b : Bindings} {convert : Text → Text} {p : Pass}

/-- The step at a character that belongs to names. -/
theorem step_of_isNameChar {c : Char} {cs : Text} (hc : isNameChar c = true) :
    step b convert p c cs
      = if c == '$' && cs.head?.any isNameStart && !p.endsName then
          (p.token (cs.takeWhile isNameChar) (.word (cs.takeWhile isNameChar)),
            (cs.takeWhile isNameChar).length)
        else if p.endsName then (p.write [c], 0)
        else if isNameStart c then nameStep b p (c :: cs)
        else if c.isDigit then
          (p.token (number (c :: cs)) .literal, (number (c :: cs)).length - 1)
        else (p.token [c] (.sign c), 0) := by
  have hplain := isPlainCode_of_isNameChar hc
  have hquote := isQuote_eq_false_of_isPlainCode hplain
  have hslash : (c == '\\') = false := by
    refine beq_false_of_ne ?_
    rintro rfl
    cases hplain
  simp only [step, hslash, hquote, hc, Bool.true_and, Bool.false_eq_true, if_false]
  split
  · rfl
  split
  · rfl
  split
  · rfl
  split
  · rfl
  next hstart hdigit =>
    obtain rfl := eq_dollar hc (by simpa using hstart) (by simpa using hdigit)
    rfl

/-- The step at any other character, after the escapes and the literals. -/
theorem step_of_not_isNameChar {c : Char} {cs : Text} (hslash : c ≠ '\\')
    (hquote : isQuote c = false) (hc : isNameChar c = false) :
    step b convert p c cs
      = if startsWith "->" (c :: cs) then (p.token "." (.sign '.'), 1)
        else if startsWith "?->" (c :: cs) then (p.token "?." (.sign '.'), 2)
        else if startsWith "?." (c :: cs) then (p.token "?." (.sign '.'), 1)
        else if startsWith "::" (c :: cs) then (p.token "." (.sign '.'), 1)
        else if c == '.' then dotStep p cs
        else if c == '[' then bracketStep convert p (c :: cs)
        else if isBlank c then (p.write [c], 0)
        else (p.token [c] (.sign c), 0) := by
  have hsigil : (c == '$') = false := by
    refine beq_false_of_ne ?_
    rintro rfl
    cases hc
  simp only [step, beq_false_of_ne hslash, hquote, hsigil, hc, isNameStart_eq_false hc,
    isDigit_eq_false hc, Bool.false_and, Bool.false_eq_true, if_false]

/-! ## Jumps -/

/-- Jumping ahead is dropping characters and keeping the last of them in mind. -/
theorem run_jump (b : Bindings) (convert : Text → Text) (p : Pass) (jump : Nat) (t : Text) :
    run b convert p jump t
      = run b convert { p with last := (t.take jump).getLast?.or p.last } 0
          (t.drop jump) := by
  induction t generalizing p jump with
  | nil => simp [run]
  | cons c t ih =>
    cases jump with
    | zero => rfl
    | succ jump =>
      rw [run, ih, List.take_succ_cons, Text.getLast?_cons_or, List.drop_succ_cons]

/-- A step that has read all of `c :: more`. -/
theorem run_step {c : Char} {more rest : Text} {q : Pass}
    (h : step b convert p c (more ++ rest) = (q, more.length)) :
    run b convert p 0 (c :: (more ++ rest)) =
      run b convert { q with last := (c :: more).getLast? } 0 rest := by
  have hlast := Text.getLast?_cons_or c more none
  rw [Option.or_none] at hlast
  rw [run, h]
  simp only [run_jump b convert _ more.length, List.take_left, List.drop_left, hlast]

/-! ## Turns -/

/-- The characters that are signs by themselves. -/
def isSign (c : Char) : Bool :=
  !(c == '\\' || isQuote c || isNameStart c || c.isDigit || c == '.' || c == '[' || isBlank c)

/-- An argument list follows, maybe after blanks. -/
def callFollows (rest : Text) : Bool := (Text.trimStart rest).head? == some '('

/-- The script of a bracket that is closed: an index or an array. -/
def bracketed (convert : Text → Text) (before : Before) (inner : Text) : Text :=
  if before.takesIndex then "[" ++ convert inner ++ "]" else array convert inner

/-- One turn of the pass: what it reads, what is left, and the pass after it. -/
inductive Turn (b : Bindings) (convert : Text → Text) (p : Pass) : Text → Text → Pass → Prop
  | escape {c : Char} {rest : Text} : Turn b convert p ['\\', c] rest (p.write ['\\', c])
  | escapeEnd : Turn b convert p ['\\'] [] (p.write ['\\'])
  | quoted {quote : Char} {inside rest : Text} : isQuote quote = true →
      quotedRest quote (inside ++ rest) = inside →
      Turn b convert p (quote :: inside) rest (p.token (literal (quote :: inside)) .literal)
  | sigil {c : Char} {name rest : Text} : p.endsName = false → isNameStart c = true →
      (∀ d ∈ name, isNameChar d = true) → rest.head?.any isNameChar = false →
      Turn b convert p ('$' :: c :: name) rest (p.token (c :: name) (.word (c :: name)))
  | nameTail {c : Char} {rest : Text} : p.endsName = true → isNameChar c = true →
      Turn b convert p [c] rest (p.write [c])
  /-- The word of an arrow function is left out. -/
  | parameters {blanks rest : Text} : p.endsName = false → (∀ d ∈ blanks, isBlank d = true) →
      Turn b convert p ('f' :: 'n' :: blanks) ('(' :: rest) p
  | routed {c : Char} {name rest : Text} : p.endsName = false → isNameStart c = true →
      (∀ d ∈ name, isNameChar d = true) → rest.head?.any isNameChar = false →
      callFollows rest = true → c :: name ≠ "fn".toList → isRouted b (c :: name) p.before = true →
      Turn b convert p (c :: name) rest
        (p.token (Callee.qualify (c :: name)) (.word (c :: name)))
  | word {c : Char} {name rest : Text} : p.endsName = false → isNameStart c = true →
      (∀ d ∈ name, isNameChar d = true) → rest.head?.any isNameChar = false →
      (callFollows rest = true → c :: name ≠ "fn".toList ∧ isRouted b (c :: name) p.before = false) →
      Turn b convert p (c :: name) rest (p.token (c :: name) (.word (c :: name)))
  | number {c : Char} {digits rest : Text} : p.endsName = false → c.isDigit = true →
      number (c :: (digits ++ rest)) = c :: digits →
      Turn b convert p (c :: digits) rest (p.token (c :: digits) .literal)
  | arrow {rest : Text} : Turn b convert p "->" rest (p.token "." (.sign '.'))
  | optionalArrow {rest : Text} : Turn b convert p "?->" rest (p.token "?." (.sign '.'))
  | optional {rest : Text} : Turn b convert p "?." rest (p.token "?." (.sign '.'))
  | static {rest : Text} : Turn b convert p "::" rest (p.token "." (.sign '.'))
  | spread {rest : Text} : Turn b convert p "..." rest (p.token "..." (.sign ','))
  | append {rest : Text} : Turn b convert p ".=" rest (p.token "+=" (.sign '='))
  /-- The blanks before a concatenation go with those after it. -/
  | concatenation {blanks rest : Text} : (∀ d ∈ blanks, isBlank d = true) →
      rest.head?.any isBlank = false → Text.startsWith ".." (blanks ++ rest) = false →
      (blanks ++ rest).head? ≠ some '=' → concatenates p.last (blanks ++ rest) = true →
      Turn b convert p ('.' :: blanks) rest
        ({ p with written := p.written.dropWhile isBlank }.token " + " (.sign '+'))
  | dot {rest : Text} : Text.startsWith ".." rest = false → rest.head? ≠ some '=' →
      concatenates p.last rest = false → Turn b convert p ['.'] rest (p.token ['.'] (.sign '.'))
  | group {inner rest : Text} :
      Group.read? ('[' :: (inner ++ ']' :: rest)) = some (inner, rest) →
      Turn b convert p ('[' :: (inner ++ [']'])) rest
        (p.token (bracketed convert p.before inner) (.sign ']'))
  | bracket {rest : Text} : Group.read? ('[' :: rest) = none →
      Turn b convert p ['['] rest (p.token ['['] (.sign '['))
  | blank {c : Char} {rest : Text} : isBlank c = true → Turn b convert p [c] rest (p.write [c])
  | sign {c : Char} {rest : Text} : isSign c = true →
      (c = '$' → p.endsName = false ∧ rest.head?.any isNameStart = false) →
      (∀ arrow ∈ ["->", "?->", "?.", "::"], Text.startsWith arrow.toList (c :: rest) = false) →
      Turn b convert p [c] rest (p.token [c] (.sign c))

theorem startsWith_cons_eq_false {c d : Char} {piece cs : Text} (h : c ≠ d) :
    startsWith (d :: piece) (c :: cs) = false := by
  simp [startsWith, List.isPrefixOf, h.symm]

theorem takeWhile_dropWhile_append {q : Char → Bool} {word rest : Text}
    (hword : ∀ c ∈ word, q c = true) (hrest : rest.head?.any q = false) :
    (word ++ rest).takeWhile q = word ∧ (word ++ rest).dropWhile q = rest := by
  rw [List.takeWhile_append_of_pos hword, List.dropWhile_append_of_pos hword]
  cases rest with
  | nil => simp
  | cons c rest =>
    have hc : q c = false := by simpa using hrest
    simp [hc]

/-! ### The pass makes the turn -/

/-- The step at a name. -/
theorem step_name {c : Char} {name rest : Text} (hends : p.endsName = false)
    (hc : isNameStart c = true) (hname : ∀ d ∈ name, isNameChar d = true)
    (hrest : rest.head?.any isNameChar = false) :
    step b convert p c (name ++ rest) =
      if callFollows rest && c :: name == "fn".toList then
        (p, (c :: name).length + (rest.takeWhile isBlank).length - 1)
      else if callFollows rest && isRouted b (c :: name) p.before then
        (p.token (Callee.qualify (c :: name)) (.word (c :: name)), name.length)
      else (p.token (c :: name) (.word (c :: name)), name.length) := by
  have hchar := isNameChar_of_isNameStart hc
  have hsigil : (c == '$') = false := beq_false_of_ne (by rintro rfl; cases hc)
  obtain ⟨htake, hdrop⟩ := takeWhile_dropWhile_append
    (List.forall_mem_cons.mpr ⟨hchar, hname⟩) hrest
  rw [List.cons_append] at htake hdrop
  rw [step_of_isNameChar hchar]
  simp only [hsigil, hends, hc, Bool.false_and, Bool.false_eq_true, if_false, if_true, nameStep,
    htake, hdrop]
  rfl

theorem step_sign {c : Char} {rest : Text} (hc : isSign c = true)
    (hsigil : c = '$' → p.endsName = false ∧ rest.head?.any isNameStart = false)
    (harrows : ∀ arrow ∈ ["->", "?->", "?.", "::"],
      startsWith arrow.toList (c :: rest) = false) :
    step b convert p c rest = (p.token [c] (.sign c), 0) := by
  simp only [isSign, Bool.not_eq_true', Bool.or_eq_false_iff, beq_eq_false_iff_ne] at hc
  obtain ⟨⟨⟨⟨⟨⟨hslash, hquote⟩, hstart⟩, hdigit⟩, hdot⟩, hbracket⟩, hblank⟩ := hc
  cases hchar : isNameChar c with
  | true =>
    obtain rfl := eq_dollar hchar hstart hdigit
    rw [step_of_isNameChar hchar]
    simp [hsigil rfl, hstart, hdigit]
  | false =>
    rw [step_of_not_isNameChar hslash hquote hchar]
    simp only [harrows "->" (by simp), harrows "?->" (by simp), harrows "?." (by simp),
      harrows "::" (by simp), hdot, hbracket, hblank, beq_iff_eq, Bool.false_eq_true, if_false]

theorem step_blank {c : Char} (hc : isBlank c = true) (rest : Text) :
    step b convert p c rest = (p.write [c], 0) := by
  have hne : ∀ d, isBlank d = false → c ≠ d := by
    rintro d hd rfl
    simp [hc] at hd
  have hquote := isQuote_eq_false_of_isPlainCode (isPlainCode_of_isBlank hc)
  rw [step_of_not_isNameChar (hne _ rfl) hquote (isNameChar_eq_false_of_isBlank hc)]
  simp [startsWith_cons_eq_false, hne '-' rfl, hne '?' rfl, hne ':' rfl, hne '.' rfl, hne '[' rfl,
    hc]

/-- **The pass makes a turn where one is possible.** -/
theorem Turn.run {read rest : Text} {p' : Pass} (h : Turn b convert p read rest p') :
    run b convert p 0 (read ++ rest) =
      Expression.run b convert { p' with last := read.getLast? } 0 rest := by
  cases h with
  | @escape c => exact @run_step b convert p '\\' [c] rest _ rfl
  | escapeEnd => rfl
  | @quoted quote inside _ hquote hinside =>
    have hslash : quote ≠ '\\' := by
      rintro rfl
      cases hquote
    refine run_step ?_
    simp [step, hslash, hquote, hinside]
  | @sigil c name _ hends hc hname hrest =>
    refine @run_step b convert p '$' (c :: name) rest _ ?_
    rw [step_of_isNameChar rfl]
    simp [hc, hends, isNameChar_of_isNameStart hc, (takeWhile_dropWhile_append hname hrest).1]
  | @nameTail c _ hends hc =>
    refine @run_step b convert p c [] rest _ ?_
    rw [step_of_isNameChar hc]
    simp [hends]
  | @parameters blanks rest hends hblanks =>
    refine @run_step b convert p 'f' ('n' :: blanks) ('(' :: rest) _ ?_
    have hhead : (blanks ++ '(' :: rest).head?.any isNameChar = false := by
      cases blanks with
      | nil => rfl
      | cons c blanks => exact isNameChar_eq_false_of_isBlank (hblanks c List.mem_cons_self)
    obtain ⟨htake, hdrop⟩ := @takeWhile_dropWhile_append _ _ ('(' :: rest) hblanks rfl
    have hstep := @step_name b convert p 'f' ['n'] _ hends rfl (by simp; decide) hhead
    rw [callFollows, Text.trimStart, hdrop, htake, Nat.add_comm] at hstep
    exact hstep
  | routed hends hc hname hrest hcall hfn hrouted =>
    refine run_step ?_
    rw [step_name hends hc hname hrest]
    simp only [hcall, beq_false_of_ne hfn, hrouted, Bool.and_false, Bool.and_self,
      Bool.false_eq_true, if_false, if_true]
  | word hends hc hname hrest hcall =>
    refine run_step ?_
    rw [step_name hends hc hname hrest]
    cases hfollows : callFollows _ with
    | true =>
      obtain ⟨hfn, hrouted⟩ := hcall hfollows
      simp only [beq_false_of_ne hfn, hrouted, Bool.and_false, Bool.false_eq_true, if_false]
    | false => rfl
  | @number c digits _ hends hc hnumber =>
    refine run_step ?_
    have hsigil : (c == '$') = false := beq_false_of_ne (by rintro rfl; cases hc)
    rw [step_of_isNameChar (isNameChar_of_isDigit hc)]
    simp [hends, hsigil, isNameStart_eq_false_of_isDigit hc, hc, hnumber]
  | arrow => exact @run_step b convert p '-' ['>'] rest _ rfl
  | optionalArrow => exact @run_step b convert p '?' ['-', '>'] rest _ rfl
  | optional => exact @run_step b convert p '?' ['.'] rest _ rfl
  | static => exact @run_step b convert p ':' [':'] rest _ rfl
  | spread => exact @run_step b convert p '.' ['.', '.'] rest _ rfl
  | append => exact @run_step b convert p '.' ['='] rest _ rfl
  | @concatenation blanks _ hblanks hrest hspread happend hconcat =>
    refine run_step ?_
    have hstep : step b convert p '.' (blanks ++ rest) = dotStep p (blanks ++ rest) := rfl
    rw [hstep, dotStep, (takeWhile_dropWhile_append hblanks hrest).1]
    simp only [hspread, beq_false_of_ne happend, hconcat, Bool.false_eq_true, if_false, if_true]
  | dot hspread happend hconcat =>
    refine @run_step b convert p '.' [] rest _ ?_
    have hstep : step b convert p '.' ([] ++ rest) = dotStep p rest := rfl
    rw [hstep, dotStep]
    simp only [hspread, beq_false_of_ne happend, hconcat, Bool.false_eq_true, if_false]
    rfl
  | @group inner _ hread =>
    refine @run_step b convert p '[' (inner ++ [']']) rest _ ?_
    have hstep : step b convert p '[' (inner ++ ']' :: rest) =
        bracketStep convert p ('[' :: (inner ++ ']' :: rest)) := rfl
    rw [List.append_assoc, List.singleton_append, hstep, bracketStep, hread, List.length_append]
    rfl
  | bracket hread =>
    refine @run_step b convert p '[' [] rest _ ?_
    have hstep : step b convert p '[' ([] ++ rest) = bracketStep convert p ('[' :: rest) := rfl
    rw [hstep, bracketStep, hread]
    rfl
  | @blank c _ hc => exact @run_step b convert p c [] rest _ (step_blank hc rest)
  | @sign c _ hc hsigil harrows =>
    exact @run_step b convert p c [] rest _ (step_sign hc hsigil harrows)

/-! ### A turn at every text -/

theorem exists_span (q : Char → Bool) (t : Text) :
    ∃ word rest, t = word ++ rest ∧ (∀ c ∈ word, q c = true) ∧ rest.head?.any q = false :=
  ⟨t.takeWhile q, t.dropWhile q, List.takeWhile_append_dropWhile.symm,
    List.all_eq_true.mp List.all_takeWhile, Text.head?_dropWhile q t⟩

theorem quotedRest_prefix (quote : Char) (t : Text) : quotedRest quote t <+: t := by
  fun_induction quotedRest quote t with
  | case1 => exact List.prefix_rfl
  | case2 => exact List.prefix_rfl
  | case3 c _ d ds ih => exact (List.prefix_cons_inj _).mpr ((List.prefix_cons_inj _).mpr ih)
  | case4 c cs => exact (List.prefix_cons_inj _).mpr (List.nil_prefix)
  | case5 c cs _ _ ih => exact (List.prefix_cons_inj _).mpr ih

/-- The pass can make a turn at the front of a text. -/
def HasTurn (b : Bindings) (convert : Text → Text) (p : Pass) (t : Text) : Prop :=
  ∃ read rest p', t = read ++ rest ∧ Turn b convert p read rest p'

theorem hasTurn_name (hends : p.endsName = false) {c : Char} (hc : isNameStart c = true)
    (cs : Text) : HasTurn b convert p (c :: cs) := by
  obtain ⟨name, rest, rfl, hname, hrest⟩ := exists_span isNameChar cs
  cases hcall : callFollows rest with
  | false =>
    refine ⟨c :: name, rest, _, rfl, .word hends hc hname hrest fun hfollows => ?_⟩
    cases hcall.symm.trans hfollows
  | true =>
  by_cases hfn : c :: name = "fn".toList
  · obtain ⟨rfl, rfl⟩ : c = 'f' ∧ name = ['n'] := List.cons.inj hfn
    obtain ⟨blanks, more, rfl, hblanks, hmore⟩ := exists_span isBlank rest
    obtain ⟨after, rfl⟩ : ∃ after, more = '(' :: after := by
      rw [callFollows, Text.trimStart, (takeWhile_dropWhile_append hblanks hmore).2, beq_iff_eq] at hcall
      exact List.head?_eq_some_iff.mp hcall
    exact ⟨_, _, _, rfl, .parameters hends hblanks⟩
  cases hrouted : isRouted b (c :: name) p.before with
  | true => exact ⟨c :: name, rest, _, rfl, .routed hends hc hname hrest hcall hfn hrouted⟩
  | false => exact ⟨c :: name, rest, _, rfl, .word hends hc hname hrest fun _ => ⟨hfn, hrouted⟩⟩

/-- At a character of a name. -/
theorem hasTurn_of_isNameChar {c : Char} (hc : isNameChar c = true) (cs : Text) :
    HasTurn b convert p (c :: cs) := by
  cases hends : p.endsName with
  | true => exact ⟨[c], cs, _, rfl, .nameTail hends hc⟩
  | false =>
  cases hstart : isNameStart c with
  | true => exact hasTurn_name hends hstart cs
  | false =>
  cases hdigit : c.isDigit with
  | true =>
    have hnumber : number (c :: cs) = c :: number cs := by simp [number, Char.isAlphanum, hdigit]
    obtain ⟨rest, hrest, -⟩ := number_prefix cs
    generalize number cs = digits at hrest hnumber
    subst hrest
    exact ⟨c :: digits, rest, _, rfl, .number hends hdigit hnumber⟩
  | false =>
    obtain rfl := eq_dollar hc hstart hdigit
    cases hnext : cs.head?.any isNameStart with
    | true =>
      obtain ⟨d, ds, rfl⟩ : ∃ d ds, cs = d :: ds := by cases cs <;> simp_all
      obtain ⟨name, rest, rfl, hname, hrest⟩ := exists_span isNameChar ds
      exact ⟨'$' :: d :: name, rest, _, rfl, .sigil hends hnext hname hrest⟩
    | false =>
      refine ⟨['$'], cs, _, rfl, .sign rfl (fun _ => ⟨hends, hnext⟩) ?_⟩
      simp [startsWith_cons_eq_false]

theorem hasTurn_dot (cs : Text) : HasTurn b convert p ('.' :: cs) := by
  cases hspread : startsWith ".." cs with
  | true =>
    obtain ⟨rest, rfl⟩ := List.isPrefixOf_iff_prefix.mp hspread
    exact ⟨_, _, _, rfl, .spread⟩
  | false =>
  by_cases happend : cs.head? = some '='
  · obtain ⟨rest, rfl⟩ := List.head?_eq_some_iff.mp happend
    exact ⟨".=", rest, _, rfl, .append⟩
  cases hconcat : concatenates p.last cs with
  | true =>
    obtain ⟨blanks, rest, rfl, hblanks, hrest⟩ := exists_span isBlank cs
    exact ⟨_, _, _, rfl, .concatenation hblanks hrest hspread happend hconcat⟩
  | false => exact ⟨['.'], cs, _, rfl, .dot hspread happend hconcat⟩

theorem hasTurn_bracket (cs : Text) : HasTurn b convert p ('[' :: cs) := by
  cases hread : Group.read? ('[' :: cs) with
  | none => exact ⟨['['], cs, _, rfl, .bracket hread⟩
  | some found =>
    obtain ⟨inner, rest⟩ := found
    obtain rfl : cs = inner ++ ']' :: rest := Group.inside?_eq_some hread
    exact ⟨'[' :: (inner ++ [']']), rest, _, by simp, .group hread⟩

/-- At a character that belongs to no name, after the escapes and the literals. -/
theorem hasTurn_of_not_isNameChar {c : Char} (hslash : c ≠ '\\') (hquote : isQuote c = false)
    (hc : isNameChar c = false) (cs : Text) : HasTurn b convert p (c :: cs) := by
  by_cases harrows : ∃ arrow ∈ ["->", "?->", "?.", "::"],
      startsWith arrow.toList (c :: cs) = true
  · obtain ⟨arrow, hmem, hstarts⟩ := harrows
    obtain ⟨rest, hrest⟩ := List.isPrefixOf_iff_prefix.mp hstarts
    rw [← hrest]
    simp only [List.mem_cons, List.not_mem_nil, or_false] at hmem
    rcases hmem with rfl | rfl | rfl | rfl
    · exact ⟨_, rest, _, rfl, .arrow⟩
    · exact ⟨_, rest, _, rfl, .optionalArrow⟩
    · exact ⟨_, rest, _, rfl, .optional⟩
    · exact ⟨_, rest, _, rfl, .static⟩
  by_cases hdot : c = '.'
  · exact hdot ▸ hasTurn_dot cs
  by_cases hbracket : c = '['
  · exact hbracket ▸ hasTurn_bracket cs
  cases hblank : isBlank c with
  | true => exact ⟨[c], cs, _, rfl, .blank hblank⟩
  | false =>
    refine ⟨[c], cs, _, rfl, .sign ?_ ?_ ?_⟩
    · simp [isSign, hslash, hquote, isNameStart_eq_false hc, isDigit_eq_false hc, hdot, hbracket,
        hblank]
    · rintro rfl
      cases hc
    · exact fun arrow hmem => Bool.not_eq_true _ ▸ fun h => harrows ⟨arrow, hmem, h⟩

/-- **The pass can make a turn at every text.** -/
theorem exists_turn (b : Bindings) (convert : Text → Text) (p : Pass) (c : Char) (cs : Text) :
    HasTurn b convert p (c :: cs) := by
  by_cases hslash : c = '\\'
  · subst hslash
    cases cs with
    | nil => exact ⟨_, [], _, rfl, .escapeEnd⟩
    | cons d ds => exact ⟨['\\', d], ds, _, rfl, .escape⟩
  cases hquote : isQuote c with
  | true =>
    obtain ⟨rest, hrest⟩ := quotedRest_prefix c cs
    have hinside : quotedRest c (quotedRest c cs ++ rest) = quotedRest c cs := by rw [hrest]
    rw [← hrest]
    exact ⟨_, rest, _, rfl, .quoted hquote hinside⟩
  | false =>
  cases hc : isNameChar c with
  | true => exact hasTurn_of_isNameChar hc cs
  | false => exact hasTurn_of_not_isNameChar hslash hquote hc cs

/-- What holds of a pass turn by turn holds of its output. -/
theorem run_induction {motive : Pass → Text → Text → Prop}
    (nil : ∀ p, motive p [] p.written.reverse)
    (turn : ∀ {p p' : Pass} {read rest out : Text} (last : Option Char),
      Turn b convert p read rest p' → motive { p' with last := last } rest out →
      motive p (read ++ rest) out) (p : Pass) (t : Text) :
    motive p t (run b convert p 0 t) := by
  induction hlength : t.length using Nat.strongRecOn generalizing p t with
  | ind length ih =>
    cases t with
    | nil => exact nil p
    | cons c cs =>
      obtain ⟨read, rest, p', heq, hturn⟩ := exists_turn b convert p c cs
      have hread : 0 < read.length := by cases hturn <;> exact Nat.succ_pos _
      rw [heq, hturn.run]
      rw [heq, List.length_append] at hlength
      exact turn _ hturn (ih _ (by omega) _ _ rfl)

end Expression
end BladeView
