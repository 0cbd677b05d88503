import BladeView.Proofs.TopLevel.ClosedCode

/-!
# Expression trees

Template expressions as trees, and the two ways to write a tree down: in a template, and in a
script. The texts of a tree are closed, show no comma and no equals sign outside of their brackets,
and have no blanks around them.
-/
namespace BladeView.Expression

/-! ## Trees -/

/-- A name of ASCII letters, digits and underscores. -/
structure Identifier where
  first : Char
  more : Text
  first_isNameStart : isNameStart first = true
  more_isNameChar : ∀ c ∈ more, isNameChar c = true ∧ c ≠ '$'

def Identifier.text (name : Identifier) : Text := name.first :: name.more

/-- A name that can be called: the word of an arrow function cannot. -/
structure CalledName extends Identifier where
  ne_fn : toIdentifier.text ≠ "fn".toList

/-- An integer in decimal digits. -/
structure Digits where
  first : Char
  more : Text
  first_isDigit : first.isDigit = true
  more_isDigit : ∀ c ∈ more, c.isDigit = true

def Digits.text (n : Digits) : Text := n.first :: n.more

/-- The inside of a string that needs no escapes. -/
structure PlainString where
  inside : Text
  inside_ne : ∀ c ∈ inside, c ≠ '\x27' ∧ c ≠ '\x22' ∧ c ≠ '\\'

mutual

/-- What has members and can be indexed. -/
inductive Access where
  | var (name : Identifier)
  | call (name : CalledName) (args : List Tree)
  | member (object : Access) (name : Identifier)
  | method (object : Access) (name : CalledName) (args : List Tree)
  | index (object : Access) (key : Tree)

/-- An expression. -/
inductive Tree where
  | access (a : Access)
  | integer (n : Digits)
  | string (s : PlainString)
  | list (items : List Tree)
  | keyed (entries : Entries)
  | concat (left right : Tree)

/-- The entries of a keyed array, of which there is at least one. -/
inductive Entries where
  | last (key : PlainString) (value : Tree)
  | cons (key : PlainString) (value : Tree) (more : Entries)

end

/-! ## Texts -/

/-- How an expression is written: as in a template, or as in a script in which names are bound. -/
inductive Dialect where
  | template
  | script (bindings : Bindings)

namespace Dialect

/-- A variable: it has a sigil in templates. -/
def var : Dialect → Text → Text
  | template, name => '$' :: name
  | script _, name => name

def arrow : Dialect → Text
  | template => "->"
  | script _ => "."

def concatenation : Dialect → Text
  | template => " . "
  | script _ => " + "

def quote : Dialect → Char
  | template => '\x27'
  | script _ => '\x22'

/-- A string in the quotation marks of the dialect. -/
def string (d : Dialect) (inside : Text) : Text := d.quote :: (inside ++ [d.quote])

/-- The function that a plain call goes to. In a script it is named with the object that owns it,
unless it is a word or a global of the script language or a bound name. -/
def callee : Dialect → Text → Text
  | template, name => name
  | script b, name =>
    if Callee.isKeyword name || Callee.isGlobal name || b.has name then name
    else if Callee.isViewFunction name then "App.View." ++ name
    else "App.Helper." ++ name

/-- A key, given as a string, and its value. -/
def entry : Dialect → Text → Text → Text
  | template, key, value => key ++ " => " ++ value
  | script _, key, value => key ++ ": " ++ value

/-- The brackets of a keyed array. -/
def keyed : Dialect → Text → Text
  | template, inner => '[' :: (inner ++ [']'])
  | script _, inner => '\x7b' :: (inner ++ ['\x7d'])

end Dialect

/-- Arguments in parentheses. -/
def argumentList (args : List Text) : Text := '(' :: (Text.join ", " args ++ [')'])

mutual

def Access.text (d : Dialect) : Access → Text
  | .var name => d.var name.text
  | .call name args => d.callee name.text ++ argumentList (texts d args)
  | .member object name => object.text d ++ (d.arrow ++ name.text)
  | .method object name args => object.text d ++ (d.arrow ++ (name.text ++ argumentList (texts d args)))
  | .index object key => object.text d ++ '[' :: (key.text d ++ [']'])

def Tree.text (d : Dialect) : Tree → Text
  | .access a => a.text d
  | .integer n => n.text
  | .string s => d.string s.inside
  | .list items => '[' :: (Text.join ", " (texts d items) ++ [']'])
  | .keyed entries => d.keyed (Text.join ", " (entries.texts d))
  | .concat left right => left.text d ++ (d.concatenation ++ right.text d)

def texts (d : Dialect) : List Tree → List Text
  | [] => []
  | e :: es => e.text d :: texts d es

def Entries.texts (d : Dialect) : Entries → List Text
  | .last key value => [d.entry (d.string key.inside) (value.text d)]
  | .cons key value more => d.entry (d.string key.inside) (value.text d) :: more.texts d

end

/-! ## Blanks around texts -/

/-- There is something, and no blank stands at either end of it. -/
structure IsTrimmed (t : Text) : Prop where
  ne_nil : t ≠ []
  head : t.head?.any isBlank = false
  last : t.getLast?.any isBlank = false

namespace IsTrimmed

variable {t u : Text}

theorem trim (h : IsTrimmed t) : Text.trim t = t := Text.trim_eq_self_of_ends h.head h.last

/-- Only the ends matter. -/
theorem around (ht : IsTrimmed t) (hu : IsTrimmed u) (between : Text) :
    IsTrimmed (t ++ (between ++ u)) where
  ne_nil := by simp [ht.ne_nil]
  head := by
    obtain ⟨c, t, rfl⟩ := List.exists_cons_of_ne_nil ht.ne_nil
    exact ht.head
  last := by
    obtain ⟨c, hc⟩ := Option.ne_none_iff_exists'.1 (mt List.getLast?_eq_none_iff.1 hu.ne_nil)
    have hlast : (t ++ (between ++ u)).getLast? = u.getLast? := by
      simp [List.getLast?_append, hc]
    rw [hlast]
    exact hu.last

theorem append (ht : IsTrimmed t) (hu : IsTrimmed u) : IsTrimmed (t ++ u) := ht.around hu []

theorem singleton {c : Char} (hc : isBlank c = false) : IsTrimmed [c] :=
  ⟨List.cons_ne_nil c [], hc, hc⟩

theorem of_forall (hne : t ≠ []) (h : ∀ c ∈ t, isBlank c = false) : IsTrimmed t where
  ne_nil := hne
  head := by
    cases hhead : t.head? with
    | none => rfl
    | some c => exact h c (List.mem_of_head? hhead)
  last := by
    cases hlast : t.getLast? with
    | none => rfl
    | some c => exact h c (List.mem_of_getLast? hlast)

/-- Delimiters around anything. -/
theorem delimited {c d : Char} (hc : isBlank c = false) (hd : isBlank d = false) (inner : Text) :
    IsTrimmed (c :: (inner ++ [d])) := (singleton hc).around (singleton hd) inner

end IsTrimmed

theorem Identifier.isNameChar (name : Identifier) : ∀ c ∈ name.text, isNameChar c = true :=
  List.forall_mem_cons.2 ⟨isNameChar_of_isNameStart name.first_isNameStart,
    fun c hc => (name.more_isNameChar c hc).1⟩

theorem Identifier.isTrimmed (name : Identifier) : IsTrimmed name.text :=
  .of_forall (List.cons_ne_nil _ _) fun c hc => isBlank_eq_false_of_isNameChar (name.isNameChar c hc)

theorem Digits.isNameChar (n : Digits) : ∀ c ∈ n.text, isNameChar c = true :=
  List.forall_mem_cons.2 ⟨isNameChar_of_isDigit n.first_isDigit,
    fun c hc => isNameChar_of_isDigit (n.more_isDigit c hc)⟩

namespace Dialect

variable (d : Dialect)

theorem isTrimmed_string (inside : Text) : IsTrimmed (d.string inside) := by
  have hquote : isBlank d.quote = false := by
    cases d with
    | template => decide
    | script b => exact (by decide : isBlank '\x22' = false)
  exact .delimited hquote hquote inside

theorem isTrimmed_entry (key : Text) {value : Text} (h : IsTrimmed value) :
    IsTrimmed (d.entry (d.string key) value) := by
  cases d with
  | template =>
    have hentry := (isTrimmed_string .template key).around h " => "
    rwa [← List.append_assoc] at hentry
  | script b =>
    have hentry := (isTrimmed_string (.script b) key).around h ": "
    rwa [← List.append_assoc] at hentry

theorem isTrimmed_var (name : Identifier) : IsTrimmed (d.var name.text) := by
  cases d with
  | template => exact (IsTrimmed.singleton (by decide)).append name.isTrimmed
  | script b => exact name.isTrimmed

theorem isTrimmed_callee (name : Identifier) : IsTrimmed (d.callee name.text) := by
  cases d with
  | template => exact name.isTrimmed
  | script b =>
    rw [callee]
    split
    · exact name.isTrimmed
    · have hview : IsTrimmed "App.View." := .of_forall (by decide) (Text.forall_mem_of_all (by decide))
      have hhelper : IsTrimmed "App.Helper." :=
        .of_forall (by decide) (Text.forall_mem_of_all (by decide))
      split
      · exact hview.append name.isTrimmed
      · exact hhelper.append name.isTrimmed

end Dialect

theorem isTrimmed_argumentList (args : List Text) : IsTrimmed (argumentList args) :=
  .delimited (by decide) (by decide) _

theorem Access.isTrimmed (d : Dialect) : (a : Access) → IsTrimmed (a.text d)
  | .var name => by
    rw [Access.text]
    exact d.isTrimmed_var name
  | .call name args => by
    rw [Access.text]
    exact (d.isTrimmed_callee _).append (isTrimmed_argumentList _)
  | .member object name => by
    rw [Access.text]
    exact (object.isTrimmed d).around name.isTrimmed _
  | .method object name args => by
    rw [Access.text, ← List.append_assoc d.arrow]
    exact (object.isTrimmed d).around (isTrimmed_argumentList _) _
  | .index object key => by
    rw [Access.text]
    exact (object.isTrimmed d).append (.delimited (by decide) (by decide) _)

theorem Tree.isTrimmed (d : Dialect) : (e : Tree) → IsTrimmed (e.text d)
  | .access a => by
    rw [Tree.text]
    exact a.isTrimmed d
  | .integer n => by
    rw [Tree.text]
    exact .of_forall (List.cons_ne_nil _ _) fun c hc =>
      isBlank_eq_false_of_isNameChar (n.isNameChar c hc)
  | .string s => by
    rw [Tree.text]
    exact d.isTrimmed_string _
  | .list items => by
    rw [Tree.text]
    exact .delimited (by decide) (by decide) _
  | .keyed entries => by
    rw [Tree.text]
    cases d with
    | template => exact .delimited (by decide) (by decide) _
    | script b => exact .delimited (by decide) (by decide) _
  | .concat left right => by
    rw [Tree.text]
    exact (left.isTrimmed d).around (right.isTrimmed d) _

theorem Entries.isTrimmed (d : Dialect) : (entries : Entries) → ∀ t ∈ entries.texts d, IsTrimmed t
  | .last key value, t, ht => by
    rw [Entries.texts, List.mem_singleton] at ht
    rw [ht]
    exact d.isTrimmed_entry key.inside (value.isTrimmed d)
  | .cons key value more, t, ht => by
    rw [Entries.texts, List.mem_cons] at ht
    rcases ht with rfl | ht
    · exact d.isTrimmed_entry key.inside (value.isTrimmed d)
    · exact more.isTrimmed d t ht

/-! ## Closed texts -/

/-- The characters of an expression outside of its quotes and brackets: commas and arrows of keys
stand inside of them. -/
def isInner (c : Char) : Bool := c != ',' && c != '='

theorem closed_of_isNameChar {t : Text} (h : ∀ c ∈ t, isNameChar c = true) :
    ClosedCode isInner t := by
  refine .of_plain fun c hc => ⟨isPlainCode_of_isNameChar (h c hc), ?_⟩
  have hne : ∀ d, isNameChar d = false → c ≠ d := by
    rintro d hd rfl
    rw [h _ hc] at hd
    cases hd
  simp [isInner, hne ',' rfl, hne '=' rfl]

/-- Parts with commas between them. -/
theorem closed_join {parts : List Text} (h : ∀ part ∈ parts, ClosedCode (fun _ => true) part) :
    ClosedCode (fun _ => true) (Text.join ", " parts) :=
  Text.join_induction .nil (fun _ _ => .append) (.of_all (by decide)) h

theorem closed_bracket {ok : Char → Bool} {opening closing : Char}
    (hcloser : Group.closer? opening = some closing) {inner : Text}
    (hinner : ClosedCode (fun _ => true) inner) : ClosedCode ok (opening :: (inner ++ [closing])) :=
  .group hcloser hinner .nil

theorem closed_argumentList {args : List Text} (h : ∀ arg ∈ args, ClosedCode isInner arg) :
    ClosedCode isInner (argumentList args) :=
  closed_bracket rfl (closed_join fun arg harg => (h arg harg).mono fun _ _ => rfl)

namespace Dialect

variable (d : Dialect)

theorem closed_string {ok : Char → Bool} (s : PlainString) : ClosedCode ok (d.string s.inside) := by
  have hquote : isQuote d.quote = true := by
    cases d with
    | template => decide
    | script b => exact (by decide : isQuote '\x22' = true)
  refine .quoted hquote (fun c hc => ?_) .nil
  obtain ⟨hsingle, hdouble, hslash⟩ := s.inside_ne c hc
  cases d with
  | template => exact ⟨hsingle, hslash⟩
  | script b => exact ⟨hdouble, hslash⟩

theorem closed_var (name : Identifier) : ClosedCode isInner (d.var name.text) := by
  have hname := closed_of_isNameChar name.isNameChar
  cases d with
  | template => exact .plain (by decide) (by decide) hname
  | script b => exact hname

theorem closed_callee (name : Identifier) : ClosedCode isInner (d.callee name.text) := by
  have hname := closed_of_isNameChar name.isNameChar
  cases d with
  | template => exact hname
  | script b =>
    rw [callee]
    split
    · exact hname
    · split
      · exact (ClosedCode.of_all (by decide)).append hname
      · exact (ClosedCode.of_all (by decide)).append hname

theorem closed_arrow : ClosedCode isInner d.arrow := by
  cases d with
  | template => exact .of_all (by decide)
  | script b => exact ClosedCode.of_all (t := ".") (by decide)

theorem closed_concatenation : ClosedCode isInner d.concatenation := by
  cases d with
  | template => exact .of_all (by decide)
  | script b => exact ClosedCode.of_all (t := " + ") (by decide)

theorem closed_entry (key : PlainString) {value : Text} (h : ClosedCode isInner value) :
    ClosedCode (· != ',') (d.entry (d.string key.inside) value) := by
  have hkey : ClosedCode (· != ',') (d.string key.inside) := d.closed_string key
  have hvalue : ClosedCode (· != ',') value := h.mono fun c hc => (Bool.and_eq_true_iff.1 hc).1
  cases d with
  | template =>
    have harrow : ClosedCode (· != ',') " => " := .of_all (by decide)
    exact (hkey.append harrow).append hvalue
  | script b =>
    have hcolon : ClosedCode (· != ',') ": " := .of_all (by decide)
    exact (hkey.append hcolon).append hvalue

theorem closed_keyed {inner : Text} (h : ClosedCode (fun _ => true) inner) :
    ClosedCode isInner (d.keyed inner) := by
  cases d with
  | template => exact closed_bracket rfl h
  | script b => exact closed_bracket rfl h

end Dialect

mutual

theorem Access.closed (d : Dialect) : (a : Access) → ClosedCode isInner (a.text d)
  | .var name => by
    rw [Access.text]
    exact d.closed_var name
  | .call name args => by
    rw [Access.text]
    exact (d.closed_callee _).append (closed_argumentList (closed_texts d args))
  | .member object name => by
    rw [Access.text]
    exact (object.closed d).append
      (d.closed_arrow.append (closed_of_isNameChar name.isNameChar))
  | .method object name args => by
    rw [Access.text]
    exact (object.closed d).append (d.closed_arrow.append
      ((closed_of_isNameChar name.isNameChar).append
        (closed_argumentList (closed_texts d args))))
  | .index object key => by
    rw [Access.text]
    exact (object.closed d).append
      (closed_bracket rfl ((key.closed d).mono fun _ _ => rfl))

theorem Tree.closed (d : Dialect) : (e : Tree) → ClosedCode isInner (e.text d)
  | .access a => by
    rw [Tree.text]
    exact a.closed d
  | .integer n => by
    rw [Tree.text]
    exact closed_of_isNameChar n.isNameChar
  | .string s => by
    rw [Tree.text]
    exact d.closed_string s
  | .list items => by
    rw [Tree.text]
    exact closed_bracket rfl (closed_join fun part hpart =>
      (closed_texts d items part hpart).mono fun _ _ => rfl)
  | .keyed entries => by
    rw [Tree.text]
    exact d.closed_keyed (closed_join fun part hpart =>
      (entries.closed d part hpart).mono fun _ _ => rfl)
  | .concat left right => by
    rw [Tree.text]
    exact (left.closed d).append (d.closed_concatenation.append (right.closed d))

theorem closed_texts (d : Dialect) : (es : List Tree) → ∀ t ∈ texts d es, ClosedCode isInner t
  | [], t, ht => by
    rw [texts] at ht
    cases ht
  | e :: es, t, ht => by
    rw [texts, List.mem_cons] at ht
    rcases ht with rfl | ht
    · exact e.closed d
    · exact closed_texts d es t ht

theorem Entries.closed (d : Dialect) :
    (entries : Entries) → ∀ t ∈ entries.texts d, ClosedCode (· != ',') t
  | .last key value, t, ht => by
    rw [Entries.texts, List.mem_singleton] at ht
    rw [ht]
    exact d.closed_entry key (value.closed d)
  | .cons key value more, t, ht => by
    rw [Entries.texts, List.mem_cons] at ht
    rcases ht with rfl | ht
    · exact d.closed_entry key (value.closed d)
    · exact more.closed d t ht

end

end BladeView.Expression
