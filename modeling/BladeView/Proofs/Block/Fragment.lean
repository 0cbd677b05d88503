import BladeView.Proofs.Block.Argument
import BladeView.Proofs.Block.Discipline
import BladeView.Proofs.Script.Interpolation

/-!
# What fragments open and close

The first line of a block opens an interpolation and leaves some delimiters open inside it; the
last lines close them again. `FrameKind.inside` lists them for each kind of block. Here it is shown
that the fragments do just that, for all flat arguments, so that a block is a complete interpolation
whenever its body is complete template text.
-/
namespace BladeView

variable {output attributes : Text} {stack' outer : List Context} {part : Part}

namespace Nesting

/-- Code that takes one stack of open delimiters to another, within an interpolation. -/
def Reads (stack : List Context) (t : Text) (stack' : List Context) : Prop :=
  read? .code stack t = some stack'

namespace Reads

variable {stack stack₁ stack₂ : List Context} {t u : Text}

theorem append (ht : Reads stack t stack₁) (hu : Reads stack₁ u stack₂) :
    Reads stack (t ++ u) stack₂ := by
  rw [Reads, read?_append, ht]
  exact hu

theorem flat (hin : InCode .code stack) (ht : IsFlat t) : Reads stack t stack := by
  have h := read?_flat_append hin ht []
  rwa [List.append_nil] at h

end Reads

/-- Code that can stand anywhere in code: it closes what it opens. -/
def IsNeutral (t : Text) : Prop := ∀ stack, InCode .code stack → Reads stack t stack

namespace IsNeutral

variable {t u : Text}

theorem flat (ht : IsFlat t) : IsNeutral t := fun _ hin => .flat hin ht

theorem append (ht : IsNeutral t) (hu : IsNeutral u) : IsNeutral (t ++ u) :=
  fun stack hin => (ht stack hin).append (hu stack hin)

theorem group {opening closing : Char} (hgroup : Group.closer? opening = some closing)
    (ht : IsNeutral t) : IsNeutral (opening :: (t ++ [closing])) := by
  intro stack hin
  have hopen : Reads stack [opening] (.group opening :: stack) :=
    read?_group hin (by simp [hgroup]) []
  have hclose : Reads (.group opening :: stack) [closing] stack := read?_group_end hgroup []
  exact hopen.append ((ht _ (.inr ⟨_, stack, rfl, rfl⟩)).append hclose)

/-- A call: a path with an opening parenthesis, the arguments, and the closing one. -/
theorem call (ht : IsNeutral t) (path : Text) (hpath : path.all isPlainCode = true) :
    IsNeutral (path ++ ['('] ++ t ++ [')']) := by
  have hpath := (flat (.of_plain (List.all_eq_true.mp hpath))).append (@group t '(' ')' rfl ht)
  simpa using hpath

end IsNeutral

/-- A complete interpolation is complete template text. -/
theorem read?_interpolated {stack : List Context} {code : Text} (hin : InText part stack)
    (hcode : Reads [] code []) (u : Text) :
    read? part stack ('$' :: '\x7b' :: (code ++ '\x7d' :: u)) = read? part stack u := by
  rw [read?_interpolation hin, read?_append]
  have hread : read? part (.interpolation :: stack) code = some (.interpolation :: stack) :=
    read?_append_piece (.of_isCode rfl) hcode
  rw [hread]
  rfl

/-! ## Blank lines

A loop leaves out the blank lines of its body. That changes nothing, since a blank opens and closes
nothing, wherever it stands. -/

theorem Step.eq_of_isBlank {stack : List Context} {c : Char} (h : Step part stack c stack')
    (hproper : IsProper stack) (hc : isBlank c = true) :
    stack' = stack := by
  cases h with
  | quiet | plain | string => rfl
  | dollar | interpolation | interpolation_end | backtick | backtick_end => cases hc
  | group _ hopening =>
    obtain ⟨closing, hclosing⟩ := Option.isSome_iff_exists.mp hopening
    rcases Group.closer?_eq_some.mp hclosing with ⟨rfl, -⟩ | ⟨rfl, -⟩ | ⟨rfl, -⟩ <;> cases hc
  | group_end hclosing =>
    rcases Group.closer?_eq_some.mp hclosing with ⟨-, rfl⟩ | ⟨-, rfl⟩ | ⟨-, rfl⟩ <;> cases hc
  | quote _ hquote => rcases hquote with rfl | rfl <;> cases hc
  | quote_end => rcases hproper.2 _ rfl with rfl | rfl <;> cases hc

theorem read?_blank {stack : List Context} {t : Text} (hproper : IsProper stack)
    (ht : ∀ c ∈ t, isBlank c = true) (h : read? part stack t = some stack') : stack' = stack := by
  induction t generalizing stack with
  | nil => exact (Option.some.inj h).symm
  | cons c t ih =>
    obtain ⟨next, hstep, hrest⟩ := Option.bind_eq_some_iff.mp h
    have hnext := (step_of_step? hstep).eq_of_isBlank hproper (ht c (by simp))
    subst hnext
    exact ih hproper (fun d hd => ht d (by simp [hd])) hrest

theorem IsProper.read {stack : List Context} {t : Text} (hproper : IsProper stack)
    (h : read? part stack t = some stack') : IsProper stack' := by
  induction t generalizing stack with
  | nil =>
    cases h
    exact hproper
  | cons c t ih =>
    obtain ⟨next, hstep, hrest⟩ := Option.bind_eq_some_iff.mp h
    exact ih (hproper.step (step_of_step? hstep)) hrest

/-- Blank lines may be left out of accepted lines. -/
theorem read?_filter_blank {stack : List Context} {lines : List Text} (hproper : IsProper stack)
    (h : read? part stack (Text.closedLines lines) = some stack') :
    read? part stack
      (Text.closedLines (lines.filter fun line => !Text.isEmptyOrBlank line)) = some stack' := by
  induction lines generalizing stack with
  | nil => exact h
  | cons line lines ih =>
    have hsplit : Text.closedLines (line :: lines)
        = (line ++ ['\n']) ++ Text.closedLines lines := by simp
    rw [hsplit, read?_append] at h
    obtain ⟨next, hline, hrest⟩ := Option.bind_eq_some_iff.mp h
    have hnext := ih (hproper.read hline) hrest
    cases hblank : Text.isEmptyOrBlank line with
    | true =>
      have hall : ∀ c ∈ line ++ ['\n'], isBlank c = true := by
        intro c hc
        rcases List.mem_append.mp hc with hc | hc
        · exact List.all_eq_true.mp hblank c hc
        · rw [List.mem_singleton.mp hc]
          rfl
      have hsame := read?_blank hproper hall hline
      subst hsame
      simpa [hblank] using hnext
    | false =>
      rw [List.filter_cons_of_pos (by simp [hblank]), Text.closedLines_cons,
        ← List.singleton_append, ← List.append_assoc, read?_append, hline]
      exact hnext

end Nesting

open Nesting

/-! ## Delimiters of a block -/

/-- The delimiters that are open inside a block, within its interpolation, the innermost first.
A wrapper element opens none: its two lines are interpolations of their own. -/
def FrameKind.inside : FrameKind → List Context
  | conditional | empty | isset | guard _ | case | default =>
    [.literal, .group '\x7b', .group '\x7b', .group '(']
  | .for | .while | switch => [.group '\x7b', .group '\x7b', .group '(']
  | foreach | .section | block | follow => [.literal, .group '(']
  | php => [.group '\x7b', .group '(']
  | register | wrapper => []

/-- The delimiters that are open around the body in a complete block. The body of a loop that
collects its output is put into a literal when the loop closes. -/
def FrameKind.around (kind : FrameKind) : List Context :=
  if kind.accumulates then .literal :: kind.inside else kind.inside

namespace Fragment

/-- A line that opens an interpolation and leaves some delimiters open in it. -/
def Opens (line : Text) (stack : List Context) : Prop :=
  ∃ code, line = '$' :: '\x7b' :: code ∧ Reads [] code stack

variable {arg : Text}

/-- Neutral code is read past wherever code stands. -/
theorem reads_neutral {inner : Context} (hinner : inner.isCode = true) (harg : IsNeutral arg) :
    Reads (inner :: outer) arg (inner :: outer) :=
  harg _ (.inr ⟨inner, outer, rfl, hinner⟩)

theorem isNeutral_comma : IsNeutral ", " := .flat rfl

/-- A line with one argument. -/
theorem opens_around {first last : Text} {inner : Context} {stack : List Context}
    (hfirst : Reads [] first (inner :: outer)) (hinner : inner.isCode = true) (harg : IsNeutral arg)
    (hlast : Reads (inner :: outer) last stack) :
    Opens ('$' :: '\x7b' :: (first ++ arg ++ last)) stack :=
  ⟨_, rfl, (hfirst.append (reads_neutral hinner harg)).append hlast⟩

theorem opens_openConditional (harg : IsNeutral arg) :
    Opens (openConditional arg) FrameKind.conditional.inside := by
  have hfirst : Reads [] "App.View.execute(() => \x7b if("
      [.group '(', .group '\x7b', .group '('] := rfl
  exact opens_around hfirst rfl harg rfl

theorem opens_openSwitch (harg : IsNeutral arg) :
    Opens (openSwitch arg) FrameKind.switch.inside := by
  have hfirst : Reads [] "App.View.execute(() => \x7b\nlet __switchOutputContent__ = '';\nswitch("
      [.group '(', .group '\x7b', .group '('] := rfl
  exact opens_around hfirst rfl harg rfl

theorem opens_openLoop {keyword : Text} (houtput : IsNeutral output)
    (hkeyword : IsNeutral keyword) (harg : IsNeutral arg) :
    Opens (openLoop output keyword arg) FrameKind.for.inside := by
  refine ⟨"App.View.execute(() => \x7b\nlet " ++ output ++ " = ``;\n" ++ keyword ++ "(" ++ arg
    ++ ") \x7b", rfl, ?_⟩
  have hfirst : Reads [] "App.View.execute(() => \x7b\nlet " [.group '\x7b', .group '('] := rfl
  have hliteral : Reads [.group '\x7b', .group '('] " = ``;\n" [.group '\x7b', .group '('] := rfl
  have hheader : Reads [.group '\x7b', .group '('] "("
      [.group '(', .group '\x7b', .group '('] := rfl
  exact (((((hfirst.append (reads_neutral rfl houtput)).append hliteral).append
    (reads_neutral rfl hkeyword)).append hheader).append (reads_neutral rfl harg)).append rfl

theorem opens_openForeach {subject value key : Text} (hsubject : IsNeutral subject)
    (hvalue : IsNeutral value) (hkey : IsNeutral key) :
    Opens (openForeach subject value key) FrameKind.foreach.inside := by
  refine ⟨"App.View.foreach(" ++ subject ++ ", (" ++ value ++ ", " ++ key
    ++ ", __loopIndex, loop) => `", rfl, ?_⟩
  have hfirst : Reads [] "App.View.foreach(" [.group '('] := rfl
  have hnames : Reads [.group '('] ", (" [.group '(', .group '('] := rfl
  exact (((((hfirst.append (reads_neutral rfl hsubject)).append hnames).append
    (reads_neutral rfl hvalue)).append (reads_neutral rfl isNeutral_comma)).append
    (reads_neutral rfl hkey)).append rfl

theorem opens_openSection (harg : IsNeutral arg) :
    Opens (openSection arg) FrameKind.section.inside := by
  have hfirst : Reads [] "App.View.section(" [.group '('] := rfl
  exact opens_around hfirst rfl harg rfl

theorem opens_openBlock (harg : IsNeutral arg) (hattributes : IsNeutral attributes) :
    Opens (openBlock arg attributes) FrameKind.block.inside := by
  refine ⟨"this.__block(" ++ arg ++ ", " ++ attributes ++ ", () => `", rfl, ?_⟩
  have hfirst : Reads [] "this.__block(" [.group '('] := rfl
  exact (((hfirst.append (reads_neutral rfl harg)).append
    (reads_neutral rfl isNeutral_comma)).append (reads_neutral rfl hattributes)).append rfl

theorem isNeutral_join {keys : List Text} (hkeys : ∀ key ∈ keys, IsNeutral key) :
    IsNeutral (Text.join ", " keys) :=
  Text.join_induction (.flat .nil) (fun _ _ => .append) isNeutral_comma hkeys

theorem opens_openFollow {keys : List Text} (hkeys : ∀ key ∈ keys, IsNeutral key) :
    Opens (openFollow keys) FrameKind.follow.inside := by
  have hfirst : Reads [] "this.__follow([" [.group '[', .group '('] := rfl
  exact opens_around hfirst rfl (isNeutral_join hkeys) rfl

theorem opens_openCode : Opens openCode FrameKind.php.inside :=
  ⟨"App.View.execute(() => \x7b", rfl, rfl⟩

/-! ### Conditions -/

theorem isNeutral_isSet (harg : IsNeutral arg) : IsNeutral (isSet arg) :=
  harg.call "App.View.isSet" (by decide)

theorem isNeutral_isEmpty (harg : IsNeutral arg) : IsNeutral (isEmpty arg) :=
  harg.call "App.View.isEmpty" (by decide)

theorem isNeutral_guard (g : Guard) (harg : IsNeutral arg) : IsNeutral (guard g arg) := by
  cases g with
  | auth => exact harg.call "App.View.isAuth" (by decide)
  | guest => exact harg.call "!App.View.isAuth" (by decide)
  | can => exact harg.call "App.View.can" (by decide)
  | cannot => exact harg.call "App.View.cannot" (by decide)
  | error => exact harg.call "App.View.hasError" (by decide)
  | hasSection => exact harg.call "App.View.hasSection" (by decide)
  | negated => exact harg.call "!" (by decide)

/-- The empty object. -/
theorem isNeutral_braces : IsNeutral "\x7b\x7d" := by
  intro stack hin
  exact (read?_group hin rfl _).trans (read?_group_end rfl [])

/-! ## Complete blocks -/

/-- A text that closes the delimiters of a stack and then the interpolation. -/
def Closes (last : Text) (stack : List Context) : Prop :=
  ∃ code, last = code ++ ['\x7d'] ∧ Reads stack code []

/-- What opens an interpolation, goes on in it, and closes it, is complete template text. -/
theorem read?_complete {line body last : Text} {stack : List Context} (hline : Opens line stack)
    (hbody : Reads stack body stack') (hlast : Closes last stack') (hin : InText part outer)
    (u : Text) :
    read? part outer (line ++ (body ++ (last ++ u))) = read? part outer u := by
  obtain ⟨first, rfl, hfirst⟩ := hline
  obtain ⟨code, rfl, hcode⟩ := hlast
  have hread := read?_interpolated hin ((hfirst.append hbody).append hcode) u
  simpa using hread

/-- The first line of a wrapper element is a complete interpolation. -/
theorem read?_openWrapper (harg : IsNeutral arg) (hattributes : IsNeutral attributes)
    {stack : List Context} (hin : InText part stack) (u : Text) :
    read? part stack (openWrapper arg attributes ++ u) = read? part stack u := by
  have hline : Opens "$\x7bApp.View.startWrapper(" [.group '('] :=
    ⟨"App.View.startWrapper(", rfl, rfl⟩
  have hlast : Closes ", __VIEW_ID__)\x7d" [.group '('] := ⟨", __VIEW_ID__)", rfl, rfl⟩
  have hbody : Reads [.group '('] (arg ++ ", " ++ attributes) [.group '('] :=
    ((reads_neutral rfl harg).append (reads_neutral rfl isNeutral_comma)).append
      (reads_neutral rfl hattributes)
  have hgroup : ∀ a b c d e : Text,
      a ++ b ++ c ++ d ++ e ++ u = a ++ (b ++ c ++ d ++ (e ++ u)) := by
    simp
  exact (congrArg (read? part stack)
    (hgroup "$\x7bApp.View.startWrapper(" arg ", " attributes ", __VIEW_ID__)\x7d")).trans
      (read?_complete hline hbody hlast hin u)

theorem read?_closeWrapper {stack : List Context} (hin : InText part stack) (u : Text) :
    read? part stack (closeWrapper ++ u) = read? part stack u := by
  have hcode : Reads [] "App.View.endWrapper(__VIEW_ID__)" [] := rfl
  exact read?_interpolated hin hcode u

theorem closes_closeConditional :
    Closes "`; \x7d\nreturn '';\n\x7d)\x7d" FrameKind.conditional.inside :=
  ⟨"`; \x7d\nreturn '';\n\x7d)", rfl, rfl⟩

theorem closes_closeBody : Closes closeBody FrameKind.foreach.inside := ⟨"`)", rfl, rfl⟩

theorem closes_closeSection : Closes closeSection FrameKind.section.inside :=
  ⟨"`, 'html')", rfl, rfl⟩

theorem closes_closeCode : Closes "    return '';\n\x7d)\x7d" FrameKind.php.inside :=
  ⟨"    return '';\n\x7d)", rfl, rfl⟩

theorem closes_closeSwitch : Closes closeSwitch FrameKind.switch.inside :=
  ⟨"\n\x7d\nreturn __switchOutputContent__;\n\x7d)", rfl, rfl⟩

theorem closes_closeLoop (houtput : IsNeutral output) :
    Closes (closeLoop output) FrameKind.for.inside := by
  refine ⟨"\x7d\nreturn " ++ output ++ ";\n\x7d)", ?_, ?_⟩
  · have hlast : (";\n\x7d)\x7d".toList : Text) = ";\n\x7d)".toList ++ ['\x7d'] := rfl
    exact (congrArg ("\x7d\nreturn " ++ output ++ ·) hlast).trans (List.append_assoc ..).symm
  · have hfirst : Reads FrameKind.for.inside "\x7d\nreturn " [.group '\x7b', .group '('] := rfl
    exact (hfirst.append (reads_neutral rfl houtput)).append rfl

end Fragment
end BladeView
