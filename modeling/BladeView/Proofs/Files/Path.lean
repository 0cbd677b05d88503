import Mathlib.Data.List.Basic
import Mathlib.Data.List.Induction
import Mathlib.Data.List.TakeWhile
import BladeView.Build.Batch
import BladeView.Build.Output
import BladeView.Proofs.Files.Tree

/-!
# The files of views and of their modules

A view that is found below a directory gets its name from the names of the directories on the way
and from the stem of its file. Its module is written below the output directory, under the words
between the dots of that name. Directories with dots in their names, or more dots in a file's name,
can lead two files to the same words.
-/
namespace BladeView

open Text (endsWith join_concat splitOn)
open List (append_assoc append_nil cons_append eq_nil_or_concat')

variable {name word last : Text} {names dirs : List Text} {p : Path}

namespace Path

/-- What can be the name of a file or directory. -/
structure IsName (name : Text) : Prop where
  ne_nil : name ≠ []
  no_slash : '/' ∉ name
  ne_here : name ≠ ['.']
  ne_up : name ≠ ['.', '.']

theorem IsName.step_eq (h : IsName name) : step name = .name name := by
  simp [step, h.ne_here, h.ne_up]

theorem IsName.component?_eq (h : IsName name) : component? name = some (.name name) := by
  simp [component?, h.ne_nil, h.ne_here, h.ne_up]

/-! ## Joined names -/

/-- The components of a path in a directory. -/
theorem components_join (dir : Path) (h : IsName name) :
    components (dir.join name) = components dir ++ [.name name] := by
  have hnil : '/' ∉ ([] : Text) := List.not_mem_nil
  have hhead (front last : Text) :
      (splitOn '/' front ++ [last]).head? = (splitOn '/' front).head? := by
    rw [List.head?_append, List.head?_eq_some_head (Text.splitOn_ne_nil '/' front), Option.some_or]
  have hnone : [([] : Text)].filterMap component? = [] := rfl
  have hname : [name].filterMap component? = [.name name] := by simp [h.component?_eq]
  refine read_join dir h.no_slash ?_ (fun dir hdir => ?_) fun front => ?_
  · have hempty : components [] = [] := rfl
    rw [hempty, List.nil_append]
    simp [components, not_isAbsolute h.no_slash, Text.splitOn_of_notMem h.no_slash, h.ne_here,
      h.component?_eq]
  · have habsolute : isAbsolute (dir ++ ['/']) = isAbsolute dir := by
      obtain ⟨c, rest, rfl⟩ := List.exists_cons_of_ne_nil hdir
      simp [isAbsolute, Text.startsWith, List.isPrefixOf]
    simp only [components, splitOn_name dir hnil, habsolute, hhead, List.filterMap_append, hnone,
      append_nil]
  · simp only [components, splitOn_name front h.no_slash, splitOn_name front hnil,
      isAbsolute_append front name, hhead, List.filterMap_append, hname, hnone, append_nil,
      append_assoc]

theorem components_foldl_join (dir : Path) (h : ∀ name ∈ names, IsName name) :
    components (names.foldl join dir) = components dir ++ names.map .name := by
  induction names generalizing dir with
  | nil => simp
  | cons name names ih =>
    rw [List.foldl_cons, ih _ fun n hn => h n (List.mem_cons_of_mem _ hn),
      components_join dir (h name List.mem_cons_self)]
    simp

/-- Words that can stand between slashes. -/
def AreWords (words : List Text) : Prop := ∀ word ∈ words, word ≠ [] ∧ '/' ∉ word

/-- A path that goes through some words and may have a slash at its end. -/
def Spells (words : List Text) (p : Path) : Prop :=
  p = Text.join "/" words ∨ words ≠ [] ∧ p = Text.join "/" words ++ "/"

theorem endsWith_slash (p : Path) : endsWith "/" (p ++ "/") = true :=
  List.isSuffixOf_iff_suffix.mpr (List.suffix_append _ _)

/-- Words that are joined give a path with a word at its end. -/
theorem AreWords.join_ends {words : List Text} (h : AreWords words) (hne : words ≠ []) :
    (Text.join "/" words).isEmpty = false ∧ endsWith "/" (Text.join "/" words) = false := by
  obtain ⟨before, word, hword, hbefore⟩ := Text.exists_join_eq_append "/" hne
  obtain ⟨hsome, hslash⟩ := h word hword
  rw [hbefore]
  exact ⟨by simp [hsome], Text.endsWith_append_of_notMem before hsome hslash⟩

theorem Spells.join_nil {words : List Text} (h : Spells words p) : Spells words (p.join []) := by
  rw [join, not_isAbsolute List.not_mem_nil, if_neg (by simp), append_nil, append_nil]
  rcases h with rfl | ⟨hne, rfl⟩
  · split
    · exact .inl rfl
    case isFalse hopen =>
      refine .inr ⟨fun hnone => hopen ?_, rfl⟩
      rw [hnone]
      rfl
  · rw [endsWith_slash, Bool.or_true, if_pos rfl]
    exact .inr ⟨hne, rfl⟩

theorem Spells.join_word {words : List Text} (h : Spells words p) (hwords : AreWords words)
    (hslash : '/' ∉ word) : Spells (words ++ [word]) (p.join word) := by
  left
  rw [join, not_isAbsolute hslash, if_neg (by simp)]
  by_cases hnone : words = []
  · subst hnone
    rcases h with rfl | ⟨hne, -⟩
    · exact (Text.join_singleton "/" word).symm
    · exact absurd rfl hne
  · obtain ⟨hsome, hopen⟩ := hwords.join_ends hnone
    rw [join_concat _ _ hnone]
    rcases h with rfl | ⟨-, rfl⟩
    · rw [hopen, hsome, if_neg (by simp)]
    · rw [endsWith_slash, Bool.or_true, if_pos rfl]

/-- Pieces that are joined one after the other give a path that goes through those that are not
empty. -/
theorem spells_foldl_join {pieces : List Text} (h : ∀ piece ∈ pieces, '/' ∉ piece) :
    AreWords (pieces.filter (!·.isEmpty)) ∧
      Spells (pieces.filter (!·.isEmpty)) (pieces.foldl join []) := by
  induction pieces using List.reverseRecOn with
  | nil => exact ⟨by simp [AreWords], .inl rfl⟩
  | append_singleton pieces last ih =>
    obtain ⟨hwords, hspells⟩ := ih fun piece hpiece => h piece (List.mem_append_left _ hpiece)
    have hslash : '/' ∉ last := h last (by simp)
    rw [List.foldl_append, List.foldl_cons, List.foldl_nil, List.filter_append]
    by_cases hempty : last = []
    · subst hempty
      have hfilter : [([] : Text)].filter (!·.isEmpty) = [] := rfl
      rw [hfilter, append_nil]
      exact ⟨hwords, hspells.join_nil⟩
    · have hfilter : [last].filter (!·.isEmpty) = [last] := by simp [hempty]
      rw [hfilter]
      refine ⟨?_, hspells.join_word hwords hslash⟩
      intro word hword
      rcases List.mem_append.mp hword with hword | hword
      · exact hwords word hword
      · rw [List.mem_singleton.mp hword]
        exact ⟨hempty, hslash⟩

theorem component?_of_word (hne : word ≠ []) (hdots : '.' ∉ word) :
    component? word = some (.name word) := by
  have hhere : word ≠ ['.'] := fun h => hdots (by simp [h])
  have hup : word ≠ ['.', '.'] := fun h => hdots (by simp [h])
  simp [component?, hne, hhere, hup]

/-- The pieces of a path are the words that it goes through, and what a slash at the end adds. -/
theorem Spells.splitOn_eq {words : List Text} (h : Spells words p) (hwords : AreWords words)
    (hne : words ≠ []) :
    ∃ idle, splitOn '/' p = words ++ idle ∧ (idle = [] ∨ idle = [[]]) := by
  have hjoin := Text.splitOn_join_of_notMem hne fun word hword => (hwords word hword).2
  rcases h with rfl | ⟨-, rfl⟩
  · exact ⟨[], hjoin.trans (append_nil _).symm, .inl rfl⟩
  · refine ⟨[[]], ?_, .inr rfl⟩
    exact (Text.splitOn_append '/' _ []).trans (congrArg (· ++ [[]]) hjoin)

theorem trimPieces_append {words idle : List Text} (hlast : isIdle last = false)
    (hidle : idle = [] ∨ idle = [[]]) : trimPieces (words ++ [last] ++ idle) = words ++ [last] := by
  have hempty : isIdle [] = true := rfl
  have hdrop (before : List Text) :
      (idle.reverse ++ last :: before).dropWhile isIdle = last :: before := by
    rcases hidle with rfl | rfl <;> simp [hlast, hempty]
  cases words with
  | nil => rcases hidle with rfl | rfl <;> simp [trimPieces, hempty]
  | cons first words =>
    rw [cons_append, cons_append, trimPieces]
    simp [hdrop]

/-- Another extension is put on the last of the words that a path goes through. -/
theorem withExtension_of_spells {words : List Text} (extension : Text)
    (hwords : AreWords (words ++ [last])) (hdots : '.' ∉ last) (h : Spells (words ++ [last]) p) :
    withExtension extension p = Text.join "/" (words ++ [last ++ "." ++ extension]) := by
  obtain ⟨idle, hpieces, hidle⟩ := h.splitOn_eq hwords (by simp)
  have hne : last ≠ [] := (hwords last (by simp)).1
  have hname := component?_of_word hne hdots
  have hidleNone : idle.filterMap component? = [] := by
    rcases hidle with rfl | rfl <;> rfl
  have hfile : fileName? p = some last := by
    simp [fileName?, components, hpieces, hidleNone, hname, Component.name?]
  have hstem : stem last = last := by
    have hnone : last.reverse.dropWhile (· != '.') = [] := by
      rw [List.dropWhile_eq_nil_iff]
      intro c hc
      exact bne_iff_ne.mpr fun heq => hdots (heq ▸ List.mem_reverse.mp hc)
    simp [stem, hnone]
  have htrim : trimPieces (splitOn '/' p) = words ++ [last] := by
    rw [hpieces]
    exact trimPieces_append (by simp [isIdle, hname]) hidle
  rw [withExtension, hfile]
  simp only [htrim, hstem, List.dropLast_concat]
  rw [ofPieces]
  intro hsingle
  have hlength := congrArg (List.length ∘ List.flatten) hsingle
  simp at hlength

theorem AreWords.not_isAbsolute_join {words : List Text} (h : AreWords words) (rest : Text)
    (hne : words ≠ []) : isAbsolute (Text.join "/" words ++ rest) = false := by
  obtain ⟨first, others, rfl⟩ := List.exists_cons_of_ne_nil hne
  obtain ⟨hsome, hslash⟩ := h first List.mem_cons_self
  obtain ⟨c, cs, rfl⟩ := List.exists_cons_of_ne_nil hsome
  rw [List.mem_cons, not_or] at hslash
  rw [Text.join_cons_head, cons_append]
  simp [isAbsolute, Text.startsWith, List.isPrefixOf, hslash.1]

/-- A directory puts the same text before all the relative paths that are joined to it. -/
theorem exists_join_eq (dir : Path) :
    ∃ base, ∀ part, isAbsolute part = false → dir.join part = base ++ part := by
  by_cases hopen : (dir.isEmpty || endsWith "/" dir) = true
  · exact ⟨dir, fun part hpart => by rw [join, hpart, if_neg (by simp), if_pos hopen]⟩
  · exact ⟨dir ++ "/", fun part hpart => by rw [join, hpart, if_neg (by simp), if_neg hopen]⟩

/-- Words are joined to a directory one after the other. -/
theorem join_join_concat {words : List Text} (dir : Path) (hwords : AreWords words)
    (hne : words ≠ []) (hslash : '/' ∉ word) :
    dir.join (Text.join "/" (words ++ [word])) = (dir.join (Text.join "/" words)).join word := by
  obtain ⟨base, hbase⟩ := exists_join_eq dir
  obtain ⟨before, last, hlast, hjoined⟩ := Text.exists_join_eq_append "/" hne
  obtain ⟨hsome, hlastSlash⟩ := hwords last hlast
  have hrelative : isAbsolute (Text.join "/" words) = false := by
    simpa using hwords.not_isAbsolute_join [] hne
  have hrelative' : isAbsolute (Text.join "/" (words ++ [word])) = false := by
    rw [join_concat _ _ hne, append_assoc]
    exact hwords.not_isAbsolute_join _ hne
  have hopen : (base ++ Text.join "/" words).isEmpty = false ∧
      endsWith "/" (base ++ Text.join "/" words) = false := by
    rw [hjoined, ← append_assoc]
    exact ⟨by simp [hsome], Text.endsWith_append_of_notMem _ hsome hlastSlash⟩
  rw [hbase _ hrelative, hbase _ hrelative', join_concat _ _ hne, join, not_isAbsolute hslash,
    if_neg (by simp), hopen.1, hopen.2, if_neg (by simp)]
  simp only [append_assoc]

/-- Names that are joined to a directory lead to their place below it. -/
theorem place_join_names (dir : Path) (hnames : ∀ name ∈ names, IsName name) (hne : names ≠ []) :
    (dir.join (Text.join "/" names)).place =
      { dir.place with names := dir.place.names ++ names } := by
  induction names using List.reverseRecOn with
  | nil => exact absurd rfl hne
  | append_singleton names last ih =>
    have hlast : IsName last := hnames last (by simp)
    have hfront : ∀ name ∈ names, IsName name := fun n hn => hnames n (List.mem_append_left _ hn)
    by_cases hnone : names = []
    · subst hnone
      rw [List.nil_append, Text.join_singleton,
        place_join dir hlast.no_slash hlast.ne_nil hlast.step_eq]
      rfl
    · have hwords : AreWords names := fun n hn => ⟨(hfront n hn).ne_nil, (hfront n hn).no_slash⟩
      rw [join_join_concat dir hwords hnone hlast.no_slash,
        place_join _ hlast.no_slash hlast.ne_nil hlast.step_eq, ih hfront hnone]
      simp [Place.child]

end Path

namespace ViewName

open BladeView.Path (IsName AreWords)

/-- The words between the dots of a view's name. -/
def words (view : Text) : List Text := (Text.splitOn '.' view).filter (!·.isEmpty)

/-- The names that lead to the module of a view with the given words. -/
def outputNames (words : List Text) : List Text :=
  match words.getLast? with
  | none => []
  | some last => words.dropLast ++ [last ++ ".js"]

theorem outputNames_concat (front : List Text) (last : Text) :
    outputNames (front ++ [last]) = front ++ [last ++ ".js"] := by
  simp [outputNames]

theorem outputNames_injective : Function.Injective outputNames := by
  intro ws vs h
  rcases eq_nil_or_concat' ws with rfl | ⟨front, last, rfl⟩ <;>
    rcases eq_nil_or_concat' vs with rfl | ⟨front', last', rfl⟩
  · rfl
  · rw [outputNames_concat] at h
    simp [outputNames] at h
  · rw [outputNames_concat] at h
    simp [outputNames] at h
  · rw [outputNames_concat, outputNames_concat] at h
    obtain ⟨rfl, hlast⟩ := List.append_inj' h rfl
    rw [List.append_cancel_right (List.singleton_injective hlast)]

variable {view : Text}

theorem word_of_mem (hword : word ∈ words view) : word ≠ [] ∧ '.' ∉ word := by
  obtain ⟨hmem, hne⟩ := List.mem_filter.mp hword
  exact ⟨by simpa using hne, Text.notMem_of_mem_splitOn hmem⟩

theorem areWords_words (hslash : '/' ∉ view) : AreWords (words view) := fun _ hword =>
  ⟨(word_of_mem hword).1,
    fun hmem => hslash (Text.mem_of_mem_splitOn (List.mem_filter.mp hword).1 hmem)⟩

/-- The module of a view goes under the words of the view's name. -/
theorem modulePath_eq (hslash : '/' ∉ view) :
    modulePath view = Text.join "/" (outputNames (words view)) := by
  have hpieces : ∀ piece ∈ splitOn '.' view, '/' ∉ piece :=
    fun piece hpiece hmem => hslash (Text.mem_of_mem_splitOn hpiece hmem)
  have hspells : Path.Spells (words view) _ := (Path.spells_foldl_join hpieces).2
  have hwords := areWords_words hslash
  rw [modulePath]
  generalize (splitOn '.' view).foldl Path.join [] = p at hspells ⊢
  rcases eq_nil_or_concat' (words view) with hnone | ⟨front, last, hlast⟩
  · rw [hnone] at hspells ⊢
    rcases hspells with rfl | ⟨hne, -⟩
    · rfl
    · exact absurd rfl hne
  · have hmem : last ∈ words view := by simp [hlast]
    have hdots : '.' ∉ last := (word_of_mem hmem).2
    rw [hlast] at hspells hwords ⊢
    rw [Path.withExtension_of_spells "js" hwords hdots hspells, outputNames_concat, append_assoc]
    rfl

theorem isName_of_mem_outputNames (hslash : '/' ∉ view) :
    ∀ name ∈ outputNames (words view), IsName name := by
  have hwords := areWords_words hslash
  have hword : ∀ word ∈ words view, IsName word := by
    intro word hword
    obtain ⟨hne, hdots⟩ := word_of_mem hword
    exact ⟨hne, (hwords word hword).2, fun h => hdots (by simp [h]), fun h => hdots (by simp [h])⟩
  rcases eq_nil_or_concat' (words view) with hnone | ⟨front, last, hlast⟩
  · simp [hnone, outputNames]
  · rw [hlast] at hword
    rw [hlast, outputNames_concat]
    intro name hname
    rcases List.mem_append.mp hname with hname | hname
    · exact hword name (List.mem_append_left _ hname)
    · have hlast := hword last (by simp)
      rw [List.mem_singleton.mp hname]
      have hend : (last ++ (".js" : Text)).getLast? = some 's' := by simp
      refine ⟨by simp, by simp [hlast.no_slash], fun h => ?_, fun h => ?_⟩
      · exact absurd (h ▸ hend) (by decide)
      · exact absurd (h ▸ hend) (by decide)

/-- The place of a view's module. -/
theorem place_modulePath (out : Path) (hslash : '/' ∉ view) (hne : words view ≠ []) :
    (out.join (modulePath view)).place =
      { out.place with names := out.place.names ++ outputNames (words view) } := by
  have hsome : outputNames (words view) ≠ [] := by
    rcases eq_nil_or_concat' (words view) with hnone | ⟨front, last, hlast⟩
    · exact absurd hnone hne
    · simp [hlast, outputNames_concat]
  rw [modulePath_eq hslash, Path.place_join_names out (isName_of_mem_outputNames hslash) hsome]

/-- The name of a view that was found below a directory. -/
theorem ofPath?_foldl_join (root : Path) {file : Text}
    (hnames : ∀ name ∈ dirs ++ [file], IsName name) (hstem : file.takeWhile (· != '.') ≠ []) :
    ofPath? root ((dirs ++ [file]).foldl Path.join root) =
      some (Text.join "." (dirs ++ [file.takeWhile (· != '.')])) := by
  have hcomponents := Path.components_foldl_join root hnames
  have hrelative : Path.relative? root ((dirs ++ [file]).foldl Path.join root) =
      some (dirs.map .name ++ [.name file]) := by
    have hfront := List.prefix_append (Path.components root) ((dirs ++ [file]).map .name)
    rw [Path.relative?, hcomponents, if_pos (List.isPrefixOf_iff_prefix.mpr hfront),
      List.drop_left, List.map_append, List.map_singleton]
  have htext : (dirs.map Path.Component.name).map Path.Component.text = dirs := by
    rw [List.map_map]
    exact List.map_id dirs
  rw [ofPath?, hrelative]
  simp only [Option.bind_eq_bind, Option.bind_some, List.getLast?_concat, List.dropLast_concat,
    Path.Component.name?, htext]
  exact if_neg (by simpa using hstem)

/-- The words of such a name: those between the dots of the directories' names, and the stem. -/
theorem words_join {stem : Text} (hne : stem ≠ []) (hdots : '.' ∉ stem) :
    words (Text.join "." (dirs ++ [stem])) = dirs.flatMap words ++ [stem] := by
  have hstem : words stem = [stem] := by
    simp [words, Text.splitOn_of_notMem hdots, hne]
  have hsplit : splitOn '.' (Text.join "." (dirs ++ [stem])) =
      (dirs ++ [stem]).flatMap (splitOn '.') :=
    Text.splitOn_join '.' (by simp)
  rw [words, hsplit, List.filter_flatMap, List.flatMap_append, List.flatMap_singleton]
  exact congrArg _ hstem

end ViewName
end BladeView
