import BladeView.Build.Cache
import BladeView.Proofs.Text.Basic
import BladeView.Proofs.Text.Utf8
import Mathlib.Algebra.Group.Nat.Defs
import Mathlib.Data.List.Nodup

/-!
# Entries of the cache

The printed form of an entry is read back to the same entry, whatever texts it holds. The bytes of
a key determine what they were taken from.

## Main statements

* `CacheEntry.read?_print`: an entry survives printing and reading.
* `Cache.key_eq_iff`: keys are the same only for the same source and shared code.
-/
namespace BladeView

open Quoted (double doubleChar hexDigit)
open Text (after? join toBytes)

namespace Json

/-! ## Strings -/

theorem hexDigit?_hexDigit : ∀ n : Fin 16, hexDigit? (hexDigit n) = some n.val := by decide

theorem hexUnit?_hexDigit {n : Nat} (h : n < 0x20) :
    hexUnit? '0' '0' (hexDigit (n / 16)) (hexDigit n) = some (.char (Char.ofNat n)) := by
  have hhigh : hexDigit? (hexDigit (n / 16)) = some (n / 16) :=
    hexDigit?_hexDigit ⟨n / 16, by omega⟩
  have hlow : hexDigit? (hexDigit n) = some (n % 16) := by
    simpa [hexDigit] using hexDigit?_hexDigit ⟨n % 16, by omega⟩
  have hzero : hexDigit? '0' = some 0 := by decide
  have hvalue : ((0 * 16 + 0) * 16 + n / 16) * 16 + n % 16 = n := by omega
  simp only [hexUnit?, hzero, hhigh, hlow, bind, Option.bind, hvalue, pure]
  rw [if_neg (by simp; omega)]

/-- Each character is read back from its printed form. -/
theorem units?_doubleChar (c : Char) (rest : Text) :
    units? (doubleChar c ++ rest) =
      (units? rest).map fun found => (.char c :: found.1, found.2) := by
  by_cases hquote : c = '\x22'
  · subst hquote
    cases h : units? rest <;> simp [doubleChar, units?, escape?, h]
  by_cases hslash : c = '\\'
  · subst hslash
    cases h : units? rest <;> simp [doubleChar, units?, escape?, h]
  by_cases hnamed : c ∈ ['\x08', '\x0c', '\n', '\r', '\t']
  · simp only [List.mem_cons, List.not_mem_nil, or_false] at hnamed
    rcases hnamed with rfl | rfl | rfl | rfl | rfl <;>
      cases h : units? rest <;> simp [doubleChar, units?, escape?, h]
  simp only [List.mem_cons, List.not_mem_nil, or_false, not_or] at hnamed
  by_cases hcontrol : c.toNat < 0x20
  · have hprint : doubleChar c ++ rest = '\\' :: 'u' :: '0' :: '0' ::
        hexDigit (c.toNat / 16) :: hexDigit c.toNat :: rest := by
      simp [doubleChar, hquote, hslash, hnamed, hcontrol]
    rw [hprint, units?, hexUnit?_hexDigit hcontrol, Char.ofNat_toNat]
    cases units? rest <;> rfl
  · have hprint : doubleChar c ++ rest = c :: rest := by
      simp [doubleChar, hquote, hslash, hnamed, hcontrol]
    rw [hprint, units? ]
    · simp [hcontrol, hslash]
      cases units? rest <;> rfl
    all_goals simp_all

theorem joinUnits?_map_char (t : Text) : joinUnits? (t.map .char) = some t := by
  induction t with
  | nil => rfl
  | cons c t ih => simp [joinUnits?, ih]

theorem units?_flatMap (t rest : Text) :
    units? (t.flatMap doubleChar ++ '\x22' :: rest) = some (t.map .char, rest) := by
  induction t with
  | nil => simp [units?]
  | cons c t ih =>
    rw [List.flatMap_cons, List.append_assoc, units?_doubleChar, ih]
    rfl

/-- A printed string is read to its text. -/
theorem string?_double (t rest : Text) :
    string? (t.flatMap doubleChar ++ '\x22' :: rest) = some (some t, rest) := by
  simp [string?, units?_flatMap, joinUnits?_map_char]

/-! ## Values -/

theorem skip_cons {c : Char} (h : c ≠ ' ' ∧ c ≠ '\n' ∧ c ≠ '\t' ∧ c ≠ '\r') (t : Text) :
    skip (c :: t) = c :: t := by
  simp [skip, h]

/-- A text is read as a value, whatever comes after it and for any fuel that is large enough. -/
def Reads (fuel : Nat) (t : Text) (j : Json) : Prop :=
  ∀ n rest, fuel ≤ n → value? n (t ++ rest) = some (j, rest)

theorem Reads.mono {fuel fuel' : Nat} {t : Text} {j : Json} (h : Reads fuel t j)
    (hle : fuel ≤ fuel') : Reads fuel' t j :=
  fun n rest hn => h n rest (Nat.le_trans hle hn)

theorem reads_double (t : Text) : Reads 1 (double t) (.string (some t)) := by
  intro n rest hn
  obtain ⟨n, rfl⟩ := Nat.exists_eq_add_of_le' hn
  have htext : double t ++ rest = '\x22' :: (t.flatMap doubleChar ++ '\x22' :: rest) := by
    simp [double]
  simp [htext, value?, skip_cons, string?_double]

theorem reads_bool (b : Bool) : Reads 1 (if b then "true" else "false") (.bool b) := by
  intro n rest hn
  obtain ⟨n, rfl⟩ := Nat.exists_eq_add_of_le' hn
  cases b <;> simp [value?, skip, constant?, after?]

/-- The entries of an object are read as they are printed. -/
theorem entries?_join {fuel : Nat} (fields : List (Text × Text × Json)) (hne : fields ≠ [])
    (hreads : ∀ f ∈ fields, Reads fuel f.2.1 f.2.2) (n : Nat) (rest : Text)
    (hn : fuel + fields.length ≤ n) :
    entries? n (join "," (fields.map fun f => CacheEntry.field f.1 f.2.1) ++ '\x7d' :: rest) =
      some (fields.map fun f => (some f.1, f.2.2), rest) := by
  induction fields generalizing n with
  | nil => exact absurd rfl hne
  | cons f fields ih =>
    obtain ⟨n, rfl⟩ : ∃ k, n = k + 1 := ⟨n - 1, by simp at hn; omega⟩
    have hvalue : ∀ rest, value? n (f.2.1 ++ rest) = some (f.2.2, rest) := fun rest =>
      hreads f (by simp) n rest (by simp at hn; omega)
    have hkey : ∀ rest, CacheEntry.field f.1 f.2.1 ++ rest =
        '\x22' :: (f.1.flatMap doubleChar ++ '\x22' :: ':' :: (f.2.1 ++ rest)) := by
      intro rest
      simp [CacheEntry.field, double]
    cases fields with
    | nil =>
      simp [join, hkey, entries?, skip_cons, after?, string?_double, hvalue]
    | cons g fields =>
      have hrest := ih (by simp) (fun f' hf' => hreads f' (by simp_all)) n (by simp at hn ⊢; omega)
      rw [List.map_cons, Text.join_cons_of_ne_nil _ _ (by simp), List.append_assoc,
        List.append_assoc, hkey, entries?]
      generalize join "," ((g :: fields).map _) ++ '\x7d' :: rest = more at hrest ⊢
      simp [skip_cons, after?, string?_double, hvalue, hrest]

/-- A printed object is read as the object of its fields. -/
theorem reads_object {fuel : Nat} (fields : List (Text × Text × Json)) (hne : fields ≠ [])
    (hreads : ∀ f ∈ fields, Reads fuel f.2.1 f.2.2) :
    Reads (fuel + fields.length + 1)
      (CacheEntry.object (fields.map fun f => CacheEntry.field f.1 f.2.1))
      (.object (fields.map fun f => (some f.1, f.2.2))) := by
  intro n rest hn
  obtain ⟨n, rfl⟩ : ∃ k, n = k + 1 := ⟨n - 1, by omega⟩
  obtain ⟨f, others, rfl⟩ := List.exists_cons_of_ne_nil hne
  have hentries := entries?_join (f :: others) hne hreads n rest (by omega)
  -- the text of the entries begins with a quote, so the object is not taken for an empty one
  obtain ⟨tail, htail⟩ : ∃ tail, join ","
      ((f :: others).map fun f => CacheEntry.field f.1 f.2.1) ++ '\x7d' :: rest = '\x22' :: tail := by
    cases others <;>
      exact ⟨_, by simp [join, List.intercalate, CacheEntry.field, double]; rfl⟩
  have hobject : CacheEntry.object ((f :: others).map fun f => CacheEntry.field f.1 f.2.1) ++ rest =
      '\x7b' :: '\x22' :: tail := by
    rw [← htail]
    simp [CacheEntry.object]
  rw [htail] at hentries
  rw [hobject, value?]
  simp [skip_cons, hentries]

/-- A document is read as the value that its text is read as. -/
theorem read?_of_reads {fuel : Nat} {t : Text} {j : Json} (h : Reads fuel t j)
    (hfuel : fuel ≤ 2 * t.length + 2) : read? t = some j := by
  have hvalue := h (2 * t.length + 2) [] hfuel
  rw [List.append_nil] at hvalue
  rw [read?, hvalue]
  rfl

/-! ## Records -/

variable {α : Type} {fields : List (Text × α × Json)}

theorem filter_key (hkeys : (fields.map Prod.fst).Nodup) {f : Text × α × Json}
    (hf : f ∈ fields) : fields.filter (fun g => g.1 == f.1) = [f] := by
  induction fields with
  | nil => simp at hf
  | cons g fields ih =>
    rw [List.map_cons, List.nodup_cons] at hkeys
    rcases List.mem_cons.mp hf with rfl | hf
    · have hnone : fields.filter (fun g => g.1 == f.1) = [] := by
        rw [List.filter_eq_nil_iff]
        intro g hg heq
        exact hkeys.1 (List.mem_map.mpr ⟨g, hg, by simpa using heq⟩)
      simp [hnone]
    · have hne : g.1 ≠ f.1 := fun heq => hkeys.1 (List.mem_map.mpr ⟨f, hf, heq.symm⟩)
      simp [hne, ih hkeys.2 hf]

/-- The fields of an object whose keys are told apart, asked for in their order. -/
theorem fields?_map (hkeys : (fields.map Prod.fst).Nodup) :
    fields? (fields.map Prod.fst) (.object (fields.map fun f => (some f.1, f.2.2))) =
      some (fields.map fun f => some f.2.2) := by
  have hall : (fields.map fun f => (some f.1, f.2.2)).all (fun entry => entry.1.isSome) = true := by
    simp
  have hfields : ∀ more ⊆ fields, (more.map Prod.fst).mapM
      (field? (fields.map fun f => (some f.1, f.2.2))) = some (more.map fun f => some f.2.2) := by
    intro more hmore
    induction more with
    | nil => rfl
    | cons f more ih =>
      obtain ⟨hf, hmore⟩ := List.cons_subset.mp hmore
      have hfield : field? (fields.map fun f => (some f.1, f.2.2)) f.1 = some (some f.2.2) := by
        simp [field?, List.filter_map, Function.comp_def, filter_key hkeys hf]
      simp [List.mapM_cons, hfield, ih hmore]
  rw [fields?, if_pos hall, hfields fields (List.Subset.refl fields)]

end Json

namespace CacheEntry

/-! ## Entries -/

/-- A field that holds a text: its key, what it is printed as, and the value that this is read
as. -/
def printedText (key t : Text) : Text × Text × Json := (key, double t, .string (some t))

/-- The fields of a module. -/
def printedModule (m : ViewModule) : List (Text × Text × Json) :=
  [printedText "functionName" m.functionName, printedText "viewName" m.viewName,
   ("hasPrerender", if m.hasPrerender then "true" else "false", .bool m.hasPrerender),
   printedText "render" m.render, printedText "virtualRender" m.virtualRender,
   printedText "prerender" m.prerender, printedText "init" m.init,
   printedText "loadServerData" m.loadServerData, printedText "source" m.source]

theorem reads_printedModule (m : ViewModule) :
    ∀ f ∈ printedModule m, Json.Reads 1 f.2.1 f.2.2 := by
  simp only [printedModule, printedText, List.forall_mem_cons, Json.reads_double, Json.reads_bool,
    List.not_mem_nil, false_imp_iff, implies_true, and_self]

/-- The value that a module is read as. -/
def moduleValue (m : ViewModule) : Json :=
  .object ((printedModule m).map fun f => (some f.1, f.2.2))

theorem moduleKeys_nodup : moduleKeys.Nodup := by decide

theorem module?_moduleValue (m : ViewModule) : module? (moduleValue m) = some m := by
  have hkeys : (printedModule m).map Prod.fst = moduleKeys := rfl
  have hfields : (moduleValue m).fields? moduleKeys =
      some ((printedModule m).map fun f => some f.2.2) := by
    rw [← hkeys]
    exact Json.fields?_map (hkeys ▸ moduleKeys_nodup)
  rw [module?, hfields]
  rfl

/-- The fields of an entry. -/
def printedEntry (e : CacheEntry) : List (Text × Text × Json) :=
  [printedText "hash" e.hash,
   ("module", object ((printedModule e.module).map fun f => field f.1 f.2.1),
    moduleValue e.module)]

theorem print_eq (e : CacheEntry) :
    e.print = object ((printedEntry e).map fun f => field f.1 f.2.1) := rfl

/-- An entry survives printing and reading. -/
theorem read?_print (e : CacheEntry) : read? e.print = some e := by
  have hmodule := Json.reads_object (printedModule e.module) (by simp [printedModule])
    (reads_printedModule e.module)
  have hentry : ∀ f ∈ printedEntry e, Json.Reads 11 f.2.1 f.2.2 := by
    simp only [printedEntry, List.forall_mem_cons]
    exact ⟨(Json.reads_double e.hash).mono (by omega), hmodule, by simp⟩
  have hlength : 14 ≤ 2 * e.print.length + 2 := by
    simp [print_eq, printedEntry, printedText, object, field, join, double, doubleChar]
    omega
  have hread := Json.read?_of_reads (Json.reads_object (printedEntry e) (by simp [printedEntry])
    hentry) hlength
  have hfields : (Json.object ((printedEntry e).map fun f => (some f.1, f.2.2))).fields?
      ["hash", "module"] = some ((printedEntry e).map fun f => some f.2.2) :=
    Json.fields?_map (show (["hash", "module"] : List Text).Nodup by decide)
  rw [read?, print_eq, hread, Option.bind_eq_bind, Option.bind_some, hfields]
  simp [printedEntry, printedText, Json.text?, module?_moduleValue]

end CacheEntry

/-! ## Keys -/

section Digits

variable {α : Type} {f : Nat → Nat → List α} {base : Nat} {digit : Nat → α}
  (hsucc : ∀ count n, f (count + 1) n = f count (n / base) ++ [digit (n % base)])

include hsucc

theorem length_digits (hzero : ∀ n, f 0 n = []) (count n : Nat) : (f count n).length = count := by
  induction count generalizing n with
  | zero => rw [hzero, List.length_nil]
  | succ count ih => rw [hsucc, List.length_append, ih, List.length_singleton]

/-- The digits of a number that is not too large determine it. -/
theorem digits_inj (hbase : 0 < base)
    (hdigit : ∀ m < base, ∀ n < base, digit m = digit n → m = n) {count m n : Nat}
    (hm : m < base ^ count) (hn : n < base ^ count) (h : f count m = f count n) : m = n := by
  induction count generalizing m n with
  | zero => rw [Nat.lt_one_iff.1 hm, Nat.lt_one_iff.1 hn]
  | succ count ih =>
    rw [hsucc, hsucc] at h
    obtain ⟨hhigh, hlow⟩ := List.append_inj' h rfl
    rw [Nat.pow_succ'] at hm hn
    have hdiv := ih (Nat.div_lt_of_lt_mul hm) (Nat.div_lt_of_lt_mul hn) hhigh
    have hmod := hdigit _ (Nat.mod_lt m hbase) _ (Nat.mod_lt n hbase) (List.singleton_inj.1 hlow)
    rw [← Nat.div_add_mod m base, hdiv, hmod, Nat.div_add_mod]

end Digits

/-- Items whose codes are told apart at the front of what follows are told from the codes of them
all. -/
theorem flatMap_inj {α β : Type} {f : α → List β} {p : α → Prop} (hne : ∀ a, f a ≠ [])
    (hfront : ∀ {a b more more'}, p a → p b → f a ++ more = f b ++ more' → a = b ∧ more = more')
    {l l' : List α} (hl : ∀ a ∈ l, p a) (hl' : ∀ a ∈ l', p a)
    (h : l.flatMap f = l'.flatMap f) : l = l' := by
  induction l generalizing l' with
  | nil =>
    cases l' with
    | nil => rfl
    | cons b l' => simp [hne] at h
  | cons a l ih =>
    cases l' with
    | nil => simp [hne] at h
    | cons b l' =>
      rw [List.forall_mem_cons] at hl hl'
      rw [List.flatMap_cons, List.flatMap_cons] at h
      obtain ⟨rfl, hmore⟩ := hfront hl.1 hl'.1 h
      rw [ih hl.2 hl'.2 hmore]

namespace Digest

theorem digitChar_inj : ∀ m n : Fin 16, Nat.digitChar m = Nat.digitChar n → m = n := by decide

theorem length_hexDigits : ∀ count n, (hexDigits count n).length = count :=
  length_digits (fun _ _ => rfl) fun _ => rfl

theorem hexDigits_inj {m n : Nat} (hm : m < 16 ^ 8) (hn : n < 16 ^ 8)
    (h : hexDigits 8 m = hexDigits 8 n) : m = n :=
  digits_inj (fun _ _ => rfl) (by decide)
    (fun m hm n hn h => Fin.val_eq_of_eq (digitChar_inj ⟨m, hm⟩ ⟨n, hn⟩ h)) hm hn h

/-- The digits of a digest determine its words. -/
theorem hex_eq_iff {bytes bytes' : List UInt8} :
    hex bytes = hex bytes' ↔ ofBytes bytes = ofBytes bytes' := by
  constructor
  · refine flatMap_inj (p := fun _ => True) (fun word hnil => ?_) (fun {v w _ _} _ _ h => ?_)
      (fun _ _ => trivial) fun _ _ => trivial
    · simpa [length_hexDigits] using congrArg List.length hnil
    · obtain ⟨hdigits, hmore⟩ := List.append_inj h (by simp [length_hexDigits])
      exact ⟨UInt32.toNat_inj.1 (hexDigits_inj v.toNat_lt w.toNat_lt hdigits), hmore⟩
  · intro h
    rw [hex, hex, h]

/-- Different bytes with the same digest. -/
def Collide (bytes bytes' : List UInt8) : Prop := bytes ≠ bytes' ∧ ofBytes bytes = ofBytes bytes'

end Digest

namespace Cache

theorem length_bigEndian : ∀ count n, (Digest.bigEndian count n).length = count :=
  length_digits (fun _ _ => rfl) fun _ => rfl

theorem bigEndian_inj {m n : Nat} (hm : m < 256 ^ 8) (hn : n < 256 ^ 8)
    (h : Digest.bigEndian 8 m = Digest.bigEndian 8 n) : m = n := by
  refine digits_inj (fun _ _ => rfl) (by decide) (fun m hm n hn h => ?_) hm hn h
  have hmod := congrArg UInt8.toNat h
  rwa [UInt8.toNat_ofNat_of_lt' hm, UInt8.toNat_ofNat_of_lt' hn] at hmod

/-- A text whose length in bytes fits into eight bytes. -/
def Fits (t : Text) : Prop := (Text.toBytes t).length < 2 ^ 64

/-- The first of some delimited texts can be told from the bytes of them all. -/
theorem delimited_append_inj {s t : Text} {more more' : List UInt8} (hs : Fits s) (ht : Fits t)
    (h : delimited s ++ more = delimited t ++ more') : s = t ∧ more = more' := by
  rw [delimited, delimited, List.append_assoc, List.append_assoc] at h
  obtain ⟨hsize, hrest⟩ := List.append_inj h (by simp [littleEndian, length_bigEndian])
  have hlength : (toBytes s).length = (toBytes t).length :=
    bigEndian_inj hs ht (List.reverse_injective hsize)
  obtain ⟨hbytes, hmore⟩ := List.append_inj hrest hlength
  exact ⟨Text.toBytes_injective hbytes, hmore⟩

theorem delimited_ne_nil (t : Text) : delimited t ≠ [] := by
  intro h
  simpa [delimited, littleEndian, length_bigEndian] using congrArg List.length h

/-- Keys have the same bytes only for the same source and shared code. -/
theorem keyBytes_inj {shared shared' : SharedCode} {source source' : Text}
    (hfits : ∀ t ∈ [shared.function, shared.config, source], Fits t)
    (hfits' : ∀ t ∈ [shared'.function, shared'.config, source'], Fits t)
    (h : keyBytes shared source = keyBytes shared' source') :
    shared = shared' ∧ source = source' := by
  have hversion : Fits version := by
    simp [Fits, version, Char.utf8Size]
  have hparts := flatMap_inj delimited_ne_nil delimited_append_inj
    (List.forall_mem_cons.2 ⟨hversion, hfits⟩) (List.forall_mem_cons.2 ⟨hversion, hfits'⟩) h
  cases shared
  cases shared'
  simpa [and_assoc] using hparts

/-- **What a key is made from can be told from the bytes that are digested**, also where text moves
between the shared code and the source. So keys are the same for the same only, unless the digest of
different bytes is the same. -/
theorem key_eq_iff {shared shared' : SharedCode} {source source' : Text}
    (hfits : ∀ t ∈ [shared.function, shared.config, source], Fits t)
    (hfits' : ∀ t ∈ [shared'.function, shared'.config, source'], Fits t) :
    (keyBytes shared source = keyBytes shared' source' ↔ shared = shared' ∧ source = source') ∧
    (key shared source = key shared' source' ↔ shared = shared' ∧ source = source' ∨
      Digest.Collide (keyBytes shared source) (keyBytes shared' source')) := by
  have hbytes : keyBytes shared source = keyBytes shared' source' ↔
      shared = shared' ∧ source = source' := by
    constructor
    · exact keyBytes_inj hfits hfits'
    · rintro ⟨rfl, rfl⟩
      rfl
  refine ⟨hbytes, ?_⟩
  rw [key, key, Digest.hex_eq_iff, ← hbytes, Digest.Collide]
  constructor
  · exact fun h => (em _).imp_right fun hne => ⟨hne, h⟩
  · rintro (h | ⟨-, h⟩)
    · rw [h]
    · exact h

/-- Text that moves from the shared code to the source gives another key. -/
theorem key_eq_iff_moved :
    keyBytes ⟨"a", "b"⟩ "c" ≠ keyBytes ⟨"a", ""⟩ "bc" ∧ key ⟨"a", "b"⟩ "c" ≠ key ⟨"a", ""⟩ "bc" := by
  have hfits : (∀ t ∈ (["a", "b", "c"] : List Text), Fits t) ∧
      ∀ t ∈ (["a", "", "bc"] : List Text), Fits t := by
    simp [Fits, Char.utf8Size]
  obtain ⟨hbytes, hkey⟩ := @key_eq_iff ⟨"a", "b"⟩ ⟨"a", ""⟩ "c" "bc" hfits.1 hfits.2
  have hcollide : ¬ Digest.Collide (keyBytes ⟨"a", "b"⟩ "c") (keyBytes ⟨"a", ""⟩ "bc") :=
    fun h => absurd h.2 (by decide +kernel)
  rw [ne_eq, ne_eq, hbytes, hkey, or_iff_left hcollide]
  decide

end Cache
end BladeView
