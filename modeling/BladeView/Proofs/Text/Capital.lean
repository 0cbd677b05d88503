import Mathlib.Tactic.Common
import BladeView.Proofs.Text.Word
import BladeView.Text.Case

/-!
# Capitals are their own capital forms

The capital form of a character starts with a character that is its own capital form. For the
letters of the tables this is read off the runs: no capital that a run leads to is a letter of a
run, or one of the letters that become several.
-/
namespace BladeView

open Char (ofNat)
open Bool (and_eq_true or_eq_true)

variable {c d : Char} {run : CaseRun}

theorem toNat_ofNat_of_isValidChar {n : Nat} (h : n.isValidChar) : (ofNat n).toNat = n := by
  rw [ofNat, dif_pos h]
  rfl

namespace CaseRun

/-- The code of the last capital of a run. -/
def high (run : CaseRun) : Nat := Int.toNat (run.last + run.2.2.2)

/-- No code from `low` to `high`, in steps of `step`, is a letter of the run: they lie in other
places, or only every second code counts, and not the same one. -/
def isApart (low high step : Nat) (run : CaseRun) : Bool :=
  Nat.blt run.last low || Nat.blt high run.1 ||
    (Nat.beq run.2.2.1 2 && (Nat.beq step 2 || Nat.beq low high)
      && Nat.beq ((low + run.1) % 2) 1)

/-- The capitals of a run are characters: one ASCII capital, or capitals beyond ASCII. -/
def isProper (run : CaseRun) : Bool :=
  (0 ≤ run.1 + run.2.2.2 : Bool) && (run.high < 0xD800 || 0xE000 ≤ run.low && run.high < 0x110000)
    && (0x80 ≤ run.low || run.low == run.high && 0x41 ≤ run.low && run.high ≤ 0x5A)

/-- A code that lies apart from a run has no counterpart by it. -/
theorem map?_eq_none {low high step n k : Nat} (h : isApart low high step run)
    (hn : n = low + k * step) (hle : n ≤ high) : run.map? n = none := by
  simp only [isApart, or_eq_true, and_eq_true, Nat.blt_eq, Nat.beq_eq] at h
  simp only [map?, and_eq_true, decide_eq_true_eq, beq_iff_eq, ite_eq_right_iff,
    reduceCtorEq, imp_false]
  intro hrun
  obtain ⟨⟨hfirst, hlast⟩, hmod⟩ := hrun
  rcases h with (h | h) | ⟨⟨htwo, hstep⟩, hodd⟩
  · have hge : low ≤ n := hn ▸ Nat.le_add_right ..
    omega
  · omega
  · -- the run takes every second code, and the codes are not the same ones
    rw [htwo] at hmod
    rcases hstep with rfl | hsame
    · omega
    · have hge : low ≤ n := hn ▸ Nat.le_add_right ..
      omega

/-- The counterpart of a letter lies among the capitals of its run. -/
theorem exists_of_map?_eq_some {n : Nat} (hproper : run.isProper) (h : run.map? n = some d) :
    ∃ k, d.toNat = run.low + k * run.2.2.1 ∧ d.toNat ≤ run.high := by
  simp only [isProper, and_eq_true, decide_eq_true_eq, or_eq_true] at hproper
  simp only [map?, Option.ite_none_right_eq_some, and_eq_true, decide_eq_true_eq, beq_iff_eq,
    Option.some.injEq] at h
  obtain ⟨⟨⟨hfirst, hlast⟩, hmod⟩, rfl⟩ := h
  obtain ⟨⟨hshift, hchar⟩, -⟩ := hproper
  have hvalid : (Int.toNat (n + run.2.2.2)).isValidChar := by
    simp only [low, high] at hchar
    simp only [Nat.isValidChar]
    omega
  rw [toNat_ofNat_of_isValidChar hvalid]
  refine ⟨(n - run.1) / run.2.2.1, ?_, ?_⟩
  · have hdiv : (n - run.1) / run.2.2.1 * run.2.2.1 = n - run.1 :=
      Nat.div_mul_cancel (Nat.dvd_of_mod_eq_zero hmod)
    rw [hdiv, low]
    omega
  · rw [high]
    omega

end CaseRun

/-- The characters that the tables lead to: capital letters of ASCII and characters beyond it. -/
def isCapitalCode (n : Nat) : Bool := 0x80 ≤ n || 0x41 ≤ n && n ≤ 0x5A

theorem toUpper_of_isCapitalCode (h : isCapitalCode d.toNat) (hlt : d.toNat < 0x80) :
    d.toUpper = d := by
  have hval : d.val.toNat = d.toNat := rfl
  simp only [isCapitalCode, or_eq_true, and_eq_true, decide_eq_true_eq] at h
  refine dif_neg fun hsmall => ?_
  have := UInt32.le_iff_toNat_le.1 hsmall.1
  simp at this
  omega

/-- What is read off the runs: their capitals are characters, no letter of a run, and none of the
letters that become several. -/
theorem CaseRun.all_upperRuns : upperRuns.all (fun run => run.isProper &&
    upperRuns.all (isApart run.low run.high run.2.2.1) &&
    upperSpecials.all fun entry => Nat.blt entry.1 run.low || Nat.blt run.high entry.1) = true := by
  decide +kernel

/-- The capitals of a run are their own capital forms. -/
theorem upperChar_of_mem_run {n : Nat} (hrun : run ∈ upperRuns) (h : run.map? n = some d) :
    isCapitalCode d.toNat ∧ upperChar d = [d] := by
  have hchecked := List.all_eq_true.1 CaseRun.all_upperRuns run hrun
  rw [and_eq_true, and_eq_true] at hchecked
  obtain ⟨⟨hproper, hruns⟩, hspecials⟩ := hchecked
  obtain ⟨k, hk, hhigh⟩ := CaseRun.exists_of_map?_eq_some hproper h
  have hlow : run.low ≤ d.toNat := hk ▸ Nat.le_add_right ..
  have hcode : isCapitalCode d.toNat := by
    simp only [CaseRun.isProper, and_eq_true, or_eq_true, decide_eq_true_eq,
      beq_iff_eq] at hproper
    simp only [isCapitalCode, or_eq_true, and_eq_true, decide_eq_true_eq]
    omega
  refine ⟨hcode, ?_⟩
  by_cases hlt : d.toNat < 0x80
  · rw [upperChar, if_pos hlt, toUpper_of_isCapitalCode hcode hlt]
  · have hspecial : upperSpecials.find? (·.1 == d.toNat) = none := by
      refine List.find?_eq_none.2 fun entry hentry => ?_
      have hapart := List.all_eq_true.1 hspecials entry hentry
      simp only [or_eq_true, Nat.blt_eq] at hapart
      simp only [beq_iff_eq]
      omega
    have hnone : upperRuns.findSome? (·.map? d.toNat) = none := by
      refine List.findSome?_eq_none_iff.2 fun other hother => ?_
      exact CaseRun.map?_eq_none (List.all_eq_true.1 hruns other hother) hk hhigh
    rw [upperChar, if_neg hlt, hspecial, hnone, Option.getD_none]

/-- A letter with several capitals starts them with one that is its own capital form. -/
theorem all_special_capitals : upperSpecials.all (fun entry =>
    entry.2.all (fun n => isCapitalCode (ofNat n).toNat) &&
      (entry.2.head?.any fun n => upperChar (ofNat n) == [ofNat n])) = true := by
  decide +kernel

theorem upperChar_toUpper (hc : c.toNat < 0x80) :
    upperChar c.toUpper = [c.toUpper] ∧ (c.toUpper = c ∨ isCapitalCode c.toUpper.toNat) := by
  refine forall_ascii (P := fun c => upperChar c.toUpper = [c.toUpper] ∧
    (c.toUpper = c ∨ isCapitalCode c.toUpper.toNat)) ?_ hc
  decide +kernel

/-- What the capital form of a character consists of: first a character that is its own capital
form. It is the character itself, or all its characters are capitals of the tables. -/
theorem exists_upperChar_eq (c : Char) : ∃ h more, upperChar c = h :: more ∧ upperChar h = [h] ∧
    (upperChar c = [c] ∨ ∀ d ∈ upperChar c, isCapitalCode d.toNat) := by
  by_cases hlt : c.toNat < 0x80
  · have hself : upperChar c = [c.toUpper] := if_pos hlt
    obtain ⟨hupper, hcode⟩ := upperChar_toUpper hlt
    refine ⟨c.toUpper, [], hself, hupper, ?_⟩
    rw [hself]
    simpa using hcode
  · cases hspecial : upperSpecials.find? (·.1 == c.toNat) with
    | some entry =>
      have hself : upperChar c = entry.2.map ofNat := by rw [upperChar, if_neg hlt, hspecial]
      have hmem := List.mem_of_find?_eq_some hspecial
      have hentry := List.all_eq_true.1 all_special_capitals entry hmem
      simp only [and_eq_true, List.all_eq_true] at hentry
      obtain ⟨hcodes, hhead⟩ := hentry
      cases hcapitals : entry.2 with
      | nil => simp [hcapitals] at hhead
      | cons n ns =>
        rw [hcapitals] at hself hcodes hhead
        refine ⟨ofNat n, ns.map ofNat, hself, by simpa using hhead, .inr ?_⟩
        rw [hself]
        exact List.forall_mem_map.2 hcodes
    | none =>
      have hself : upperChar c = [(upperRuns.findSome? (·.map? c.toNat)).getD c] := by
        rw [upperChar, if_neg hlt, hspecial]
      cases hrun : upperRuns.findSome? (·.map? c.toNat) with
      | none =>
        rw [hrun, Option.getD_none] at hself
        exact ⟨c, [], hself, hself, .inl hself⟩
      | some d =>
        rw [hrun, Option.getD_some] at hself
        obtain ⟨run, hmem, hmap⟩ := List.exists_of_findSome?_eq_some hrun
        obtain ⟨hcode, hd⟩ := upperChar_of_mem_run hmem hmap
        refine ⟨d, [], hself, hd, .inr ?_⟩
        rw [hself]
        simpa using hcode

end BladeView
