import Mathlib.Data.Int.ModEq
import Mathlib.Tactic.Common
import LittleMan.Architecture

/-!
# Wrapped values

Wrapping brings every word into the range of values and leaves alone those that are in it. The
others move by a multiple of the period, to the first period of values. On the binary machine that
is the whole range; on the decimal machine the greatest value is left over, and no word is wrapped
to it.
-/

namespace LittleMan

theorem Range.contains_iff {r : Range} {w : Word} :
    r.contains w = true ↔ r.least.toInt ≤ w.toInt ∧ w.toInt ≤ r.greatest.toInt := by
  unfold Range.contains
  rw [Bool.and_eq_true, decide_eq_true_iff, decide_eq_true_iff, Int64.le_iff_toInt_le,
    Int64.le_iff_toInt_le]

namespace Architecture

theorem period_pos (a : Architecture) : 0 < a.period := by
  cases a <;> decide

theorem least_add_period_le (a : Architecture) :
    a.values.least.toInt + a.period ≤ a.values.greatest.toInt + 1 := by
  cases a <;> decide

/-! ## Residues -/

/-- The integer that differs from `i` by a multiple of the period and is one of the first period of
values. -/
def residue (a : Architecture) (i : Int) : Int :=
  (i - a.values.least.toInt) % a.period + a.values.least.toInt

theorem residue_bounds (a : Architecture) (i : Int) :
    a.values.least.toInt ≤ a.residue i ∧ a.residue i < a.values.least.toInt + a.period := by
  have hpos := a.period_pos
  have hlo := Int.emod_nonneg (i - a.values.least.toInt) (b := a.period) (by omega)
  have hhi := Int.emod_lt_of_pos (i - a.values.least.toInt) (b := a.period) (by omega)
  unfold residue
  omega

theorem residue_modEq (a : Architecture) (i : Int) : a.residue i ≡ i [ZMOD a.period] := by
  have h : (i - a.values.least.toInt) % a.period ≡ i - a.values.least.toInt [ZMOD a.period] :=
    Int.mod_modEq _ _
  simpa [residue] using h.add_right a.values.least.toInt

theorem eq_residue_iff {a : Architecture} {i n : Int} :
    n = a.residue i ↔
      (a.values.least.toInt ≤ n ∧ n < a.values.least.toInt + a.period) ∧ n ≡ i [ZMOD a.period] := by
  constructor
  · rintro rfl
    exact ⟨a.residue_bounds i, a.residue_modEq i⟩
  · rintro ⟨⟨hlo, hhi⟩, hmod⟩
    have hsub : (n - a.values.least.toInt) % a.period = (i - a.values.least.toInt) % a.period :=
      hmod.sub_right _
    rw [Int.emod_eq_of_lt (by omega) (by omega)] at hsub
    unfold residue
    omega

theorem residue_fits (a : Architecture) (i : Int) :
    -2 ^ 63 ≤ a.residue i ∧ a.residue i < 2 ^ 63 := by
  have hbounds := a.residue_bounds i
  have hlen := a.least_add_period_le
  have hleast := a.values.least.le_toInt
  have hgreatest := a.values.greatest.toInt_lt
  omega

/-! ## Wrapping -/

theorem wrap_of_inRange {a : Architecture} {w : Word} (h : a.inRange w = true) : a.wrap w = w := by
  unfold wrap
  rw [if_pos h]

theorem toInt_wrap_of_not_inRange {a : Architecture} {w : Word} (h : ¬ a.inRange w = true) :
    (a.wrap w).toInt = a.residue w.toInt := by
  have hfits := a.residue_fits w.toInt
  unfold wrap
  rw [if_neg h]
  exact Int64.toInt_ofInt_of_le hfits.1 hfits.2

theorem inRange_wrap (a : Architecture) (w : Word) : a.inRange (a.wrap w) = true := by
  by_cases h : a.inRange w = true
  · rw [wrap_of_inRange h, h]
  · have hbounds := a.residue_bounds w.toInt
    have hlen := a.least_add_period_le
    rw [inRange, Range.contains_iff, toInt_wrap_of_not_inRange h]
    omega

theorem wrap_modEq (a : Architecture) (w : Word) :
    (a.wrap w).toInt ≡ w.toInt [ZMOD a.period] := by
  by_cases h : a.inRange w = true
  · rw [wrap_of_inRange h]
  · rw [toInt_wrap_of_not_inRange h]
    exact a.residue_modEq _

theorem toInt_wrap_binary (w : Word) : (binary.wrap w).toInt = binary.residue w.toInt := by
  have hrange := Range.contains_iff.mp (binary.inRange_wrap w)
  have hgreatest :
      binary.values.greatest.toInt + 1 = binary.values.least.toInt + binary.period := by
    decide
  rw [eq_residue_iff]
  exact ⟨by omega, binary.wrap_modEq w⟩

theorem toInt_signExtend_low (w : Word) :
    ((w.toBitVec.setWidth 32).signExtend 64).toInt = w.toInt.bmod (2 ^ 32) := by
  have hword : w.toInt = (w.toBitVec.toNat : Int).bmod (2 ^ 64) := by
    rw [← Int64.toInt_toBitVec, BitVec.toInt_eq_toNat_bmod]
  rw [BitVec.toInt_signExtend_of_le (by omega), BitVec.toInt_setWidth, hword,
    Int.bmod_bmod_of_dvd (by decide)]

theorem wrap_binary (w : Word) :
    (binary.wrap w).toBitVec = (w.toBitVec.setWidth 32).signExtend 64 := by
  have hlo := Int.le_bmod (x := w.toInt) (m := 2 ^ 32) (by decide)
  have hhi := Int.bmod_lt (x := w.toInt) (m := 2 ^ 32) (by decide)
  have hleast : binary.values.least.toInt = -2 ^ 31 := by decide
  have hperiod : binary.period = 2 ^ 32 := rfl
  apply BitVec.eq_of_toInt_eq
  rw [Int64.toInt_toBitVec, toInt_wrap_binary, toInt_signExtend_low, eq_comm, eq_residue_iff,
    hleast, hperiod]
  exact ⟨by omega, Int.bmod_emod⟩

/-- Wrapping ends in range, differs from the word by a multiple of the period, and does nothing to a
word in range. -/
theorem wrap_reduces (w : Word) :
    (∀ a : Architecture,
      let least := a.values.least.toInt
      let greatest := a.values.greatest.toInt
      (least ≤ (a.wrap w).toInt ∧ (a.wrap w).toInt ≤ greatest) ∧
      (a.wrap w).toInt ≡ w.toInt [ZMOD a.period] ∧
      (least ≤ w.toInt ∧ w.toInt ≤ greatest → a.wrap w = w) ∧
      a.wrap (a.wrap w) = a.wrap w ∧
      -- What is computed for a word out of range, step by step.
      (-2 ^ 127 ≤ w.toInt - least ∧ w.toInt - least < 2 ^ 127) ∧
      (-2 ^ 127 ≤ (w.toInt - least) % a.period ∧ (w.toInt - least) % a.period < 2 ^ 127) ∧
      (-2 ^ 63 ≤ (w.toInt - least) % a.period + least ∧
        (w.toInt - least) % a.period + least < 2 ^ 63) ∧
      (¬ (least ≤ w.toInt ∧ w.toInt ≤ greatest) →
        (a.wrap w).toInt = (w.toInt - least) % a.period + least)) ∧
    (binary.wrap w).toBitVec = (w.toBitVec.setWidth 32).signExtend 64 ∧
    (¬ (-999 ≤ w.toInt ∧ w.toInt ≤ 999) → ∀ n : Int,
      n = (decimal.wrap w).toInt ↔ (-999 ≤ n ∧ n ≤ 998) ∧ n ≡ w.toInt [ZMOD 1998]) := by
  refine ⟨?_, wrap_binary w, ?_⟩
  · intro a least greatest
    have hin : a.inRange w = true ↔ least ≤ w.toInt ∧ w.toInt ≤ greatest := Range.contains_iff
    have hfits : -2 ^ 63 ≤ (w.toInt - least) % a.period + least ∧
        (w.toInt - least) % a.period + least < 2 ^ 63 := a.residue_fits w.toInt
    have hword : -2 ^ 63 ≤ w.toInt ∧ w.toInt < 2 ^ 63 := ⟨w.le_toInt, w.toInt_lt⟩
    have hleast : -2 ^ 63 ≤ least ∧ least < 2 ^ 63 :=
      ⟨a.values.least.le_toInt, a.values.least.toInt_lt⟩
    refine ⟨Range.contains_iff.mp (a.inRange_wrap w), a.wrap_modEq w, ?_, ?_, by omega, by omega,
      hfits, ?_⟩
    · intro h
      exact wrap_of_inRange (hin.mpr h)
    · exact wrap_of_inRange (a.inRange_wrap w)
    · intro h
      exact toInt_wrap_of_not_inRange (mt hin.mp h)
  · intro h n
    have hleast : decimal.values.least.toInt = -999 := by decide
    have hin : decimal.inRange w = true ↔ -999 ≤ w.toInt ∧ w.toInt ≤ 999 := Range.contains_iff
    rw [toInt_wrap_of_not_inRange (mt hin.mp h), eq_residue_iff, hleast]
    simp only [period]
    rw [show n < -999 + ((1998 : Nat) : Int) ↔ n ≤ 998 by omega]
    rfl

example : decimal.wrap 1000 = -998 ∧ decimal.wrap (-1000) = 998 ∧ decimal.wrap 999 = 999 := by
  decide

end Architecture

end LittleMan
