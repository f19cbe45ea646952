import Mathlib.Tactic.Common
import LittleMan.Architecture

/-!
# Bubbling up

One pass over a list exchanges neighbours that are out of order, with the greatest word so far in
hand. It keeps the words, leaves a sorted list alone, and takes inversions out of any other list, so
passes come to an end.
-/

namespace LittleMan.Sorting

variable {x y : Word} {l : List Word}

/-- One pass over a list, with `x` in hand. -/
def bubble (x : Word) : List Word → List Word
  | [] => [x]
  | y :: rest => if x ≤ y then x :: bubble y rest else y :: bubble x rest

/-- The number of pairs of words that are out of order. -/
def inversions : List Word → Nat
  | [] => 0
  | x :: rest => rest.countP (· < x) + inversions rest

theorem bubble_perm (x : Word) (l : List Word) : (bubble x l).Perm (x :: l) := by
  induction l generalizing x with
  | nil => exact .refl _
  | cons y rest ih =>
    rw [bubble]
    split_ifs
    · exact (ih y).cons x
    · exact ((ih x).cons y).trans (.swap x y rest)

theorem pairwise_cons_cons :
    (x :: y :: l).Pairwise (· ≤ ·) ↔ x ≤ y ∧ (y :: l).Pairwise (· ≤ ·) := by
  constructor
  · intro h
    exact ⟨List.rel_of_pairwise_cons h List.mem_cons_self, h.of_cons⟩
  · rintro ⟨hxy, h⟩
    refine .cons ?_ h
    intro z hz
    rcases List.mem_cons.mp hz with rfl | hz
    · exact hxy
    · exact Int64.le_trans hxy (List.rel_of_pairwise_cons h hz)

theorem bubble_of_sorted (h : (x :: l).Pairwise (· ≤ ·)) : bubble x l = x :: l := by
  induction l generalizing x with
  | nil => rfl
  | cons y rest ih =>
    obtain ⟨hxy, hrest⟩ := pairwise_cons_cons.mp h
    rw [bubble, if_pos hxy, ih hrest]

theorem inversions_bubble (x : Word) (l : List Word) :
    inversions (bubble x l) ≤ inversions (x :: l) ∧
      (¬ (x :: l).Pairwise (· ≤ ·) → inversions (bubble x l) < inversions (x :: l)) := by
  induction l generalizing x with
  | nil => simp [bubble]
  | cons y rest ih =>
    rw [bubble]
    split_ifs with hxy
    · have hcount := (bubble_perm y rest).countP_eq (· < x)
      obtain ⟨hle, hlt⟩ := ih y
      rw [inversions, inversions, hcount]
      refine ⟨by omega, ?_⟩
      intro h
      have hrest := hlt fun hsorted => h (pairwise_cons_cons.mpr ⟨hxy, hsorted⟩)
      omega
    · -- The pair that is exchanged is an inversion, and all other pairs stay in their order.
      have hcount := (bubble_perm x rest).countP_eq (· < y)
      have hyx : y < x := Int64.not_le.mp hxy
      have hle := (ih x).1
      have hnot : ¬ x < y := Int64.not_lt.mpr (Int64.le_of_lt hyx)
      rw [inversions, hcount]
      simp only [inversions, List.countP_cons, hyx, hnot, decide_true, decide_false, if_true,
        Bool.false_eq_true, if_false] at hle ⊢
      omega

theorem inversions_le (l : List Word) : inversions l ≤ l.length * l.length := by
  induction l with
  | nil => simp [inversions]
  | cons x rest ih =>
    have hcount : rest.countP (· < x) ≤ rest.length := List.countP_le_length
    rw [inversions, List.length_cons]
    grind

end LittleMan.Sorting
