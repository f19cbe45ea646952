import Mathlib.Tactic.Common
import LittleMan.Proofs.Machine.Runs

/-!
# The loop of a run

Before each step the loop asks whether the machine runs and, if there is a limit, whether its cycle
counter is below it. With a limit, the loop is the run with the budget that the limit leaves. Without
one, it ends exactly if some run with a budget halts or fails, and it ends in the same way.
-/

namespace LittleMan.Machine

variable {C : Type} {m m' : Machine C} {f : Fault} {limit : Option Nat}
  {r : EStateM.Result Fault (Machine C) Unit}

def Goes (limit : Option Nat) (m : Machine C) : Prop :=
  m.status = .running ∧ ∀ l ∈ limit, m.cycles < l

theorem goes_some {l : Nat} : Goes (some l) m ↔ m.status = .running ∧ m.cycles < l := by
  simp [Goes]

theorem goes_none : Goes none m ↔ m.status = .running := by
  simp [Goes]

variable [Channel C]

/-- What the loop comes to. -/
inductive Loops (limit : Option Nat) : Machine C → EStateM.Result Fault (Machine C) Unit → Prop
  | leave {m : Machine C} (hm : ¬ Goes limit m) : Loops limit m (.ok () m)
  | fail {m m' : Machine C} {f : Fault} (hm : Goes limit m) (hs : step m = .error f m') :
    Loops limit m (.error f m')
  | next {m m' : Machine C} {i : Instruction} {r : EStateM.Result Fault (Machine C) Unit}
    (hm : Goes limit m) (hs : step m = .ok i m') (h : Loops limit m' r) : Loops limit m r

/-! ## With a limit -/

theorem loops_steps (l : Nat) (m : Machine C) : Loops (some l) m (steps (l - m.cycles) m) := by
  -- Each step raises the counter by one, so the budget is used up when the limit is reached.
  induction hbudget : l - m.cycles generalizing m with
  | zero => exact .leave fun hm => by have := (goes_some.mp hm).2; omega
  | succ n ih =>
    rw [steps_succ]
    by_cases hm : m.status = .running
    · rw [if_pos hm]
      have hgoes : Goes (some l) m := goes_some.mpr ⟨hm, by omega⟩
      cases hs : step m with
      | ok i m' =>
        have hcycles := step_cycles hs
        exact .next hgoes hs (ih m' (by omega))
      | error f m' => exact .fail hgoes hs
    · rw [if_neg hm]
      exact .leave fun hgoes => hm hgoes.1

theorem Loops.unique {r' : EStateM.Result Fault (Machine C) Unit} (h : Loops limit m r)
    (h' : Loops limit m r') : r = r' := by
  induction h with
  | leave hm =>
    cases h' with
    | leave => rfl
    | fail hm' => exact absurd hm' hm
    | next hm' => exact absurd hm' hm
  | fail hm hs =>
    cases h' with
    | leave hm' => exact absurd hm hm'
    | fail hm' hs' =>
      rw [hs] at hs'
      cases hs'
      rfl
    | next hm' hs' => rw [hs] at hs'; cases hs'
  | next hm hs _ ih =>
    cases h' with
    | leave hm' => exact absurd hm hm'
    | fail hm' hs' => rw [hs] at hs'; cases hs'
    | next hm' hs' hrest =>
      rw [hs] at hs'
      cases hs'
      exact ih hrest

theorem loops_some {l : Nat} : Loops (some l) m r ↔ steps (l - m.cycles) m = r := by
  constructor
  · exact (loops_steps l m).unique
  · rintro rfl
    exact loops_steps l m

/-- The limit is as far ahead as it is asked to be, unless the counter has no room for it. -/
theorem loops_saturated {n : Nat} :
    Loops (some (min (m.cycles + n) maxCycles)) m r ↔
      steps (min n (maxCycles - m.cycles)) m = r := by
  have hbudget : min (m.cycles + n) maxCycles - m.cycles = min n (maxCycles - m.cycles) := by omega
  rw [loops_some, hbudget]

theorem runLimited_eq_ok {n c : Nat} :
    runLimited n m = .ok c m' ↔
      Loops (some (min (m.cycles + n) maxCycles)) m (.ok () m') ∧ c = m'.cycles - m.cycles := by
  rw [runLimited, runFor_eq_ok, loops_saturated]

theorem runLimited_eq_error {n : Nat} :
    runLimited n m = .error f m' ↔
      Loops (some (min (m.cycles + n) maxCycles)) m (.error f m') := by
  rw [runLimited, runFor_eq_error, loops_saturated]

/-! ## Without a limit -/

/-- Nothing is left to do: the machine has halted, or a step has failed. -/
def Ended : EStateM.Result Fault (Machine C) Unit → Prop
  | .ok () m => m.status = .halted
  | .error _ _ => True

theorem loops_of_ended {n : Nat} (h : Ended (steps n m)) : Loops none m (steps n m) := by
  induction n generalizing m with
  | zero =>
    have hm : m.status = .halted := h
    exact .leave fun hgoes => by simp [goes_none, hm] at hgoes
  | succ n ih =>
    rw [steps_succ] at h ⊢
    by_cases hm : m.status = .running
    · rw [if_pos hm] at h ⊢
      cases hs : step m with
      | ok i m' =>
        rw [hs] at h
        exact .next (goes_none.mpr hm) hs (ih h)
      | error f m' => exact .fail (goes_none.mpr hm) hs
    · rw [if_neg hm]
      exact .leave fun hgoes => hm hgoes.1

theorem Loops.exists_steps (h : Loops none m r) : ∃ n, steps n m = r ∧ Ended r := by
  induction h with
  | leave hm => exact ⟨0, rfl, halted_of_not_running fun hrunning => hm (goes_none.mpr hrunning)⟩
  | fail hm hs => exact ⟨1, by rw [steps_succ, if_pos hm.1, hs], trivial⟩
  | next hm hs _ ih =>
    obtain ⟨n, hsteps, hended⟩ := ih
    exact ⟨n + 1, (steps_succ_of_ok n hs).trans hsteps, hended⟩

theorem loops_none : Loops none m r ↔ ∃ n, steps n m = r ∧ Ended r := by
  constructor
  · exact Loops.exists_steps
  · rintro ⟨n, rfl, hended⟩
    exact loops_of_ended hended

/-- As long as the counter has room, the run without a budget is the loop without a limit. -/
theorem run_eq_ok_iff_loops {c : Nat} (hroom : m'.cycles ≤ maxCycles) :
    run m = .ok c m' ↔ Loops none m (.ok () m') ∧ c = m'.cycles - m.cycles := by
  rw [loops_none]
  constructor
  · intro h
    obtain ⟨j, hj, hhalted⟩ := (run_eq_ok hroom).mp h
    rw [runLimited, runFor_eq_ok] at hj
    exact ⟨⟨_, hj.1, hhalted⟩, hj.2⟩
  · rintro ⟨⟨n, hsteps, hhalted⟩, rfl⟩
    obtain ⟨k, -, hcycles, hk, -⟩ := steps_ok hsteps
    rw [run, runFor_eq_ok]
    exact ⟨steps_of_le_of_halted hk hhalted (by omega), rfl⟩

theorem run_eq_error_iff_loops (hroom : m'.cycles < maxCycles) :
    run m = .error f m' ↔ Loops none m (.error f m') := by
  rw [loops_none]
  constructor
  · intro h
    exact ⟨_, runFor_eq_error.mp h, trivial⟩
  · rintro ⟨n, hsteps, -⟩
    obtain ⟨k, hk, hcycles, hfail⟩ := steps_error hsteps
    rw [run, runFor_eq_error]
    exact steps_of_le_of_error hfail (by omega)

end LittleMan.Machine
