import Mathlib.Tactic.Common
import LittleMan.Proofs.Machine.Invariant
import LittleMan.Proofs.Machine.Runs

/-!
# Histories

The machines that calls go through, down to each step of each run. What everything a machine can do
keeps is true of all of them.
-/

namespace LittleMan.Machine

variable {C : Type} {m m' : Machine C}

variable [Channel C]

def Call.budget (m : Machine C) : Call → Nat
  | step => 1
  | run => maxCycles + 1 - m.cycles
  | runLimited limit => min limit (maxCycles - m.cycles)
  | _ => 0

def after (m : Machine C) (calls : List Call) : Machine C :=
  calls.foldl (fun m c => (c.perform m).2) m

/-- The machines that make a step while calls are carried out, in order. -/
def history (m : Machine C) : List Call → List (Machine C)
  | [] => []
  | c :: calls => m.stepped (c.budget m) ++ history (c.perform m).2 calls

theorem outcome_step (m : Machine C) : (outcome (step m)).2 = (outcome (steps 1 m)).2 := by
  rw [steps_succ]
  split
  · cases step m <;> rfl
  · rename_i hm
    have hhalted : m.status = .halted := halted_of_not_running hm
    rw [step_eq_error.mpr (.inl ⟨hhalted, rfl, rfl⟩)]
    rfl

/-! ## Invariants -/

/-- What everything a machine can do keeps. -/
structure Invariant (P : Machine C → Prop) : Prop where
  step {m m' : Machine C} {i : Instruction} : P m → Machine.step m = .ok i m' → P m'
  channel {m : Machine C} (c : C) : P m → P { m with channel := c }
  reset {m : Machine C} : P m → P m.reset
  halt {m : Machine C} : P m → P m.halt
  setAcc {m : Machine C} (w : Word) : P m → P (m.setAcc w)
  set {m m' : Machine C} {address : Int} {w : Word} :
    P m → Machine.set address w m = .ok () m' → P m'
  jump {m m' : Machine C} {address : Int} : P m → Machine.jump address m = .ok () m' → P m'

/-- What every call keeps, and every step of it, whether it succeeds or not. Unlike an invariant, it
may hang on what the channel holds. -/
structure Persists (P : Machine C → Prop) : Prop where
  step {m m' : Machine C} {i : Instruction} : P m → Machine.step m = .ok i m' → P m'
  refused {m m' : Machine C} {f : Fault} : P m → Machine.step m = .error f m' → P m'
  reset {m : Machine C} : P m → P m.reset
  halt {m : Machine C} : P m → P m.halt
  setAcc {m : Machine C} (w : Word) : P m → P (m.setAcc w)
  set {m m' : Machine C} {address : Int} {w : Word} :
    P m → Machine.set address w m = .ok () m' → P m'
  jump {m m' : Machine C} {address : Int} : P m → Machine.jump address m = .ok () m' → P m'

variable {P : Machine C → Prop}

theorem Invariant.persists (h : Invariant P) : Persists P where
  step := h.step
  refused hm hs := by
    rw [step_error_frame hs]
    exact h.channel _ hm
  reset := h.reset
  halt := h.halt
  setAcc := h.setAcc
  set := h.set
  jump := h.jump

theorem Persists.of_steps (h : Persists P) (n : Nat) (hm : P m) :
    P (outcome (steps n m)).2 ∧ ∀ s ∈ m.stepped n, P s := by
  induction n generalizing m with
  | zero => exact ⟨hm, by simp [stepped]⟩
  | succ n ih =>
    rw [steps_succ, stepped]
    split
    · cases hs : Machine.step m with
      | ok i m' =>
        obtain ⟨hend, hway⟩ := ih (h.step hm hs)
        exact ⟨hend, by simpa [hm] using hway⟩
      | error f m' => exact ⟨h.refused hm hs, by simpa using hm⟩
    · exact ⟨hm, by simp⟩

theorem Persists.of_perform (h : Persists P) (hm : P m) (c : Call) : P (c.perform m).2 := by
  cases c with
  | step =>
    simp only [Call.perform, outcome_step]
    exact (h.of_steps 1 hm).1
  | run =>
    simp only [Call.perform, run, outcome_runFor]
    exact (h.of_steps _ hm).1
  | runLimited limit =>
    simp only [Call.perform, runLimited, outcome_runFor]
    exact (h.of_steps _ hm).1
  | reset => exact h.reset hm
  | halt => exact h.halt hm
  | setAcc w => exact h.setAcc w hm
  | get address => exact hm
  | set address w =>
    simp only [Call.perform]
    cases hs : Machine.set address w m with
    | ok u m' => exact h.set hm hs
    | error f m' =>
      obtain ⟨rfl, -⟩ := set_eq_error.mp hs
      exact hm
  | jump address =>
    simp only [Call.perform]
    cases hs : Machine.jump address m with
    | ok u m' => exact h.jump hm hs
    | error f m' =>
      obtain ⟨rfl, -⟩ := jump_eq_error.mp hs
      exact hm

/-- What persists is true of a machine after any calls, and at each step on the way. -/
theorem Persists.of_calls (h : Persists P) (hm : P m) (calls : List Call) :
    P (m.after calls) ∧ ∀ s ∈ m.history calls, P s := by
  induction calls generalizing m with
  | nil => exact ⟨hm, by simp [history]⟩
  | cons c calls ih =>
    obtain ⟨hend, hway⟩ := ih (h.of_perform hm c)
    refine ⟨hend, ?_⟩
    intro s hs
    rcases List.mem_append.mp hs with hs | hs
    · exact (h.of_steps _ hm).2 s hs
    · exact hway s hs

theorem Invariant.of_perform (h : Invariant P) (hm : P m) (c : Call) : P (c.perform m).2 :=
  h.persists.of_perform hm c

theorem Invariant.of_calls (h : Invariant P) (hm : P m) (calls : List Call) :
    P (m.after calls) ∧ ∀ s ∈ m.history calls, P s :=
  h.persists.of_calls hm calls

end LittleMan.Machine
