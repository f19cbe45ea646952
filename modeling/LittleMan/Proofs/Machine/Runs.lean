import Mathlib.Tactic.Common
import LittleMan.Proofs.Machine.Resumption

/-!
# Runs in parts

A run with a budget can be cut anywhere: it is the run with a part of the budget, and from there the
run with the rest. A run that has halted or failed would have ended in the same way with any larger
budget, so the run without one is the limit of those that have one.
-/

namespace LittleMan.Machine

variable {C : Type} {m m' : Machine C} {n k : Nat} {f : Fault}

/-! ## Steps -/

theorem halted_of_not_running (h : m.status ≠ .running) : m.status = .halted := by
  cases hs : m.status with
  | running => exact absurd hs h
  | halted => rfl

variable [Channel C]

theorem steps_of_halted (n : Nat) (h : m.status = .halted) : steps n m = .ok () m := by
  cases n with
  | zero => rfl
  | succ n => rw [steps_succ, if_neg (by simp [h])]

theorem steps_add (n k : Nat) (m : Machine C) :
    steps (n + k) m =
      match steps n m with
      | .ok () m' => steps k m'
      | .error f m' => .error f m' := by
  induction n generalizing m with
  | zero => rw [Nat.zero_add]; rfl
  | succ n ih =>
    rw [Nat.add_right_comm, steps_succ, steps_succ]
    by_cases hm : m.status = .running
    · rw [if_pos hm, if_pos hm]
      cases step m with
      | ok i m' => exact ih m'
      | error f m' => rfl
    · rw [if_neg hm, if_neg hm]
      exact (steps_of_halted k (halted_of_not_running hm)).symm

/-- How a run that does not fail ends: the steps it made are as many as the counter has gone up, and
if there are fewer of them than it was allowed, the machine has halted. -/
theorem steps_ok (h : steps n m = .ok () m') :
    ∃ c, c ≤ n ∧ m'.cycles = m.cycles + c ∧ steps c m = .ok () m' ∧
      (c = n ∨ m'.status = .halted) := by
  induction n generalizing m with
  | zero =>
    cases h
    exact ⟨0, Nat.le_refl 0, rfl, rfl, .inl rfl⟩
  | succ n ih =>
    rw [steps_succ] at h
    split at h
    · cases hm : step m with
      | ok i m₁ =>
        rw [hm] at h
        obtain ⟨c, hc, hcycles, hsteps, hend⟩ := ih h
        refine ⟨c + 1, by omega, ?_, (steps_succ_of_ok c hm).trans hsteps,
          hend.imp_left (by omega)⟩
        rw [hcycles, step_cycles hm]
        omega
      | error f m₁ => rw [hm] at h; cases h
    · rename_i hm
      cases h
      exact ⟨0, by omega, rfl, rfl, .inr (halted_of_not_running hm)⟩

theorem steps_error (h : steps n m = .error f m') :
    ∃ c, c < n ∧ m'.cycles = m.cycles + c ∧ steps (c + 1) m = .error f m' := by
  induction n generalizing m with
  | zero => cases h
  | succ n ih =>
    rw [steps_succ] at h
    split at h
    · rename_i hm
      cases hs : step m with
      | ok i m₁ =>
        rw [hs] at h
        obtain ⟨c, hc, hcycles, hsteps⟩ := ih h
        refine ⟨c + 1, by omega, ?_, (steps_succ_of_ok (c + 1) hs).trans hsteps⟩
        rw [hcycles, step_cycles hs]
        omega
      | error f' m₁ =>
        rw [hs] at h
        cases h
        refine ⟨0, by omega, ?_, by rw [steps_succ, if_pos hm, hs]⟩
        rw [step_error_frame hs]
        rfl
    · cases h

/-- Where a run that fails stops: at a step that fails, after some that are all made. -/
theorem steps_stop (h : steps n m = .error f m') :
    ∃ k s, k < n ∧ m'.cycles = m.cycles + k ∧ steps k m = .ok () s ∧ step s = .error f m' ∧
      ∀ j ≤ k, ∃ s', steps j m = .ok () s' ∧ s'.cycles = m.cycles + j := by
  induction n generalizing m with
  | zero => cases h
  | succ n ih =>
    rw [steps_succ] at h
    split_ifs at h
    cases hs : step m with
    | error f' m₁ =>
      rw [hs] at h
      cases h
      refine ⟨0, m, by omega, ?_, rfl, hs, ?_⟩
      · rw [step_error_frame hs]
        rfl
      · intro j hj
        obtain rfl : j = 0 := by omega
        exact ⟨m, rfl, rfl⟩
    | ok i m₁ =>
      rw [hs] at h
      obtain ⟨k, s, hk, hcycles, hsteps, hstop, hway⟩ := ih h
      have hcount := step_cycles hs
      refine ⟨k + 1, s, by omega, by omega, (steps_succ_of_ok k hs).trans hsteps, hstop, ?_⟩
      rintro (_ | j) hj
      · exact ⟨m, rfl, rfl⟩
      · obtain ⟨s', hs', hcycles'⟩ := hway j (by omega)
        exact ⟨s', (steps_succ_of_ok j hs).trans hs', by omega⟩

theorem steps_of_le_of_halted (h : steps n m = .ok () m') (hm' : m'.status = .halted)
    (hle : n ≤ k) : steps k m = .ok () m' := by
  obtain ⟨r, rfl⟩ := Nat.exists_eq_add_of_le hle
  rw [steps_add, h]
  exact steps_of_halted r hm'

theorem steps_of_le_of_error (h : steps n m = .error f m') (hle : n ≤ k) :
    steps k m = .error f m' := by
  obtain ⟨r, rfl⟩ := Nat.exists_eq_add_of_le hle
  rw [steps_add, h]

/-- If a change to a machine makes no difference to a step that does not fail with certain faults,
it makes none to a run that does not. -/
theorem steps_mapState {D : Type} [Channel D] {g : Machine C → Machine D} {P : Fault → Prop}
    (hstatus : ∀ m, (g m).status = m.status)
    (hstep : ∀ m, (∀ f m', step m = .error f m' → P f) → step (g m) = mapState g (step m))
    (h : ∀ f m', steps n m = .error f m' → P f) : steps n (g m) = mapState g (steps n m) := by
  induction n generalizing m with
  | zero => rfl
  | succ n ih =>
    rw [steps_succ] at h
    rw [steps_succ, steps_succ, hstatus]
    by_cases hm : m.status = .running
    · rw [if_pos hm] at h
      rw [if_pos hm, if_pos hm]
      cases hs : step m with
      | error f m' =>
        rw [hs] at h
        rw [hstep m (by simpa [hs] using h), hs]
        rfl
      | ok i m' =>
        rw [hs] at h
        rw [hstep m (by simp [hs]), hs]
        exact ih h
    · rw [if_neg hm, if_neg hm]
      rfl

/-- The machines that make a step in a run of at most so many steps, in order. -/
def stepped : Nat → Machine C → List (Machine C)
  | 0, _ => []
  | budget + 1, m =>
    if m.status = .running then
      m :: match step m with
        | .ok _ m' => stepped budget m'
        | .error _ _ => []
    else []

/-! ## Counted runs -/

theorem runFor_eq_ok {c : Nat} :
    runFor n m = .ok c m' ↔ steps n m = .ok () m' ∧ c = m'.cycles - m.cycles := by
  rw [runFor_eq]
  cases steps n m with
  | ok u m₁ =>
    simp only [EStateM.Result.ok.injEq, true_and]
    constructor
    · rintro ⟨rfl, rfl⟩
      exact ⟨rfl, rfl⟩
    · rintro ⟨rfl, rfl⟩
      exact ⟨rfl, rfl⟩
  | error f m₁ => simp

theorem runFor_eq_error : runFor n m = .error f m' ↔ steps n m = .error f m' := by
  rw [runFor_eq]
  cases steps n m with
  | ok u m₁ => simp
  | error f m₁ => simp

theorem runLimited_of_room (h : m.cycles + n ≤ maxCycles) : runLimited n m = runFor n m := by
  unfold runLimited
  rw [Nat.min_eq_left (by omega)]

theorem runLimited_ok {c : Nat} (hroom : m.cycles + n ≤ maxCycles)
    (h : runLimited n m = .ok c m') :
    c ≤ n ∧ m'.cycles = m.cycles + c ∧ (c = n ∨ m'.status = .halted) := by
  rw [runLimited_of_room hroom, runFor_eq_ok] at h
  obtain ⟨hsteps, rfl⟩ := h
  obtain ⟨c, hc, hcycles, -, hend⟩ := steps_ok hsteps
  rw [hcycles, Nat.add_sub_cancel_left]
  exact ⟨hc, rfl, hend⟩

theorem runLimited_add (hroom : m.cycles + (n + k) ≤ maxCycles) :
    runLimited (n + k) m =
      match runLimited n m with
      | .ok c m' => EStateM.map (c + ·) (runLimited k) m'
      | .error f m' => .error f m' := by
  rw [runLimited_of_room hroom, runLimited_of_room (by omega), runFor_eq, runFor_eq, steps_add]
  cases hn : steps n m with
  | error f m' => rfl
  | ok u m' =>
    obtain ⟨c, hc, hcycles, -, -⟩ := steps_ok hn
    simp only [EStateM.map]
    rw [runLimited_of_room (by omega), runFor_eq]
    cases hk : steps k m' with
    | error f m'' => rfl
    | ok u m'' =>
      have hle := steps_cycles hk
      have hcount : m''.cycles - m.cycles = m'.cycles - m.cycles + (m''.cycles - m'.cycles) := by
        omega
      simp only [hcount]

theorem runLimited_mapState {D : Type} [Channel D] {g : Machine C → Machine D}
    {P : Fault → Prop} (hstatus : ∀ m, (g m).status = m.status)
    (hcycles : ∀ m, (g m).cycles = m.cycles)
    (hstep : ∀ m, (∀ f m', step m = .error f m' → P f) → step (g m) = mapState g (step m))
    (h : ∀ f m', runLimited n m = .error f m' → P f) :
    runLimited n (g m) = mapState g (runLimited n m) := by
  unfold runLimited at h ⊢
  simp only [runFor_eq_error] at h
  rw [hcycles, runFor_eq, runFor_eq, steps_mapState hstatus hstep h]
  cases steps (min n (maxCycles - m.cycles)) m with
  | error f m' => rfl
  | ok u m' => simp only [mapState, hcycles]

/-! ## Runs without a budget -/

theorem run_eq_ok {c : Nat} (hroom : m'.cycles ≤ maxCycles) :
    run m = .ok c m' ↔ ∃ j, runLimited j m = .ok c m' ∧ m'.status = .halted := by
  unfold run runLimited
  simp only [runFor_eq_ok]
  constructor
  · rintro ⟨hsteps, rfl⟩
    obtain ⟨c, hc, hcycles, hpart, hend⟩ := steps_ok hsteps
    refine ⟨c, ⟨?_, rfl⟩, hend.resolve_left (by omega)⟩
    rw [Nat.min_eq_left (by omega)]
    exact hpart
  · rintro ⟨j, ⟨hsteps, rfl⟩, hhalted⟩
    exact ⟨steps_of_le_of_halted hsteps hhalted (by omega), rfl⟩

theorem runLimited_of_run {c j : Nat} (hroom : m'.cycles ≤ maxCycles) (h : run m = .ok c m')
    (hj : c ≤ j) : runLimited j m = .ok c m' := by
  unfold run at h
  unfold runLimited
  rw [runFor_eq_ok] at h ⊢
  obtain ⟨hsteps, rfl⟩ := h
  obtain ⟨c, hc, hcycles, hpart, hend⟩ := steps_ok hsteps
  exact ⟨steps_of_le_of_halted hpart (hend.resolve_left (by omega)) (by omega), rfl⟩

theorem run_eq_error (hroom : m'.cycles < maxCycles) :
    run m = .error f m' ↔ ∃ j, runLimited j m = .error f m' := by
  unfold run runLimited
  simp only [runFor_eq_error]
  constructor
  · intro hsteps
    obtain ⟨c, hc, hcycles, hpart⟩ := steps_error hsteps
    refine ⟨c + 1, ?_⟩
    rw [Nat.min_eq_left (by omega)]
    exact hpart
  · rintro ⟨j, hsteps⟩
    exact steps_of_le_of_error hsteps (by omega)

end LittleMan.Machine
