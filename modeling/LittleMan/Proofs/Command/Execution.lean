import Mathlib.Tactic.Common
import LittleMan.Command.Plan
import LittleMan.Proofs.Machine.Invariant
import LittleMan.Proofs.Machine.Runs

/-!
# Executions are runs

The run command steps its machine itself, to log each step. Still there is only one way to run a
machine: in one go, in parts, without a limit, or step by step from the command.
-/

namespace LittleMan.Command.Execution

def entryOf (style : Log.Style) (m : Machine Console) : String := (next style m).2

def ofResult {α : Type} : EStateM.Result Fault (Machine Console) α → Execution
  | .ok _ m => { machine := m }
  | .error f m => { machine := m, failure := some (m.registers.ip.toNat, f) }

theorem next_of_ok {style : Log.Style} {m m' : Machine Console} {i : Instruction}
    (h : m.step = .ok i m') : next style m = ({ machine := m' }, entryOf style m) := by
  simp only [entryOf, next, h]

theorem next_of_error {style : Log.Style} {m m' : Machine Console} {f : Fault}
    (h : m.step = .error f m') :
    next style m = ({ machine := m', failure := some (m'.registers.ip.toNat, f) },
      entryOf style m) := by
  have hip : m'.registers = m.registers := by rw [Machine.step_error_frame h]
  simp only [entryOf, next, h, hip]

theorem run_eq (style : Log.Style) (log : String) (limit : Nat) (m : Machine Console) :
    run style log limit m =
      (ofResult (m.steps limit),
        log ++ String.join ((m.stepped limit).map (entryOf style))) := by
  induction limit generalizing m log with
  | zero => simp [run, Machine.steps, Machine.stepped, ofResult]
  | succ limit ih =>
    rw [run, Machine.steps_succ, Machine.stepped]
    split
    · cases hm : m.step with
      | ok i m' =>
        rw [next_of_ok hm]
        simp only [ih, List.map_cons, String.join_cons, String.append_assoc]
      | error f m' =>
        rw [next_of_error hm]
        simp [ofResult]
    · simp [ofResult]

theorem ofResult_runFor (n : Nat) (m : Machine Console) :
    ofResult (m.runFor n) = ofResult (m.steps n) := by
  rw [Machine.runFor_eq]
  cases m.steps n <;> rfl

open Machine in
/-- Runs with a limit add up, a run without one ends as all long enough runs with one do, and the
run command ends as a run with its limit. -/
theorem executions_agree :
    (∀ (C : Type) [Channel C] (m : Machine C) (n k : Nat), m.cycles + n + k < UInt64.size →
      runLimited (n + k) m =
        (do let c ← runLimited n
            let d ← runLimited k
            pure (c + d) : EStateM Fault (Machine C) Nat) m ∧
      ∀ c m', runLimited n m = .ok c m' →
        c ≤ n ∧ m'.cycles = m.cycles + c ∧ (c = n ∨ m'.status = .halted)) ∧
    (∀ (C : Type) [Channel C] (m m' : Machine C) (c : Nat), m'.cycles < UInt64.size →
      (Machine.run m = .ok c m' ↔ ∃ j, runLimited j m = .ok c m' ∧ m'.status = .halted) ∧
      (Machine.run m = .ok c m' → ∀ j, c ≤ j → runLimited j m = .ok c m')) ∧
    (∀ (C : Type) [Channel C] (m m' : Machine C) (f : Fault), m'.cycles + 1 < UInt64.size →
      (Machine.run m = .error f m' ↔ ∃ j, runLimited j m = .error f m')) ∧
    ∀ (a : Architecture) (settings : Settings) (console : Console) (image : List Word)
      (m : Machine Console) (style : Log.Style) (log : String) (limit : Nat),
      load a settings console image = .ok m → limit < UInt64.size →
      run style log limit m =
        (ofResult (runLimited limit m),
          log ++ String.join ((m.stepped limit).map (entryOf style))) := by
  have hmax : maxCycles + 1 = UInt64.size := rfl
  refine ⟨?_, ?_, ?_, ?_⟩
  · intro C _ m n k hroom
    refine ⟨?_, fun c m' h => runLimited_ok (by omega) h⟩
    rw [runLimited_add (by omega)]
    simp only [bind, EStateM.bind, pure, EStateM.pure]
    cases runLimited n m with
    | error f m' => rfl
    | ok c m' => simp only [EStateM.map]
  · intro C _ m m' c hroom
    exact ⟨run_eq_ok (by omega), fun h j => runLimited_of_run (by omega) h⟩
  · intro C _ m m' f hroom
    exact run_eq_error (by omega)
  · intro a settings console image m style log limit hload hlimit
    have hcycles := (sound_load hload).cycles
    rw [run_eq, runLimited_of_room (by omega), ofResult_runFor]

theorem executions_agree_short :
    ∃ m m' r : Machine Console,
      Machine.load .decimal {} { unread := [] } [902, 0] = .ok m ∧
      Machine.load .decimal {} { unread := [] } [400] = .ok r ∧
      m.cycles + 1 + 1 < UInt64.size ∧ m'.cycles < UInt64.size ∧ r.cycles + 1 < UInt64.size ∧
      Machine.runLimited 2 m = .ok 2 m' ∧ Machine.run m = .ok 2 m' ∧
      Machine.runLimited 9 m = .ok 2 m' ∧
      Machine.runLimited (1 + 1) m =
        (do let c ← Machine.runLimited 1
            let d ← Machine.runLimited 1
            pure (c + d) : EStateM Fault (Machine Console) Nat) m ∧
      Machine.run r = .error (.unknownOpcode 4 0) r ∧
      (run { least := .info, coloured := false } "" 9 m).1.machine = m' := by
  have hrun : ∃ m m' r : Machine Console,
      Machine.load .decimal {} { unread := [] } [902, 0] = .ok m ∧
      Machine.load .decimal {} { unread := [] } [400] = .ok r ∧
      Machine.runLimited 2 m = .ok 2 m' ∧ Machine.runLimited 1 r = .error (.unknownOpcode 4 0) r ∧
      m.cycles = 0 ∧ m'.cycles = 2 ∧ r.cycles = 0 ∧ m'.status = .halted :=
    ⟨_, _, _, rfl, rfl, rfl, rfl, rfl, rfl, rfl, rfl⟩
  obtain ⟨m, m', r, hload, hload', hlimited, hfails, hm, hm', hr, hhalted⟩ := hrun
  obtain ⟨hadd, hok, herror, hloop⟩ := executions_agree
  have hsize : UInt64.size = 18446744073709551616 := rfl
  have hrun := (hok Console m m' 2 (by omega)).1.mpr ⟨2, hlimited, hhalted⟩
  have hlong := (hok Console m m' 2 (by omega)).2 hrun 9 (by omega)
  refine ⟨m, m', r, hload, hload', by omega, by omega, by omega, hlimited, hrun, hlong,
    (hadd Console m 1 1 (by omega)).1, (herror Console r r _ (by omega)).mpr ⟨1, hfails⟩, ?_⟩
  rw [hloop _ _ _ _ m _ _ 9 hload (by omega), hlong]
  rfl

end LittleMan.Command.Execution
