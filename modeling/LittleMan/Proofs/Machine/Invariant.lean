import Mathlib.Tactic.Common
import LittleMan.Proofs.Machine.Effect
import LittleMan.Proofs.Machine.Resumption

/-!
# What every machine keeps

From outside, a machine only changes by the calls that are made on it. Whatever calls those are
after it was loaded, in whatever order, and whether they succeed or not: its memory keeps its size,
the instruction pointer stays at a cell or right behind the last one, the cycle counter tells the
instructions executed, and the registers remember the last of them. So no call ever uses a cell that
does not exist.
-/

namespace LittleMan.Machine

variable {C : Type} {m m' : Machine C} {a : Architecture} {n : Nat}

/-! ## Sound machines -/

/-- What is true of every machine of architecture `a` that has executed `n` instructions since it
was loaded or reset. -/
structure Sound (m : Machine C) (a : Architecture) (n : Nat) : Prop where
  architecture : m.architecture = a
  size : m.memory.size = a.memorySize
  initial : m.initial.size = a.memorySize
  ip : m.registers.ip.toNat ≤ a.memorySize
  cycles : m.cycles = n
  cir : m.registers.cir = none ↔ n = 0
  last : m.last = m.registers.cir.map (Instruction.decode a)

theorem toNat_ofNat_of_le {k : Nat} (h : k ≤ a.memorySize) : (UInt64.ofNat k).toNat = k := by
  have hsize : a.memorySize ≤ 65536 := by cases a <;> decide
  exact UInt64.toNat_ofNat_of_lt' (by rw [show UInt64.size = 2 ^ 64 from rfl]; omega)

theorem Sound.pos (h : m.Sound a n) : 0 < m.memory.size := by
  rw [h.size]
  cases a <;> decide

theorem sound_load {settings : Settings} {channel : C} {image : List Word}
    (h : load a settings channel image = .ok m) : m.Sound a 0 := by
  unfold load Memory.ofImage Memory.load at h
  split_ifs at h with hfits
  · cases h
    have hsize :
        (image ++ List.replicate ((Memory.zeros a.memorySize).size - image.length) 0).length =
          a.memorySize := by
      simp only [Memory.zeros, Memory.size, Array.size_replicate] at hfits ⊢
      simp only [List.length_append, List.length_replicate]
      omega
    exact ⟨rfl, hsize, hsize, Nat.zero_le _, rfl, by simp, rfl⟩
  · cases h

theorem Sound.reset (h : m.Sound a n) : m.reset.Sound a 0 :=
  ⟨h.architecture, h.initial, h.initial, Nat.zero_le _, rfl, by simp [Machine.reset], rfl⟩

theorem Sound.halt (h : m.Sound a n) : m.halt.Sound a n := { h with }

theorem Sound.setAcc (h : m.Sound a n) (w : Word) : (m.setAcc w).Sound a n := { h with }

theorem Sound.setChannel (h : m.Sound a n) (c : C) : Sound { m with channel := c } a n :=
  { h with }

theorem Sound.putCell (h : m.Sound a n) (index : Nat) (w : Word) :
    (m.putCell index w).Sound a n :=
  { h with size := by simpa [Machine.putCell] using h.size }

theorem Sound.moveTo {index : Nat} (h : m.Sound a n) (hle : index ≤ a.memorySize) :
    (m.moveTo index).Sound a n := by
  refine { h with ip := ?_ }
  simpa [Machine.moveTo, Registers.jump, toNat_ofNat_of_le hle] using hle

theorem Sound.toNat_ip_fetched {index : Nat} (h : m.Sound a n) (hlt : index < m.memory.size)
    (w : Word) : (m.fetched index w).registers.ip.toNat = index + 1 := by
  have hsize : a.memorySize ≤ 65536 := by cases a <;> decide
  rw [h.size] at hlt
  exact Machine.toNat_ip_fetched (by rw [show UInt64.size = 2 ^ 64 from rfl]; omega) w

theorem Sound.fetched {index : Nat} (h : m.Sound a n) (hlt : index < m.memory.size) (w : Word) :
    (m.fetched index w).Sound a (n + 1) where
  architecture := h.architecture
  size := h.size
  initial := h.initial
  ip := by
    rw [h.toNat_ip_fetched hlt, ← h.size]
    exact hlt
  cycles := by simp [Machine.fetched, h.cycles]
  cir := by simp [Machine.fetched, Registers.advance, Registers.jump]
  last := by simp [Machine.fetched, Registers.advance, Registers.jump, h.architecture]

/-! ## Steps -/

variable [Channel C]

theorem Sound.of_effect (h : m.Sound a n) (he : m.Effect m') : m'.Sound a n := by
  cases he with
  | halt => exact h.halt
  | compute w => exact h.setAcc w
  | store index hlt => exact h.putCell index _
  | stay => exact h
  | branch address index hlocate =>
    have hlt := locate_lt h.pos hlocate
    rw [h.size] at hlt
    exact h.moveTo (Nat.le_of_lt hlt)
  | transfer r x c hput =>
    cases x with
    | none => exact h.setChannel c
    | some w => exact (h.setChannel c).setAcc w

theorem Sound.of_step {i : Instruction} (h : m.Sound a n) (hs : step m = .ok i m') :
    m'.Sound a (n + 1) := by
  obtain ⟨index, w, hlt, -, -, heffect⟩ := step_ok hs
  exact (h.fetched hlt w).of_effect heffect

theorem Sound.of_step_error {f : Fault} (h : m.Sound a n) (hs : step m = .error f m') :
    m'.Sound a n := by
  rw [step_error_frame hs]
  exact h.setChannel _

/-! ## Calls -/

inductive Call
  | step
  | run
  | runLimited (limit : Nat)
  | reset
  | halt
  | setAcc (w : Word)
  | get (address : Int)
  | set (address : Int) (w : Word)
  | jump (address : Int)
deriving DecidableEq

/-- The fault that an answer reports, if there is one, and the machine that it leaves behind. -/
def outcome {α : Type} : EStateM.Result Fault (Machine C) α → Option Fault × Machine C
  | .ok _ m => (none, m)
  | .error f m => (some f, m)

@[simp] theorem outcome_ok {α D : Type} (x : α) (m : Machine D) :
    outcome (.ok x m) = (none, m) := rfl

@[simp] theorem outcome_error {α D : Type} (f : Fault) (m : Machine D) :
    outcome (.error f m : EStateM.Result Fault (Machine D) α) = (some f, m) := rfl

def Call.perform (m : Machine C) : Call → Option Fault × Machine C
  | step => outcome (Machine.step m)
  | run => outcome (Machine.run m)
  | runLimited limit => outcome (Machine.runLimited limit m)
  | reset => (none, m.reset)
  | halt => (none, m.halt)
  | setAcc w => (none, m.setAcc w)
  | get address => (match m.get address with | .ok _ => none | .error f => some f, m)
  | set address w => outcome (Machine.set address w m)
  | jump address => outcome (Machine.jump address m)

/-- How many instructions are executed in at most `budget` steps: one for each step before the
machine halts or a step fails. -/
def executed : Nat → Machine C → Nat
  | 0, _ => 0
  | budget + 1, m =>
    if m.status = .running then
      match step m with
      | .ok _ m' => executed budget m' + 1
      | .error _ _ => 0
    else 0

def Call.executed (m : Machine C) : Call → Nat
  | step => Machine.executed 1 m
  | run => Machine.executed (maxCycles + 1 - m.cycles) m
  | runLimited limit => Machine.executed (min limit (maxCycles - m.cycles)) m
  | _ => 0

/-- Make a call on a machine, and count the instructions executed since it was loaded or reset. -/
def Call.count (s : Machine C × Nat) (c : Call) : Machine C × Nat :=
  ((c.perform s.1).2, if c = reset then 0 else s.2 + c.executed s.1)

theorem Sound.of_steps {budget : Nat} (h : m.Sound a n) :
    (outcome (steps budget m)).2.Sound a (n + executed budget m) ∧
      ∀ b, (outcome (steps budget m)).1 ≠ some (.badIndex b) := by
  induction budget generalizing m n with
  | zero => exact ⟨h, by simp [steps]⟩
  | succ budget ih =>
    rw [steps_succ, executed]
    split
    · cases hs : step m with
      | ok i m' =>
        have h' := ih (h.of_step hs)
        rw [Nat.add_assoc, Nat.add_comm 1] at h'
        exact h'
      | error f m' =>
        refine ⟨h.of_step_error hs, ?_⟩
        intro b hb
        exact step_ne_badIndex h.pos hs b (Option.some.inj hb)
    · exact ⟨h, by simp⟩

theorem outcome_runFor (budget : Nat) (m : Machine C) :
    outcome (runFor budget m) = outcome (steps budget m) := by
  rw [runFor_eq]
  cases steps budget m <;> rfl

theorem Sound.of_perform (h : m.Sound a n) (c : Call) :
    (c.perform m).2.Sound a (if c = .reset then 0 else n + c.executed m) ∧
      ∀ b, (c.perform m).1 ≠ some (.badIndex b) := by
  cases c with
  | step =>
    simp only [reduceCtorEq, if_false, Call.perform, Call.executed]
    rw [executed]
    cases hs : step m with
    | ok i m' =>
      rw [if_pos (running_of_step hs)]
      exact ⟨h.of_step hs, by simp⟩
    | error f m' =>
      simp only [ite_self]
      refine ⟨h.of_step_error hs, ?_⟩
      intro b hb
      exact step_ne_badIndex h.pos hs b (Option.some.inj hb)
  | run =>
    simp only [reduceCtorEq, if_false, Call.perform, Call.executed, run, outcome_runFor]
    exact h.of_steps
  | runLimited limit =>
    simp only [reduceCtorEq, if_false, Call.perform, Call.executed, runLimited, outcome_runFor]
    exact h.of_steps
  | reset => exact ⟨h.reset, by simp [Call.perform]⟩
  | halt => exact ⟨h.halt, by simp [Call.perform]⟩
  | setAcc w => exact ⟨h.setAcc w, by simp [Call.perform]⟩
  | get address =>
    refine ⟨h, ?_⟩
    simp only [Call.perform]
    cases hget : m.get address with
    | ok w => simp
    | error f => simp [(locate_eq_error.mp ((get_eq_error_of_pos h.pos).mp hget)).2]
  | set address w =>
    simp only [reduceCtorEq, if_false, Call.perform, Call.executed, Nat.add_zero]
    cases hs : set address w m with
    | ok u m' =>
      obtain ⟨index, -, -, rfl⟩ := set_eq_ok.mp hs
      exact ⟨h.putCell index _, by simp⟩
    | error f m' =>
      obtain ⟨rfl, hlocate⟩ := (set_eq_error_of_pos h.pos).mp hs
      exact ⟨h, by simp [(locate_eq_error.mp hlocate).2]⟩
  | jump address =>
    simp only [reduceCtorEq, if_false, Call.perform, Call.executed, Nat.add_zero]
    cases hs : jump address m with
    | ok u m' =>
      obtain ⟨index, hlocate, rfl⟩ := jump_eq_ok.mp hs
      have hlt := locate_lt h.pos hlocate
      rw [h.size] at hlt
      exact ⟨h.moveTo (Nat.le_of_lt hlt), by simp⟩
    | error f m' =>
      obtain ⟨rfl, hlocate⟩ := jump_eq_error.mp hs
      exact ⟨h, by simp [(locate_eq_error.mp hlocate).2]⟩

theorem Sound.of_calls (h : m.Sound a n) (calls : List Call) :
    (calls.foldl Call.count (m, n)).1.Sound a (calls.foldl Call.count (m, n)).2 := by
  induction calls generalizing m n with
  | nil => exact h
  | cons c calls ih => exact ih (h.of_perform c).1

/-- Every machine that is reached by calls is sound, and no call that is made next uses a cell that
does not exist. -/
theorem calls_sound {settings : Settings} {channel : C} {image : List Word}
    (h : load a settings channel image = .ok m) (calls : List Call) :
    let (m', n) := calls.foldl Call.count (m, 0)
    m'.memory.size = a.memorySize ∧
      m'.registers.ip.toNat ≤ a.memorySize ∧
      m'.cycles = n ∧
      (m'.cycles = 0 ↔ m'.registers.cir = none) ∧
      (m'.registers.cir = none ↔ m'.last = none) ∧
      (∀ w, m'.registers.cir = some w → m'.last = some (Instruction.decode a w)) ∧
      ∀ (c : Call) (b : Memory.BadIndex), (c.perform m').1 ≠ some (.badIndex b) := by
  have hs := (sound_load h).of_calls calls
  revert hs
  generalize calls.foldl Call.count (m, 0) = s
  obtain ⟨m', n⟩ := s
  intro hs
  refine ⟨hs.size, hs.ip, hs.cycles, ?_, ?_, ?_, ?_⟩
  · rw [hs.cycles, hs.cir]
  · rw [hs.last, Option.map_eq_none_iff]
  · intro w hw
    rw [hs.last, hw]
    rfl
  · intro c
    exact (hs.of_perform c).2

theorem calls_sound_behind_last :
    ∃ (m m' : Machine Buffer) (n : Nat),
      load .decimal { wrapMemory := true } (Buffer.ofLines []) [901] = .ok m ∧
      [.set (-1) 598, .jump 99, .step, .run].foldl Call.count (m, 0) = (m', n) ∧
      n = 1 ∧ m'.registers.ip = 100 ∧ m'.registers.cir = some 598 ∧
      m'.memory.size = 100 ∧ m'.cycles = 1 ∧ m'.last = some (.load 98) := by
  have hrun : ∃ (m m' : Machine Buffer) (n : Nat),
      load .decimal { wrapMemory := true } (Buffer.ofLines []) [901] = .ok m ∧
      [.set (-1) 598, .jump 99, .step, .run].foldl Call.count (m, 0) = (m', n) ∧
      n = 1 ∧ m'.registers.ip = 100 ∧ m'.registers.cir = some 598 :=
    ⟨_, _, _, rfl, rfl, by decide +kernel⟩
  obtain ⟨m, m', n, hload, hcalls, rfl, hip, hcir⟩ := hrun
  have hsound := calls_sound hload [.set (-1) 598, .jump 99, .step, .run]
  rw [hcalls] at hsound
  obtain ⟨hsize, -, hcycles, -, -, hlast, -⟩ := hsound
  exact ⟨m, m', 1, hload, hcalls, rfl, hip, hcir, hsize, hcycles, hlast 598 hcir⟩

end LittleMan.Machine
