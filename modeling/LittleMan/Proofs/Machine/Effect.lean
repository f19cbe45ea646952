import Mathlib.Tactic.Common
import LittleMan.Proofs.Machine.Request

/-!
# What a step can do

All that a successful step can do to a machine, in one list. Whatever every entry of the list keeps
is kept by every step, and no later proof has to look at the instructions again. And all that a
failing step can complain about: in a memory that has cells at all, an address that is not refused
names one of them.
-/

namespace LittleMan.Machine

variable {C : Type} [Channel C] {m m' : Machine C} {i : Instruction} {f : Fault}

/-! ## Effects -/

/-- What executing an instruction can come to when it succeeds. -/
inductive Effect (m : Machine C) : Machine C → Prop
  | halt : Effect m m.halt
  | compute (w : Word) : Effect m (m.setAcc w)
  | store (index : Nat) (h : index < m.memory.size) :
      Effect m (m.putCell index (m.normalize m.registers.acc))
  | stay : Effect m m
  | branch (address : Int) (index : Nat) (h : m.locate address .jump = .ok index) :
      Effect m (m.moveTo index)
  | transfer (r : Request) (x : Option Word) (c : C) (h : r.put m.channel = .ok x c) :
      Effect m (receive { m with channel := c } x)

/-- Executing touches nothing but the accumulator, the instruction pointer, the memory, the status
and the channel. -/
theorem Effect.frame (h : m.Effect m') :
    ∃ acc ip memory status channel, m' = { m with
      registers := { m.registers with acc := acc, ip := ip }, memory := memory, status := status,
      channel := channel } := by
  cases h with
  | halt | compute w | store index hlt | stay | branch address index hlocate =>
    exact ⟨_, _, _, _, _, rfl⟩
  | transfer r x c hput => cases x <;> exact ⟨_, _, _, _, _, rfl⟩

theorem effect_of_execute (h : execute i m = .ok () m') : m.Effect m' := by
  cases hr : m.requestOf i with
  | some r =>
    rw [execute_of_request hr] at h
    cases hput : r.put m.channel with
    | error e c => rw [hput] at h; cases h
    | ok x c =>
      rw [hput] at h
      cases h
      exact .transfer r x c hput
  | none =>
    cases i with
    | halt n =>
      cases h
      exact .halt
    | add n | subtract n | load n =>
      obtain ⟨w, -, rfl⟩ := compute_eq_ok.mp h
      exact .compute _
    | store n =>
      obtain ⟨index, hlt, -, rfl⟩ := set_eq_ok.mp h
      exact .store index hlt
    | branch n | branchIfZero n | branchIfPositive n =>
      obtain ⟨-, index, hlocate, rfl⟩ | ⟨-, rfl⟩ := branch_eq_ok.mp h
      · exact .branch _ index hlocate
      · exact .stay
    | transfer kind =>
      cases kind with
      | input | output => cases hr
      | outputChar =>
        have hon := (outputChar_eq_ok.mp h).1
        simp [extensions_of_requestOf hr] at hon
      | unknown n => cases h
    | unknown o n => cases h

/-- A successful step is a fetch and one of the effects. -/
theorem step_ok (h : step m = .ok i m') :
    ∃ index w, index < m.memory.size ∧ m.fetch = .ok (index, w) ∧
      i = Instruction.decode m.architecture w ∧ (m.fetched index w).Effect m' := by
  obtain ⟨-, index, w, hfetch, hi, hexecute⟩ := step_eq_ok.mp h
  have hlt := (Array.getElem?_eq_some_iff.mp (fetch_eq_ok.mp hfetch).2).1
  exact ⟨index, w, hlt, hfetch, hi, effect_of_execute hexecute⟩

theorem step_cycles (h : step m = .ok i m') : m'.cycles = m.cycles + 1 := by
  obtain ⟨index, w, -, -, -, heffect⟩ := step_ok h
  obtain ⟨acc, ip, memory, status, channel, rfl⟩ := heffect.frame
  rfl

theorem running_of_step (h : step m = .ok i m') : m.status = .running :=
  (step_eq_ok.mp h).1

/-! ## Faults -/

theorem execute_ne_badIndex (hpos : 0 < m.memory.size) (h : execute i m = .error f m')
    (b : Memory.BadIndex) : f ≠ .badIndex b := by
  cases i with
  | halt n => cases h
  | add n | subtract n | load n =>
    have hget := (get_eq_error_of_pos hpos).mp (compute_eq_error.mp h).2
    simp [(locate_eq_error.mp hget).2]
  | store n =>
    have hset := ((set_eq_error_of_pos hpos).mp h).2
    simp [(locate_eq_error.mp hset).2]
  | branch n | branchIfZero n | branchIfPositive n =>
    obtain ⟨-, -, hlocate⟩ := branch_eq_error.mp h
    simp [(locate_eq_error.mp hlocate).2]
  | transfer kind =>
    cases hr : m.requestOf (.transfer kind) with
    | some r =>
      rw [execute_of_request hr] at h
      cases hput : r.put m.channel with
      | ok x c => rw [hput] at h; cases h
      | error e c =>
        rw [hput] at h
        cases h
        simp
    | none =>
      cases kind with
      | input | output => cases hr
      | outputChar =>
        obtain ⟨-, rfl, -⟩ | ⟨hon, -⟩ := outputChar_eq_error.mp h
        · simp
        · simp [extensions_of_requestOf hr] at hon
      | unknown n =>
        cases h
        simp
  | unknown o n =>
    cases h
    simp

theorem step_ne_badIndex (hpos : 0 < m.memory.size) (h : step m = .error f m')
    (b : Memory.BadIndex) : f ≠ .badIndex b := by
  obtain ⟨-, rfl, -⟩ | ⟨-, ⟨hfetch, -⟩ | ⟨index, w, m₁, -, hexecute, -⟩⟩ := step_eq_error.mp h
  · simp
  · have hlocate := (fetch_eq_error_of_pos hpos).mp hfetch
    simp [(locate_eq_error.mp hlocate).2]
  · exact execute_ne_badIndex (m := m.fetched index w) hpos hexecute b

end LittleMan.Machine
