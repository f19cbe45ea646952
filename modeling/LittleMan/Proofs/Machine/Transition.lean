import Mathlib.Tactic.Common
import LittleMan.Proofs.Machine.Reached

/-!
# What a step changes

The whole effect of a successful step, part by part: for each part of the machine, the instructions
that change it and what they put there. All other instructions leave that part as it was.
-/

namespace LittleMan.Machine

variable {C : Type}

def target? (m : Machine C) : Instruction → Option UInt32
  | .branch address => some address
  | .branchIfZero address => if m.registers.acc = 0 then some address else none
  | .branchIfPositive address => if 0 ≤ m.registers.acc then some address else none
  | _ => none

def statusAfter (m : Machine C) : Instruction → Status
  | .halt _ => .halted
  | _ => m.status

theorem cells_putCell {m : Machine C} {index : Nat} (h : index < m.memory.size) (w : Word)
    (k : Nat) :
    (m.putCell index w).memory.cells[k]? = if k = index then some w else m.memory.cells[k]? := by
  unfold Memory.size at h
  simp only [putCell, Memory.put, Array.getElem?_setIfInBounds, h, if_true, eq_comm]

variable [Channel C]

/-- What is in the accumulator of `m'` once an instruction is executed on `m`. -/
def AccAfter (m m' : Machine C) : Instruction → Prop
  | .add address =>
    ∃ w, m.get address.toNat = .ok w ∧ m'.registers.acc = m.normalize (m.registers.acc + w)
  | .subtract address =>
    ∃ w, m.get address.toNat = .ok w ∧ m'.registers.acc = m.normalize (m.registers.acc - w)
  | .load address => ∃ w, m.get address.toNat = .ok w ∧ m'.registers.acc = m.normalize w
  | .transfer .input =>
    ∃ w, Channel.readNumber m.inputRange m.channel = .ok w m'.channel ∧
      m'.registers.acc = m.normalize w
  | _ => m'.registers.acc = m.registers.acc

def MemoryAfter (m m' : Machine C) : Instruction → Prop
  | .store address =>
    ∃ index, m.locate address.toNat .write = .ok index ∧
      ∀ k, m'.memory.cells[k]? =
        if k = index then some (m.normalize m.registers.acc) else m.memory.cells[k]?
  | _ => m'.memory = m.memory

def ChannelAfter (m m' : Machine C) : Instruction → Prop
  | .transfer .input => ∃ w, Channel.readNumber m.inputRange m.channel = .ok w m'.channel
  | .transfer .output => Channel.writeNumber m.registers.acc m.channel = .ok () m'.channel
  | .transfer .outputChar => Channel.writeChar m.registers.acc m.channel = .ok () m'.channel
  | _ => m'.channel = m.channel

/-- What executing `i` on `m` comes to: where to go on, if it is not the next cell, and the parts of
the machine `m'` that an instruction can change. -/
structure Transition (m : Machine C) (i : Instruction) (next : Option Nat) (m' : Machine C) :
    Prop where
  next : match m.target? i with
    | some address => ∃ index, m.locate address.toNat .jump = .ok index ∧ next = some index
    | none => next = none
  acc : m.AccAfter m' i
  memory : m.MemoryAfter m' i
  status : m'.status = m.statusAfter i
  channel : m.ChannelAfter m' i

variable {m m' : Machine C} {i : Instruction} {next : Option Nat}

theorem Transition.located (h : m.Transition i next m') :
    ∀ k ∈ next, ∃ address : Int, m.locate address .jump = .ok k := by
  rintro k rfl
  have hnext := h.next
  cases htarget : m.target? i with
  | none => simp [htarget] at hnext
  | some address =>
    simp only [htarget, Option.some.injEq] at hnext
    obtain ⟨index, hlocate, rfl⟩ := hnext
    exact ⟨_, hlocate⟩

theorem Transition.of_fetched {k : Nat} {w : Word} (h : (m.fetched k w).Transition i next m') :
    m.Transition i next m' :=
  ⟨h.next, h.acc, h.memory, h.status, h.channel⟩

theorem transition_of_execute (h : execute i m = .ok () m') :
    ∃ next, m.Transition i next m' ∧
      m'.registers.ip = next.elim m.registers.ip UInt64.ofNat := by
  cases i with
  | halt n =>
    cases h
    exact ⟨none, ⟨rfl, rfl, rfl, rfl, rfl⟩, rfl⟩
  | add address | subtract address | load address =>
    obtain ⟨w, hget, rfl⟩ := compute_eq_ok.mp h
    exact ⟨none, ⟨rfl, ⟨w, hget, rfl⟩, rfl, rfl, rfl⟩, rfl⟩
  | store address =>
    obtain ⟨index, hlt, hlocate, rfl⟩ := set_eq_ok.mp h
    exact ⟨none, ⟨rfl, rfl, ⟨index, hlocate, cells_putCell hlt _⟩, rfl, rfl⟩, rfl⟩
  | branch address =>
    obtain ⟨-, index, hlocate, rfl⟩ | ⟨htaken, -⟩ := branch_eq_ok.mp h
    · exact ⟨some index, ⟨⟨index, hlocate, rfl⟩, rfl, rfl, rfl, rfl⟩, rfl⟩
    · cases htaken
  | branchIfZero address =>
    obtain ⟨htaken, index, hlocate, rfl⟩ | ⟨htaken, rfl⟩ := branch_eq_ok.mp h
    · refine ⟨some index, ⟨?_, rfl, rfl, rfl, rfl⟩, rfl⟩
      simpa [target?, beq_iff_eq.mp htaken] using hlocate
    · refine ⟨none, ⟨?_, rfl, rfl, rfl, rfl⟩, rfl⟩
      simp [target?, beq_eq_false_iff_ne.mp htaken]
  | branchIfPositive address =>
    obtain ⟨htaken, index, hlocate, rfl⟩ | ⟨htaken, rfl⟩ := branch_eq_ok.mp h
    · refine ⟨some index, ⟨?_, rfl, rfl, rfl, rfl⟩, rfl⟩
      simpa [target?, of_decide_eq_true htaken] using hlocate
    · refine ⟨none, ⟨?_, rfl, rfl, rfl, rfl⟩, rfl⟩
      simp [target?, of_decide_eq_false htaken]
  | transfer kind =>
    cases kind with
    | input =>
      obtain ⟨w, c, hread, rfl⟩ := input_eq_ok.mp h
      exact ⟨none, ⟨rfl, ⟨w, hread, rfl⟩, rfl, rfl, ⟨w, hread⟩⟩, rfl⟩
    | output =>
      obtain ⟨c, hwrite, rfl⟩ := exchange_eq_ok.mp h
      exact ⟨none, ⟨rfl, rfl, rfl, rfl, hwrite⟩, rfl⟩
    | outputChar =>
      obtain ⟨-, hact⟩ := outputChar_eq_ok.mp h
      obtain ⟨c, hwrite, rfl⟩ := exchange_eq_ok.mp hact
      exact ⟨none, ⟨rfl, rfl, rfl, rfl, hwrite⟩, rfl⟩
    | unknown n => cases h
  | unknown o n => cases h

/-- A step that succeeds goes on at the cell its instruction branches to, or at the next one, and
changes nothing else than the instruction does. -/
theorem step_transition {a : Architecture} {settings : Settings} {image : List Word}
    {s s' : Machine C} (h : Reached a settings image s) (hs : step s = .ok i s') :
    ∃ index w next,
      s.locate s.registers.ip.toNat .instructionPointer = .ok index ∧
      s.memory.cells[index]? = some w ∧
      i = Instruction.decode a w ∧
      s.Transition i next s' ∧
      s'.registers.ip.toNat = next.getD (index + 1) ∧
      s'.registers.cir = some w ∧
      s'.last = some i ∧
      s'.cycles = s.cycles + 1 ∧
      s'.initial = s.initial ∧
      s'.settings = s.settings ∧
      s'.architecture = s.architecture := by
  obtain ⟨n, hsound⟩ := h.sound
  obtain ⟨hrunning, index, w, hfetch, rfl, hexecute⟩ := step_eq_ok.mp hs
  obtain ⟨hlocate, hcell⟩ := fetch_eq_ok.mp hfetch
  have hlt := locate_lt hsound.pos hlocate
  obtain ⟨next, ht, hip⟩ := transition_of_execute hexecute
  have hip' : s'.registers.ip.toNat = next.getD (index + 1) := by
    rw [hip]
    cases next with
    | none => exact hsound.toNat_ip_fetched hlt w
    | some k =>
      obtain ⟨address, hk⟩ := ht.located k rfl
      have hle := Nat.le_of_lt (locate_lt hsound.pos hk)
      exact toNat_ofNat_of_le (hsound.size ▸ hle)
  obtain ⟨harchitecture, hsettings, hinitial⟩ := step_keeps hs
  obtain ⟨acc, ip, memory, status, channel, rfl⟩ := (effect_of_execute hexecute).frame
  refine ⟨index, w, next, hlocate, hcell, ?_, ht.of_fetched, hip', rfl, rfl, step_cycles hs,
    hinitial, hsettings, harchitecture⟩
  rw [hsound.architecture]

theorem step_transition_overwrites :
    ∃ s s' : Machine Buffer,
      Reached .decimal { wrapMemory := true } [] s ∧ step s = .ok (.store 0) s' ∧
      s.registers.ip = 100 ∧ s.memory.cells[0]? = some 300 ∧ s'.registers.cir = some 300 ∧
      s'.registers.ip.toNat = 1 ∧ s'.memory.cells[0]? = some 7 := by
  have hrun : ∃ m : Machine Buffer,
      load .decimal { wrapMemory := true } (Buffer.ofLines []) [] = .ok m ∧
      let s := m.after [.set 99 598, .jump 99, .step, .set 0 300, .setAcc 7]
      Call.step.answer s = .ok (.instruction (.store 0)) ∧ s.registers.ip = 100 ∧
        s.memory.size = 100 ∧ s.memory.cells[0]? = some 300 ∧
        s.normalize s.registers.acc = 7 :=
    ⟨_, rfl, by decide +kernel⟩
  obtain ⟨m, hload, hanswer, hip, hsize, hcell, hacc⟩ := hrun
  have hreached := (Reached.load hload).after [.set 99 598, .jump 99, .step, .set 0 300, .setAcc 7]
  generalize m.after [.set 99 598, .jump 99, .step, .set 0 300, .setAcc 7] = s at *
  cases hstep : step s with
  | error f s' => simp [Call.answer, Call.respond, EStateM.map, hstep] at hanswer
  | ok i s' =>
    obtain rfl : i = .store 0 := by
      simpa [Call.answer, Call.respond, EStateM.map, hstep] using hanswer
    obtain ⟨index, w, next, hlocate, hw, -, ht, hip', hcir, -⟩ := step_transition hreached hstep
    obtain ⟨k, hk, hcells⟩ := ht.memory
    obtain rfl : next = none := ht.next
    obtain ⟨-, rfl⟩ := locate_eq_ok.mp hlocate
    obtain ⟨-, rfl⟩ := locate_eq_ok.mp hk
    simp only [indexOf, hip, hsize] at hw hip' hcells
    have hw' : s.memory.cells[0]? = some w := hw
    rw [hcell, Option.some.injEq] at hw'
    refine ⟨s, s', hreached, hstep, hip, hcell, hw' ▸ hcir, hip', ?_⟩
    rw [hcells 0, hacc]
    rfl

end LittleMan.Machine
