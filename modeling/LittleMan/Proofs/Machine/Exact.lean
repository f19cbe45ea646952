import Mathlib.Tactic.Common
import LittleMan.Machine.Run

/-!
# What each part of a step comes to

For each part of a step, and for the step itself, when it succeeds and with what, and why it fails.
Later proofs go by these equivalences and do not open the parts again.
-/

namespace LittleMan.Machine

variable {C : Type} {m m' : Machine C} {f : Fault} {access : Access} {address : Int} {k n : Nat}
  {w : Word}

/-! ## Addresses -/

def Admits (m : Machine C) (address : Int) : Prop :=
  m.settings.wrapMemory = true ∨ 0 ≤ address ∧ address < m.memory.size

/-- The index of the cell that an address names if it is not refused. -/
def indexOf (m : Machine C) (address : Int) : Nat := (address % m.memory.size).toNat

theorem admits_natCast : m.Admits n ↔ m.settings.wrapMemory = true ∨ n < m.memory.size := by
  simp [Admits]

theorem indexOf_natCast : m.indexOf n = n % m.memory.size := by
  rw [indexOf, ← Int.natCast_emod, Int.toNat_natCast]

theorem indexOf_lt (hpos : 0 < m.memory.size) (address : Int) :
    m.indexOf address < m.memory.size := by
  have hlo := Int.emod_nonneg address (b := m.memory.size) (by omega)
  have hhi := Int.emod_lt_of_pos address (b := m.memory.size) (by omega)
  unfold indexOf
  omega

theorem locate_eq_ok :
    m.locate address access = .ok k ↔ m.Admits address ∧ k = m.indexOf address := by
  unfold locate Admits indexOf
  split_ifs with hin hwrap
  · rw [Int.emod_eq_of_lt hin.1 hin.2, Except.ok.injEq, and_iff_right (.inr hin), eq_comm]
  · simp [hwrap, eq_comm]
  · simp [hwrap, hin]

theorem locate_eq_error :
    m.locate address access = .error f ↔
      ¬ m.Admits address ∧ f = .outOfBounds access address m.memory.size := by
  unfold locate Admits
  split_ifs with hin hwrap
  · simp [hin]
  · simp [hwrap]
  · simp [hwrap, hin, eq_comm]

theorem locate_lt (hpos : 0 < m.memory.size) (h : m.locate address access = .ok k) :
    k < m.memory.size := by
  obtain ⟨-, rfl⟩ := locate_eq_ok.mp h
  exact indexOf_lt hpos address

/-! ## Cells -/

def putCell (m : Machine C) (index : Nat) (w : Word) : Machine C :=
  { m with memory := m.memory.put index w }

@[simp] theorem size_put (memory : Memory) (index : Nat) (w : Word) :
    (memory.put index w).size = memory.size := by
  simp [Memory.put, Memory.size]

theorem cell_eq_ok : m.cell k = .ok w ↔ m.memory.cells[k]? = some w := by
  unfold cell Memory.read
  cases m.memory.cells[k]? <;> simp [Except.mapError]

theorem cell_eq_error :
    m.cell k = .error f ↔ m.memory.size ≤ k ∧ f = .badIndex ⟨k, m.memory.size⟩ := by
  unfold cell Memory.read Memory.size
  cases hcell : m.memory.cells[k]? with
  | some w =>
    have hlt := (Array.getElem?_eq_some_iff.mp hcell).1
    simp [Except.mapError]
    omega
  | none =>
    have hle := Array.getElem?_eq_none_iff.mp hcell
    simp [Except.mapError, hle, eq_comm]

theorem get_eq_ok :
    m.get address = .ok w ↔
      ∃ k, m.locate address .read = .ok k ∧ m.memory.cells[k]? = some w := by
  unfold get
  cases m.locate address .read <;> simp [Except.bind, cell_eq_ok]

theorem get_eq_error :
    m.get address = .error f ↔
      m.locate address .read = .error f ∨
        ∃ k, m.locate address .read = .ok k ∧ m.cell k = .error f := by
  unfold get
  cases m.locate address .read <;> simp [Except.bind]

theorem set_eq_ok :
    set address w m = .ok () m' ↔
      ∃ k < m.memory.size, m.locate address .write = .ok k ∧ m' = m.putCell k (m.normalize w) := by
  unfold set Memory.write
  cases m.locate address .write with
  | error f => simp
  | ok k =>
    by_cases hk : k < m.memory.size
    · simp [hk, putCell, eq_comm]
    · simp [hk]

theorem set_eq_error :
    set address w m = .error f m' ↔
      m' = m ∧ (m.locate address .write = .error f ∨
        ∃ k, m.locate address .write = .ok k ∧ m.memory.size ≤ k ∧
          f = .badIndex ⟨k, m.memory.size⟩) := by
  unfold set Memory.write
  cases m.locate address .write with
  | error f' => simp [eq_comm, and_comm]
  | ok k =>
    by_cases hk : k < m.memory.size
    · simp [hk, Nat.not_le_of_lt hk]
    · simp [hk, eq_comm, and_comm, Nat.le_of_not_lt hk]

def moveTo (m : Machine C) (index : Nat) : Machine C :=
  { m with registers := m.registers.jump (UInt64.ofNat index) }

theorem jump_eq_ok :
    jump address m = .ok () m' ↔ ∃ k, m.locate address .jump = .ok k ∧ m' = m.moveTo k := by
  unfold jump
  cases m.locate address .jump <;> simp [moveTo, eq_comm]

theorem jump_eq_error :
    jump address m = .error f m' ↔ m' = m ∧ m.locate address .jump = .error f := by
  unfold jump
  cases m.locate address .jump <;> simp [eq_comm, and_comm]

/-! ## Memories that have cells -/

section Positive

variable (hpos : 0 < m.memory.size)
include hpos

theorem cell_ne_error (h : m.locate address access = .ok k) (f : Fault) : m.cell k ≠ .error f := by
  intro hcell
  have hlt := locate_lt hpos h
  have hle := (cell_eq_error.mp hcell).1
  omega

theorem get_eq_error_of_pos :
    m.get address = .error f ↔ m.locate address .read = .error f := by
  rw [get_eq_error, or_iff_left]
  rintro ⟨k, hlocate, hcell⟩
  exact cell_ne_error hpos hlocate f hcell

theorem set_eq_error_of_pos :
    set address w m = .error f m' ↔ m' = m ∧ m.locate address .write = .error f := by
  rw [set_eq_error, or_iff_left]
  rintro ⟨k, hlocate, hle, -⟩
  have hlt := locate_lt hpos hlocate
  omega

end Positive

/-! ## Fetching -/

theorem fetch_eq_ok :
    m.fetch = .ok (k, w) ↔
      m.locate m.registers.ip.toNat .instructionPointer = .ok k ∧
        m.memory.cells[k]? = some w := by
  unfold fetch
  cases m.locate m.registers.ip.toNat .instructionPointer with
  | error f => simp [Except.bind]
  | ok index =>
    rw [← cell_eq_ok, Except.ok.injEq, Except.bind]
    cases hcell : m.cell index with
    | error f =>
      simp only [Except.map, reduceCtorEq, false_iff]
      rintro ⟨rfl, hk⟩
      simp [hcell] at hk
    | ok w' =>
      simp only [Except.map, Except.ok.injEq, Prod.mk.injEq]
      constructor
      · rintro ⟨rfl, rfl⟩
        exact ⟨rfl, hcell⟩
      · rintro ⟨rfl, hk⟩
        exact ⟨rfl, Except.ok.inj (hcell.symm.trans hk)⟩

theorem fetch_eq_error :
    m.fetch = .error f ↔
      m.locate m.registers.ip.toNat .instructionPointer = .error f ∨
        ∃ k, m.locate m.registers.ip.toNat .instructionPointer = .ok k ∧ m.cell k = .error f := by
  unfold fetch
  cases m.locate m.registers.ip.toNat .instructionPointer with
  | error f' => simp [Except.bind]
  | ok k => cases hcell : m.cell k <;> simp [Except.bind, Except.map, hcell]

theorem fetch_eq_error_of_pos (hpos : 0 < m.memory.size) :
    m.fetch = .error f ↔
      m.locate m.registers.ip.toNat .instructionPointer = .error f := by
  rw [fetch_eq_error, or_iff_left]
  rintro ⟨k, hlocate, hcell⟩
  exact cell_ne_error hpos hlocate f hcell

theorem toNat_ip_advance {r : Registers} (h : r.ip.toNat + 1 < UInt64.size) :
    r.advance.ip.toNat = r.ip.toNat + 1 := by
  have hne : r.ip ≠ UInt64.ofNat (UInt64.size - 1) := by
    intro hip
    rw [hip, UInt64.toNat_ofNat_of_lt' (by decide)] at h
    exact absurd h (by decide)
  rw [Registers.advance, if_neg hne]
  rw [UInt64.toNat_add, UInt64.toNat_one, Nat.mod_eq_of_lt h]

theorem toNat_ip_fetched (h : k + 1 < UInt64.size) (w : Word) :
    (m.fetched k w).registers.ip.toNat = k + 1 := by
  have hk : (UInt64.ofNat k).toNat = k := UInt64.toNat_ofNat_of_lt' (by omega)
  have hip := toNat_ip_advance (r := { m.registers with cir := some w }.jump (UInt64.ofNat k))
    (by rw [Registers.jump, hk]; exact h)
  rwa [Registers.jump, hk] at hip

/-! ## Instructions -/

theorem compute_eq_ok {address : UInt32} {g : Word → Word} :
    compute address g m = .ok () m' ↔ ∃ w, m.get address.toNat = .ok w ∧ m' = m.setAcc (g w) := by
  unfold compute
  cases m.get address.toNat <;> simp [eq_comm]

theorem compute_eq_error {address : UInt32} {g : Word → Word} :
    compute address g m = .error f m' ↔ m' = m ∧ m.get address.toNat = .error f := by
  unfold compute
  cases m.get address.toNat <;> simp [eq_comm, and_comm]

theorem branch_eq_ok {address : UInt32} {taken : Bool} :
    branch address taken m = .ok () m' ↔
      (taken = true ∧ ∃ k, m.locate address.toNat .jump = .ok k ∧ m' = m.moveTo k) ∨
        taken = false ∧ m' = m := by
  unfold branch
  cases taken with
  | false => simp [eq_comm]
  | true => simp [jump_eq_ok]

theorem branch_eq_error {address : UInt32} {taken : Bool} :
    branch address taken m = .error f m' ↔
      taken = true ∧ m' = m ∧ m.locate address.toNat .jump = .error f := by
  unfold branch
  cases taken <;> simp [jump_eq_error]

theorem exchange_eq_ok {α : Type} {act : EStateM Channel.Error C α} {x : α} :
    exchange act m = .ok x m' ↔
      ∃ c, act m.channel = .ok x c ∧ m' = { m with channel := c } := by
  unfold exchange
  cases act m.channel <;> simp [eq_comm, and_assoc]

theorem exchange_eq_error {α : Type} {act : EStateM Channel.Error C α} :
    exchange act m = .error f m' ↔
      ∃ e c, act m.channel = .error e c ∧ f = .channel e ∧ m' = { m with channel := c } := by
  unfold exchange
  cases act m.channel <;> simp [eq_comm, and_assoc]

variable [Channel C]

theorem input_eq_ok :
    transfer .input m = .ok () m' ↔
      ∃ w c, Channel.readNumber m.inputRange m.channel = .ok w c ∧
        m' = setAcc { m with channel := c } w := by
  simp only [transfer, exchange]
  cases Channel.readNumber m.inputRange m.channel <;> simp [eq_comm, and_assoc]

theorem input_eq_error :
    transfer .input m = .error f m' ↔
      exchange (Channel.readNumber m.inputRange) m = .error f m' := by
  simp only [transfer]
  cases exchange (Channel.readNumber m.inputRange) m <;> simp

theorem outputChar_eq_ok :
    transfer .outputChar m = .ok () m' ↔
      m.settings.extensions = true ∧
        exchange (Channel.writeChar m.registers.acc) m = .ok () m' := by
  unfold transfer expectExtension Settings.allows
  cases h : m.settings.extensions <;> simp [h]

theorem outputChar_eq_error :
    transfer .outputChar m = .error f m' ↔
      m.settings.extensions = false ∧ f = .extensionDisabled .outputChar ∧ m' = m ∨
      m.settings.extensions = true ∧
        exchange (Channel.writeChar m.registers.acc) m = .error f m' := by
  unfold transfer expectExtension Settings.allows
  cases h : m.settings.extensions <;> simp [h, eq_comm]

/-! ## Steps -/

theorem cycle_eq_ok {i : Instruction} :
    cycle m = .ok i m' ↔
      ∃ k w, m.fetch = .ok (k, w) ∧ i = Instruction.decode m.architecture w ∧
        execute i (m.fetched k w) = .ok () m' := by
  unfold cycle
  rcases m.fetch with f | ⟨k, w⟩
  · simp
  · dsimp only
    cases hexecute : execute (Instruction.decode m.architecture w) (m.fetched k w) with
    | error f m₁ =>
      simp only [reduceCtorEq, Except.ok.injEq, Prod.mk.injEq, false_iff]
      rintro ⟨_, _, ⟨rfl, rfl⟩, rfl, h⟩
      simp [hexecute] at h
    | ok u m₁ =>
      simp only [Except.ok.injEq, Prod.mk.injEq, EStateM.Result.ok.injEq]
      constructor
      · rintro ⟨rfl, rfl⟩
        exact ⟨k, w, ⟨rfl, rfl⟩, rfl, hexecute⟩
      · rintro ⟨_, _, ⟨rfl, rfl⟩, rfl, h⟩
        simpa [hexecute] using h

theorem cycle_eq_error :
    cycle m = .error f m' ↔
      m.fetch = .error f ∧ m' = m ∨
        ∃ k w, m.fetch = .ok (k, w) ∧
          execute (Instruction.decode m.architecture w) (m.fetched k w) = .error f m' := by
  unfold cycle
  rcases m.fetch with f' | ⟨k, w⟩
  · simp [eq_comm]
  · dsimp only
    cases hexecute : execute (Instruction.decode m.architecture w) (m.fetched k w) <;>
      simp [hexecute]

theorem step_eq_ok {i : Instruction} :
    step m = .ok i m' ↔
      m.status = .running ∧ ∃ k w, m.fetch = .ok (k, w) ∧
        i = Instruction.decode m.architecture w ∧ execute i (m.fetched k w) = .ok () m' := by
  rw [← cycle_eq_ok]
  unfold step
  split_ifs with hrunning
  · cases cycle m <;> simp [hrunning]
  · simp [hrunning]

theorem step_eq_error :
    step m = .error f m' ↔
      m.status = .halted ∧ f = .notRunning .halted ∧ m' = m ∨
      m.status = .running ∧ (m.fetch = .error f ∧ m' = m ∨
        ∃ k w m₁, m.fetch = .ok (k, w) ∧
          execute (Instruction.decode m.architecture w) (m.fetched k w) = .error f m₁ ∧
          m' = m.rollback m₁) := by
  have hcycle : (∃ m₁, cycle m = .error f m₁ ∧ m' = m.rollback m₁) ↔
      m.fetch = .error f ∧ m' = m ∨
        ∃ k w m₁, m.fetch = .ok (k, w) ∧
          execute (Instruction.decode m.architecture w) (m.fetched k w) = .error f m₁ ∧
          m' = m.rollback m₁ := by
    simp only [cycle_eq_error]
    constructor
    · rintro ⟨m₁, ⟨hfetch, rfl⟩ | ⟨k, w, hfetch, hexecute⟩, rfl⟩
      · exact .inl ⟨hfetch, rfl⟩
      · exact .inr ⟨k, w, m₁, hfetch, hexecute, rfl⟩
    · rintro (⟨hfetch, rfl⟩ | ⟨k, w, m₁, hfetch, hexecute, rfl⟩)
      · exact ⟨m', .inl ⟨hfetch, rfl⟩, rfl⟩
      · exact ⟨m₁, .inr ⟨k, w, hfetch, hexecute⟩, rfl⟩
  rw [← hcycle]
  unfold step
  cases hstatus : m.status with
  | halted => simp [eq_comm]
  | running => cases cycle m <;> simp [eq_comm]

end LittleMan.Machine
