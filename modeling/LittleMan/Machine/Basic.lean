import LittleMan.Channel.Basic
import LittleMan.Instruction
import LittleMan.Memory

/-!
# Machines

A Little Man Computer: an architecture, its registers and memory, and the channel it reads from and
prints to. What the instructions are made of is here: finding cells, bringing values into range,
and the small operations that change a machine.
-/

namespace LittleMan

/-! ## Faults -/

inductive Status
  | running
  | halted
deriving DecidableEq

def Status.name : Status → String
  | running => "Running"
  | halted => "Halted"

inductive Access
  | read
  | write
  | jump
  | instructionPointer
deriving DecidableEq

def Access.text : Access → String
  | read => "attempt to read"
  | write => "attempt to write"
  | jump => "program branched"
  | instructionPointer => "instruction pointer went"

inductive Fault
  | notRunning (status : Status)
  | outOfBounds (access : Access) (address : Int) (size : Nat)
  | unknownOpcode (opcode : Int64) (operand : UInt32)
  | unknownOperand (opcode : Int64) (operand : UInt32)
  | extensionDisabled (extension : Extension)
  | channel (error : Channel.Error)
  /-- A cell that does not exist was used without looking at its index first. -/
  | badIndex (error : Memory.BadIndex)
deriving DecidableEq

def Fault.message : Fault → String
  | notRunning status => "CPU not running: " ++ status.name
  | outOfBounds access address size =>
    access.text ++ " outside of memory (address " ++ Numeral.ofInt address ++ ", memory size " ++
      Numeral.ofNat size ++ ") (hint: enable `wrap_memory` to wrap addresses)"
  | unknownOpcode opcode operand =>
    "invalid instruction: opcode " ++ Word.text opcode ++ " does not exist (operand " ++
      Numeral.ofNat operand.toNat ++ ")"
  | unknownOperand opcode operand =>
    "invalid operand " ++ Numeral.ofNat operand.toNat ++ " for opcode " ++ Word.text opcode ++
      " (INP/OUT/OTC)"
  | extensionDisabled extension =>
    extension.text ++ " is not enabled (hint: set `" ++ extension.flag ++ "` to enable it)"
  | channel error => "i/o error: " ++ error.message
  | badIndex error => error.message

/-! ## Machines -/

structure Machine (C : Type) where
  architecture : Architecture
  settings : Settings
  registers : Registers
  memory : Memory
  /-- The memory as it was loaded. -/
  initial : Memory
  status : Status
  /-- The number of instructions executed since loading. -/
  cycles : Nat
  last : Option Instruction
  channel : C
deriving DecidableEq

namespace Machine

variable {C : Type}

def load (a : Architecture) (settings : Settings) (channel : C) (image : List Word) :
    Except Memory.ImageTooLarge (Machine C) :=
  (Memory.ofImage image a.memorySize).map fun memory =>
    { architecture := a, settings, registers := {}, memory, initial := memory,
      status := .running, cycles := 0, last := none, channel }

def loadItems (a : Architecture) (settings : Settings) (channel : C) (items : List Item) :
    Except Memory.ImageTooLarge (Machine C) :=
  load a settings channel (items.map (Item.encode a))

/-- The machine as it was loaded, but for the channel, which stays as it is. -/
def reset (m : Machine C) : Machine C :=
  { m with registers := {}, memory := m.initial, status := .running, cycles := 0, last := none }

/-! ## Addresses and values -/

/-- The index of the cell that an address names. Addresses outside memory are taken modulo its size
if the settings say so. -/
def locate (m : Machine C) (address : Int) (access : Access) : Except Fault Nat :=
  if 0 ≤ address ∧ address < m.memory.size then .ok address.toNat
  else if m.settings.wrapMemory then .ok (address % m.memory.size).toNat
  else .error (.outOfBounds access address m.memory.size)

/-- A value as it is stored: wrapped if the settings say so. -/
def normalize (m : Machine C) (w : Word) : Word :=
  if m.settings.wrapValues then m.architecture.wrap w else w

/-- The numbers that are taken as input: those in range if values wrap, and all otherwise. -/
def inputRange (m : Machine C) : Option Range :=
  if m.settings.wrapValues then some m.architecture.values else none

/-! ## Small operations -/

def cell (m : Machine C) (index : Nat) : Except Fault Word :=
  (m.memory.read index).mapError .badIndex

def get (m : Machine C) (address : Int) : Except Fault Word :=
  (m.locate address .read).bind m.cell

def setAcc (m : Machine C) (w : Word) : Machine C :=
  { m with registers := { m.registers with acc := m.normalize w } }

def set (address : Int) (w : Word) : EStateM Fault (Machine C) Unit := fun m =>
  match m.locate address .write with
  | .error f => .error f m
  | .ok index =>
    match m.memory.write index (m.normalize w) with
    | .ok memory => .ok () { m with memory }
    | .error e => .error (.badIndex e) m

def jump (address : Int) : EStateM Fault (Machine C) Unit := fun m =>
  match m.locate address .jump with
  | .error f => .error f m
  | .ok index => .ok () { m with registers := m.registers.jump (UInt64.ofNat index) }

def halt (m : Machine C) : Machine C := { m with status := .halted }

def expectExtension (m : Machine C) (e : Extension) : Except Fault Unit :=
  if m.settings.allows e then .ok () else .error (.extensionDisabled e)

def exchange {α : Type} (act : EStateM Channel.Error C α) : EStateM Fault (Machine C) α := fun m =>
  match act m.channel with
  | .ok x channel => .ok x { m with channel }
  | .error e channel => .error (.channel e) { m with channel }

end Machine

/-! ## Snapshots -/

/-- A machine without its channel and its settings. -/
structure Snapshot where
  architecture : Architecture
  status : Status
  cycles : Nat
  registers : Registers
  last : Option Instruction
  memory : List Word
deriving DecidableEq

namespace Machine

variable {C : Type}

def snapshot (m : Machine C) : Snapshot where
  architecture := m.architecture
  status := m.status
  cycles := m.cycles
  registers := m.registers
  last := m.last
  memory := m.memory.cells.toList

def describe (m : Machine C) : String :=
  "Machine \x7b architecture: \"" ++ m.architecture.name ++ "\", state: " ++ m.status.name ++
    ", cycles: " ++ Numeral.ofNat m.cycles ++ ", regs: " ++ m.registers.describe ++
    ", mem: " ++ m.memory.describe ++ " \x7d"

end Machine

end LittleMan
