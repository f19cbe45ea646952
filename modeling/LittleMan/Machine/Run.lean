import LittleMan.Machine.Basic

/-!
# Steps and runs

A step fetches a word, moves on, and executes the instruction that the word stands for. One that
fails puts registers and counters back, so that it can be tried again. A run is many steps: until
the machine halts, a step fails, or a limit is reached.
-/

namespace LittleMan.Machine

variable {C : Type} [Channel C]

/-! ## Instructions -/

def transfer : Transfer → EStateM Fault (Machine C) Unit
  | .input => fun m =>
    match exchange (Channel.readNumber m.inputRange) m with
    | .ok w m => .ok () (m.setAcc w)
    | .error f m => .error f m
  | .output => fun m => exchange (Channel.writeNumber m.registers.acc) m
  | .outputChar => fun m =>
    match m.expectExtension .outputChar with
    | .ok () => exchange (Channel.writeChar m.registers.acc) m
    | .error f => .error f m
  | .unknown operand => fun m => .error (.unknownOperand 9 operand) m

/-- Put a word computed from the cell at an address in the accumulator. -/
def compute (address : UInt32) (f : Word → Word) : EStateM Fault (Machine C) Unit := fun m =>
  match m.get address.toNat with
  | .ok w => .ok () (m.setAcc (f w))
  | .error f => .error f m

def branch (address : UInt32) (taken : Bool) : EStateM Fault (Machine C) Unit := fun m =>
  if taken then jump address.toNat m else .ok () m

def execute (i : Instruction) : EStateM Fault (Machine C) Unit := fun m =>
  match i with
  | .halt _ => .ok () m.halt
  | .add address => compute address (m.registers.acc + ·) m
  | .subtract address => compute address (m.registers.acc - ·) m
  | .store address => set address.toNat m.registers.acc m
  | .load address => compute address id m
  | .branch address => branch address true m
  | .branchIfZero address => branch address (m.registers.acc == 0) m
  | .branchIfPositive address => branch address (0 ≤ m.registers.acc) m
  | .transfer kind => transfer kind m
  | .unknown opcode operand => .error (.unknownOpcode opcode operand) m

/-! ## Steps -/

def fetch (m : Machine C) : Except Fault (Nat × Word) :=
  (m.locate m.registers.ip.toNat .instructionPointer).bind fun index =>
    (m.cell index).map fun w => (index, w)

/-- The machine that has taken up the word `w` at `index` and is about to execute it. -/
def fetched (m : Machine C) (index : Nat) (w : Word) : Machine C :=
  { m with
    registers := ({ m.registers with cir := some w }.jump (UInt64.ofNat index)).advance
    cycles := m.cycles + 1
    last := some (Instruction.decode m.architecture w) }

def cycle : EStateM Fault (Machine C) Instruction := fun m =>
  match m.fetch with
  | .error f => .error f m
  | .ok (index, w) =>
    let i := Instruction.decode m.architecture w
    match execute i (m.fetched index w) with
    | .ok () m => .ok i m
    | .error f m => .error f m

/-- The machine with the registers and counters of `saved`. -/
def rollback (saved m : Machine C) : Machine C :=
  { m with registers := saved.registers, cycles := saved.cycles, last := saved.last }

def step : EStateM Fault (Machine C) Instruction := fun m =>
  if m.status = .running then
    match cycle m with
    | .ok i m' => .ok i m'
    | .error f m' => .error f (m.rollback m')
  else .error (.notRunning m.status) m

/-! ## Runs -/

/-- The greatest number that the cycle counter has room for. -/
def maxCycles : Nat := UInt64.size - 1

def steps : Nat → EStateM Fault (Machine C) Unit
  | 0 => fun m => .ok () m
  | budget + 1 => fun m =>
    if m.status = .running then
      match step m with
      | .ok _ m => steps budget m
      | .error f m => .error f m
    else .ok () m

def runFor (budget : Nat) : EStateM Fault (Machine C) Nat := fun m =>
  let before := m.cycles
  match steps budget m with
  | .ok () m => .ok (m.cycles - before) m
  | .error f m => .error f m

/-- At most `limit` steps, and no more than the cycle counter has room for; the answer is how many
there were. -/
def runLimited (limit : Nat) : EStateM Fault (Machine C) Nat := fun m =>
  runFor (min limit (maxCycles - m.cycles)) m

/-- Steps until the machine halts; the answer is how many there were. A machine that does not halt
is stopped when its cycle counter has no room left. -/
def run : EStateM Fault (Machine C) Nat := fun m => runFor (maxCycles + 1 - m.cycles) m

/-! ## Traces -/

inductive TraceEntry
  /-- The instruction pointer before the step, the instruction, and the accumulator after it. -/
  | step (ip : Nat) (i : Instruction) (acc : Word)
  | fault (f : Fault)

/-- At most `budget` steps behind those of `done`, each of them recorded. A step that fails is the
last one; a machine that does not run fails at once. -/
def traceFrom (done : Array TraceEntry) : Nat → Machine C → Array TraceEntry × Machine C
  | 0, m => (done, m)
  | budget + 1, m =>
    let ip := m.registers.ip.toNat
    match step m with
    | .ok i m => traceFrom (done.push (.step ip i m.registers.acc)) budget m
    | .error f m => (done.push (.fault f), m)

def trace (budget : Nat) (m : Machine C) : List TraceEntry × Machine C :=
  let (entries, m) := traceFrom #[] budget m
  (entries.toList, m)

end LittleMan.Machine
