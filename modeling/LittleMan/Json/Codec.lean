import LittleMan.Json.Printer
import LittleMan.Json.Reader
import LittleMan.Machine.Basic

/-!
# The library's values in JSON

For each type a function to JSON and, where it is read too, one back.
-/

namespace LittleMan

open Json (Value)

/-! ## Instructions -/

def Extension.toJson : Extension → Value
  | outputChar => .string "OutputChar"

def Extension.ofJson? (v : Value) : Option Extension :=
  v.bareChoice? [("OutputChar", outputChar)]

def Transfer.toJson : Transfer → Value
  | input => .string "Input"
  | output => .string "Output"
  | outputChar => .string "OutputChar"
  | unknown operand => .object [("Invalid", .integer operand.toNat)]

def Transfer.ofJson? (v : Value) : Option Transfer :=
  match v.choice? with
  | some ("Invalid", some content) => content.uint32?.map unknown
  | _ => v.bareChoice? [("Input", input), ("Output", output), ("OutputChar", outputChar)]

def Instruction.parts? (v : Value) : Option Instruction :=
  match v.fields? ["opcode", "operand"] with
  | some [some opcode, some operand] => do
    some (.unknown (← opcode.word?) (← operand.uint32?))
  | _ => none

def Instruction.toJson : Instruction → Value
  | halt n => .object [("Hlt", .integer n.toNat)]
  | add n => .object [("Add", .integer n.toNat)]
  | subtract n => .object [("Sub", .integer n.toNat)]
  | store n => .object [("Sta", .integer n.toNat)]
  | load n => .object [("Lda", .integer n.toNat)]
  | branch n => .object [("Bra", .integer n.toNat)]
  | branchIfZero n => .object [("Brz", .integer n.toNat)]
  | branchIfPositive n => .object [("Brp", .integer n.toNat)]
  | transfer kind => .object [("Io", kind.toJson)]
  | unknown opcode n =>
    .object [("Invalid", .object [("opcode", .integer opcode.toInt),
      ("operand", .integer n.toNat)])]

def Instruction.ofJson? (v : Value) : Option Instruction :=
  match v.choice? with
  | some ("Hlt", some content) => content.uint32?.map halt
  | some ("Add", some content) => content.uint32?.map add
  | some ("Sub", some content) => content.uint32?.map subtract
  | some ("Sta", some content) => content.uint32?.map store
  | some ("Lda", some content) => content.uint32?.map load
  | some ("Bra", some content) => content.uint32?.map branch
  | some ("Brz", some content) => content.uint32?.map branchIfZero
  | some ("Brp", some content) => content.uint32?.map branchIfPositive
  | some ("Io", some content) => (Transfer.ofJson? content).map transfer
  | some ("Invalid", some content) => parts? content
  | _ => none

def Item.toJson : Item → Value
  | code i => .object [("Code", i.toJson)]
  | data w => .object [("Data", .integer w.toInt)]

def Item.ofJson? (v : Value) : Option Item :=
  match v.choice? with
  | some ("Code", some content) => (Instruction.ofJson? content).map code
  | some ("Data", some content) => content.word?.map data
  | _ => none

/-! ## Machines -/

def Status.toJson (s : Status) : Value := .string s.name

def Status.ofJson? (v : Value) : Option Status :=
  v.bareChoice? [("Running", running), ("Halted", halted)]

def Access.toJson : Access → Value
  | read => .string "Read"
  | write => .string "Write"
  | jump => .string "Jump"
  | instructionPointer => .string "InstructionPointer"

def Access.ofJson? (v : Value) : Option Access :=
  v.bareChoice? [("Read", read), ("Write", write), ("Jump", jump),
    ("InstructionPointer", instructionPointer)]

def Registers.toJson (r : Registers) : Value :=
  let cir := match r.cir with
    | some w => .integer w.toInt
    | none => .null
  .object [("acc", .integer r.acc.toInt), ("ip", .integer r.ip.toNat), ("cir", cir)]

/-- The word that a value is, or none if there is no value or it is null. -/
def optionalWord? : Option Value → Option (Option Word)
  | none => some none
  | some .null => some none
  | some v => v.word?.map some

def Registers.ofJson? (v : Value) : Option Registers :=
  match v.fields? ["acc", "ip", "cir"] with
  | some [some acc, some ip, cir] => do
    some { acc := ← acc.word?, ip := ← ip.uint64?, cir := ← optionalWord? cir }
  | _ => none

def Memory.toJson (m : Memory) : Value :=
  .object [("cells", .array (m.cells.toList.map fun w => .integer w.toInt))]

def Memory.ofJson? (v : Value) : Option Memory :=
  match v.fields? ["cells"] with
  | some [some (.array cells)] => (cells.mapM Value.word?).map fun words => ⟨words.toArray⟩
  | _ => none

def Snapshot.toJson (s : Snapshot) : Value :=
  let last := match s.last with
    | some i => i.toJson
    | none => .null
  .object [("architecture", .string s.architecture.name), ("state", s.status.toJson),
    ("cycles", .integer s.cycles), ("registers", s.registers.toJson), ("last_instruction", last),
    ("memory", .array (s.memory.map fun w => .integer w.toInt))]

/-! ## Settings -/

def Settings.toJson (s : Settings) : Value :=
  .object [("wrap_memory", .bool s.wrapMemory), ("wrap_values", .bool s.wrapValues),
    ("extensions", .bool s.extensions), ("append_trailing_halt", .bool s.appendTrailingHalt)]

/-- The truth value that a value is, or the default if there is no value. -/
def flag? (default : Bool) : Option Value → Option Bool
  | none => some default
  | some (.bool b) => some b
  | some _ => none

/-- The settings that a value is. All fields may be missing, but no others may be there. -/
def Settings.ofJson? (v : Value) : Option Settings :=
  let default : Settings := {}
  match v.strictFields? ["wrap_memory", "wrap_values", "extensions", "append_trailing_halt"] with
  | some [wrapMemory, wrapValues, extensions, appendTrailingHalt] => do
    some {
      wrapMemory := ← flag? default.wrapMemory wrapMemory
      wrapValues := ← flag? default.wrapValues wrapValues
      extensions := ← flag? default.extensions extensions
      appendTrailingHalt := ← flag? default.appendTrailingHalt appendTrailingHalt }
  | _ => none

end LittleMan
