import LittleMan.Architecture

/-!
# Instructions and items

What the words of a program mean. Decoding never fails: a word whose opcode means nothing comes back
as `unknown`, with its parts kept, and it is up to the machine to refuse it. A halt keeps its
operand, which has no effect, so that every word can be encoded again from what it decodes to.

An item is one cell of a program as its writer sees it, either code or data. Memory cannot tell the
two apart, so reading items back from memory is a guess. The guess never changes the word.
-/

namespace LittleMan

/-! ## Extensions and settings -/

/-- Behaviour beyond the standard machine, which can be switched off. -/
inductive Extension
  | outputChar
deriving DecidableEq

namespace Extension

def mnemonic : Extension → String
  | outputChar => "OTC"

/-- The word of the extension's instruction on the decimal machine. -/
def code : Extension → Word
  | outputChar => 922

def flag : Extension → String
  | outputChar => "extensions"

def text (e : Extension) : String :=
  "the non-standard " ++ e.mnemonic ++ " instruction (code " ++ e.code.text ++ ")"

end Extension

structure Settings where
  /-- Take addresses modulo the memory size, instead of refusing those outside. -/
  wrapMemory : Bool := false
  /-- Wrap values that are written to the accumulator or to memory. -/
  wrapValues : Bool := true
  extensions : Bool := true
  /-- Assemble one more halt after the last line. -/
  appendTrailingHalt : Bool := false
deriving DecidableEq, Inhabited

def Settings.allows (s : Settings) : Extension → Bool
  | .outputChar => s.extensions

/-! ## Transfers -/

/-- What an input/output instruction does; its operand says which. -/
inductive Transfer
  | input
  | output
  | outputChar
  | unknown (operand : UInt32)
deriving DecidableEq

namespace Transfer

def meaningful : List UInt32 := [1, 2, 22]

def ofOperand (operand : UInt32) : Transfer :=
  if operand = 1 then input
  else if operand = 2 then output
  else if operand = 22 then outputChar
  else unknown operand

def operand : Transfer → UInt32
  | input => 1
  | output => 2
  | outputChar => 22
  | unknown n => n

def isKnown : Transfer → Bool
  | unknown _ => false
  | _ => true

def extension : Transfer → Option Extension
  | outputChar => some .outputChar
  | _ => none

end Transfer

/-! ## Instructions -/

/-- A decoded word. Instructions that work on memory carry the address. -/
inductive Instruction
  | halt (operand : UInt32)
  | add (address : UInt32)
  | subtract (address : UInt32)
  | store (address : UInt32)
  | load (address : UInt32)
  | branch (address : UInt32)
  | branchIfZero (address : UInt32)
  /-- Go on at an address if the accumulator is not negative. -/
  | branchIfPositive (address : UInt32)
  /-- Exchange the accumulator with the outside. -/
  | transfer (kind : Transfer)
  | unknown (opcode : Int64) (operand : UInt32)
deriving DecidableEq

namespace Instruction

/-- The opcode of an instruction. Opcode 4 has no instruction. -/
def opcode : Instruction → Int64
  | halt _ => 0
  | add _ => 1
  | subtract _ => 2
  | store _ => 3
  | load _ => 5
  | branch _ => 6
  | branchIfZero _ => 7
  | branchIfPositive _ => 8
  | transfer _ => 9
  | unknown opcode _ => opcode

def operand : Instruction → UInt32
  | halt n | add n | subtract n | store n | load n => n
  | branch n | branchIfZero n | branchIfPositive n => n
  | transfer kind => kind.operand
  | unknown _ n => n

def ofParts (opcode : Int64) (operand : UInt32) : Instruction :=
  if opcode = 0 then halt operand
  else if opcode = 1 then add operand
  else if opcode = 2 then subtract operand
  else if opcode = 3 then store operand
  else if opcode = 5 then load operand
  else if opcode = 6 then branch operand
  else if opcode = 7 then branchIfZero operand
  else if opcode = 8 then branchIfPositive operand
  else if opcode = 9 then transfer (.ofOperand operand)
  else unknown opcode operand

def decode (a : Architecture) (w : Word) : Instruction := ofParts (a.opcode w) (a.operand w)

def encode (a : Architecture) (i : Instruction) : Word := a.compose i.opcode i.operand

def isKnown : Instruction → Bool
  | transfer kind => kind.isKnown
  | unknown .. => false
  | _ => true

/-- The operands that an instruction is normally written with, or `none` if it takes any. A halt
with an operand is far more likely to be a small number. -/
def usualOperands : Instruction → Option (List UInt32)
  | halt _ => some [0]
  | transfer _ => some Transfer.meaningful
  | _ => none

def isCanonical (i : Instruction) : Bool :=
  i.isKnown && i.usualOperands.all (·.contains i.operand)

def extension : Instruction → Option Extension
  | transfer kind => kind.extension
  | _ => none

def mnemonic : Instruction → Option String
  | halt _ => some "HLT"
  | add _ => some "ADD"
  | subtract _ => some "SUB"
  | store _ => some "STA"
  | load _ => some "LDA"
  | branch _ => some "BRA"
  | branchIfZero _ => some "BRZ"
  | branchIfPositive _ => some "BRP"
  | transfer .input => some "INP"
  | transfer .output => some "OUT"
  | transfer .outputChar => some "OTC"
  | transfer (.unknown _) => none
  | unknown .. => none

def hidesOperand : Instruction → Bool
  | halt n => n == 0
  | transfer _ => true
  | _ => false

/-- An instruction as it is written in assembly; question marks and the two parts if it cannot
be. -/
def text (i : Instruction) : String :=
  match i.mnemonic with
  | some name => if i.hidesOperand then name else name ++ " " ++ Numeral.ofNat i.operand.toNat
  | none => "??? " ++ Word.text i.opcode ++ ":" ++ Numeral.ofNat i.operand.toNat

end Instruction

/-! ## Items -/

/-- An instruction or a data word of a program. -/
inductive Item
  | code (instruction : Instruction)
  | data (value : Word)
deriving DecidableEq

namespace Item

def encode (a : Architecture) : Item → Word
  | code i => i.encode a
  | data w => w

def text : Item → String
  | code i => i.text
  | data w => "DAT " ++ w.text

/-- Take a word for code exactly if it is an instruction in a canonical form. -/
def guess (a : Architecture) (w : Word) : Item :=
  let i := Instruction.decode a w
  if i.isCanonical then code i else data w

end Item

end LittleMan
