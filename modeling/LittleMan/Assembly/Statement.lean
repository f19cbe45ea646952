import LittleMan.Instruction

/-!
# Statements

What the words of a line are. A line holds a label, an opcode and an operand, each of which may be
missing:

    // a comment
            INP             // read a number
    loop    LDA x           // a label stands in front
    done:   HLT             // and may end in a colon
    x       DAT             // a data word, zero if it has no value

A word that stands alone and is no mnemonic is a label of what comes next. Mnemonics are written in
capitals.
-/

namespace LittleMan

/-! ## Mnemonics -/

/-- What an instruction is written to do, leaving its operand aside. -/
inductive Operation
  | halt
  | add
  | subtract
  | store
  | load
  | branch
  | branchIfZero
  | branchIfPositive
  | input
  | output
  | outputChar
deriving DecidableEq

namespace Operation

def name : Operation → String
  | halt => "HLT"
  | add => "ADD"
  | subtract => "SUB"
  | store => "STA"
  | load => "LDA"
  | branch => "BRA"
  | branchIfZero => "BRZ"
  | branchIfPositive => "BRP"
  | input => "INP"
  | output => "OUT"
  | outputChar => "OTC"

def requiresOperand : Operation → Bool
  | halt | input | output | outputChar => false
  | _ => true

/-- Whether an operation brings its own operand and ignores the one it is written with. -/
def isTransfer : Operation → Bool
  | input | output | outputChar => true
  | _ => false

def extension : Operation → Option Extension
  | outputChar => some .outputChar
  | _ => none

def instruction (operand : UInt32) : Operation → Instruction
  | halt => .halt operand
  | add => .add operand
  | subtract => .subtract operand
  | store => .store operand
  | load => .load operand
  | branch => .branch operand
  | branchIfZero => .branchIfZero operand
  | branchIfPositive => .branchIfPositive operand
  | input => .transfer .input
  | output => .transfer .output
  | outputChar => .transfer .outputChar

end Operation

inductive Mnemonic
  | code (operation : Operation)
  | data
deriving DecidableEq

namespace Mnemonic

/-- The mnemonic that a word is. There are two words for a store. -/
def ofWord? : String → Option Mnemonic
  | "HLT" => some (code .halt)
  | "ADD" => some (code .add)
  | "SUB" => some (code .subtract)
  | "STA" => some (code .store)
  | "STO" => some (code .store)
  | "LDA" => some (code .load)
  | "BRA" => some (code .branch)
  | "BRZ" => some (code .branchIfZero)
  | "BRP" => some (code .branchIfPositive)
  | "INP" => some (code .input)
  | "OUT" => some (code .output)
  | "OTC" => some (code .outputChar)
  | "DAT" => some data
  | _ => none

def name : Mnemonic → String
  | code operation => operation.name
  | data => "DAT"

def requiresOperand : Mnemonic → Bool
  | code operation => operation.requiresOperand
  | data => false

def extension : Mnemonic → Option Extension
  | code operation => operation.extension
  | data => none

/-- The instruction that a mnemonic makes of an operand; none for a data word. -/
def instruction? (operand : UInt32) : Mnemonic → Option Instruction
  | code operation => some (operation.instruction operand)
  | data => none

end Mnemonic

namespace Assembly

/-! ## Errors -/

inductive Flaw
  /-- There are more words on it than a label, an opcode and an operand. -/
  | tooManyWords
  | emptyLabel
  | notAnOpcode (word : String)
  /-- One of two words has to be an opcode, and neither is. -/
  | noOpcode (first second : String)
  | repeatedLabel (label : String)
  /-- An operand is not a number, nor a label that is defined. -/
  | undefinedLabel (label : String)
  | missingOperand (operation : Operation)
  | extensionDisabled (extension : Extension)
  | operandOutOfRange (operand : Word) (limit : Nat)
  | notAnInstruction (mnemonic : Mnemonic)
deriving DecidableEq

inductive Error
  /-- There is something wrong with a line; lines are counted from one. -/
  | flaw (line : Nat) (what : Flaw)
  | programTooLarge (size capacity : Nat)
deriving DecidableEq

def Flaw.message (line : Nat) : Flaw → String
  | tooManyWords =>
    "syntax error on line " ++ Numeral.ofNat line ++
      ": expected `[label] [opcode [operand]]`, space-separated"
  | emptyLabel => "syntax error on line " ++ Numeral.ofNat line ++ ": empty label"
  | notAnOpcode word =>
    "unknown opcode on line " ++ Numeral.ofNat line ++ ": `" ++ word ++ "` is not a valid opcode"
  | noOpcode first second =>
    "unknown opcode on line " ++ Numeral.ofNat line ++
      ": none of `" ++ first ++ "`, `" ++ second ++ "` is a valid opcode"
  | repeatedLabel label =>
    "label `" ++ label ++ "` on line " ++ Numeral.ofNat line ++ " is used more than once"
  | undefinedLabel label =>
    "undefined label on line " ++ Numeral.ofNat line ++ ": `" ++ label ++ "`"
  | missingOperand operation =>
    operation.name ++ " on line " ++ Numeral.ofNat line ++ " requires an operand"
  | extensionDisabled extension =>
    "line " ++ Numeral.ofNat line ++ " uses " ++ extension.text ++
      ", which is not enabled (hint: set `" ++ extension.flag ++ "` to enable it)"
  | operandOutOfRange operand limit =>
    "operand out of range on line " ++ Numeral.ofNat line ++ ": " ++ operand.text ++
      " (expected 0.." ++ Numeral.ofNat limit ++ ")"
  | notAnInstruction mnemonic =>
    "syntax error on line " ++ Numeral.ofNat line ++
      ": `" ++ mnemonic.name ++ "` is not an instruction"

def Error.message : Error → String
  | flaw line what => what.message line
  | programTooLarge size capacity =>
    "program of " ++ Numeral.ofNat size ++ " words doesn't fit in the " ++
      Numeral.ofNat capacity ++ "-word memory"

def Error.line? : Error → Option Nat
  | flaw line _ => some line
  | programTooLarge .. => none

/-! ## Statements -/

/-- The words of a line, told apart. Whether they are any good is not looked at. -/
structure Statement where
  label : Option String
  opcode : Option String
  operand : Option String
deriving DecidableEq

def isMnemonic (word : String) : Bool := (Mnemonic.ofWord? word).isSome

def wordsOf (line : List Char) : List String :=
  (Text.words (Text.uncommented line)).map String.ofList

def Statement.ofWords : List String → Except Flaw Statement
  | [] => .ok ⟨none, none, none⟩
  | [word] => .ok (if isMnemonic word then ⟨none, word, none⟩ else ⟨word, none, none⟩)
  | [first, second] =>
    if isMnemonic first then .ok ⟨none, first, second⟩
    else if isMnemonic second then .ok ⟨first, second, none⟩
    else .error (.noOpcode first second)
  | [label, opcode, operand] => .ok ⟨label, opcode, operand⟩
  | _ => .error .tooManyWords

def labelName (label : String) : String :=
  if label.toList.getLast? = some ':' then String.ofList label.toList.dropLast else label

inductive Operand
  | number (value : Word)
  | label (name : String)
deriving DecidableEq

/-- A word is a number if it can be read as one, and a label otherwise. -/
def Operand.ofWord (word : String) : Operand :=
  match Word.read? word.toList with
  | some w => number w
  | none => label word

end Assembly

end LittleMan
