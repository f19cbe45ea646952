import LittleMan.Text

/-!
# Words and architectures

A word carries no tag: the same value is an instruction or a plain number, depending on who reads
it. There are two machine layouts. An architecture fixes the number of memory cells, the values that
a cell and the accumulator are meant to hold, and how an opcode and an operand share a word: the
operand is the lowest digit of the word in base `operandLimit`, the opcode is all the rest.
-/

namespace LittleMan

/-! ## Words -/

/-- A memory cell, an accumulator value or an encoded instruction. 64 bits are enough for every
value of either architecture and for sums that are kept as they are when value wrapping is off. -/
abbrev Word := Int64

namespace Word

def ofInt? (i : Int) : Option Word :=
  if Int64.minValue.toInt ≤ i ∧ i ≤ Int64.maxValue.toInt then some (Int64.ofInt i) else none

def read? (text : List Char) : Option Word := (Numeral.integer? text).bind ofInt?

def text (w : Word) : String := Numeral.ofInt w.toInt

end Word

/-- The words from `least` to `greatest`; none if `greatest` is the smaller one. -/
structure Range where
  least : Word
  greatest : Word
deriving DecidableEq

def Range.contains (r : Range) (w : Word) : Bool := r.least ≤ w && w ≤ r.greatest

/-! ## Architectures -/

inductive Architecture
  /-- The classic machine: 100 cells of three decimal digits and a sign. -/
  | decimal
  /-- The wide machine: 65536 cells of 32 bits. -/
  | binary
deriving DecidableEq

namespace Architecture

def name : Architecture → String
  | decimal => "decimal"
  | binary => "binary"

def memorySize : Architecture → Nat
  | decimal => 100
  | binary => 65536

/-- The values that a cell and the accumulator are meant to hold. -/
def values : Architecture → Range
  | decimal => ⟨-999, 999⟩
  | binary => ⟨-2147483648, 2147483647⟩

def operandLimit : Architecture → Nat
  | decimal => 100
  | binary => 134217728

/-- How far apart two values are that wrapping takes for the same. The decimal machine has one
value more than that, so that 1000 wraps to -998 and -1000 to 998. -/
def period : Architecture → Nat
  | decimal => 1998
  | binary => 4294967296

def inRange (a : Architecture) (w : Word) : Bool := a.values.contains w

/-- The word itself if it is in range; otherwise the word that differs from it by a multiple of
`period` and lies in the `period` words from the least value on. -/
def wrap (a : Architecture) (w : Word) : Word :=
  if a.inRange w then w
  else
    let least := a.values.least.toInt
    Int64.ofInt ((w.toInt - least) % a.period + least)

/-- Pack an opcode and an operand into a word. An operand that is too large spills into the
opcode. -/
def compose (a : Architecture) (opcode : Int64) (operand : UInt32) : Word :=
  Int64.ofInt (opcode.toInt * a.operandLimit + operand.toNat)

def opcode (a : Architecture) (w : Word) : Int64 := Int64.ofInt (w.toInt / a.operandLimit)

def operand (a : Architecture) (w : Word) : UInt32 :=
  UInt32.ofNat (w.toInt % a.operandLimit).toNat

end Architecture

end LittleMan
