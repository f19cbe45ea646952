import LittleMan.Architecture

/-!
# Channels

What a machine reads numbers from and prints to. Numbers normally go one to a line. Printing a
character starts a character line: from then on numbers and characters follow each other without
line breaks, until a newline character ends the line.
-/

namespace LittleMan

/-! ## Errors -/

inductive Channel.Error
  | endOfInput
  | invalidChar (code : Word)
  | stream (reason : String)
deriving DecidableEq

def Channel.Error.message : Channel.Error → String
  | endOfInput => "input ended while the program was waiting for a number"
  | invalidChar code => code.text ++ " is not a valid character code"
  | stream reason => "stream error: " ++ reason

/-- A source of numbers and a place to print to. Each operation leaves the channel in a new state,
also when it fails. -/
class Channel (C : Type) where
  /-- Read a number in the range, or any number if there is none. Input that is something else is
  passed over. -/
  readNumber : Option Range → EStateM Channel.Error C Word
  writeNumber : Word → EStateM Channel.Error C Unit
  writeChar : Word → EStateM Channel.Error C Unit

namespace Channel

/-! ## Lines of input -/

inductive Rejection
  | notAnInteger
  | outOfRange
deriving DecidableEq

def Rejection.message : Rejection → String
  | notAnInteger => "Input must be an integer"
  | outOfRange => "Input out of range"

def accept (range : Option Range) (line : List Char) : Except Rejection Word :=
  match Word.read? (Text.trim line) with
  | none => .error .notAnInteger
  | some w => if range.all (·.contains w) then .ok w else .error .outOfRange

/-! ## Output -/

/-- A number as it is printed: it ends the line unless a character line is in progress. -/
def numberText (midLine : Bool) (w : Word) : String :=
  if midLine then w.text else w.text ++ "\n"

def character? (code : Word) : Option Char :=
  if 0 ≤ code.toInt ∧ code.toInt.toNat.isValidChar then some (Char.ofNat code.toInt.toNat) else none

/-- Whether a character line is in progress once `c` is printed. -/
def startsLine (c : Char) : Bool := c != '\n'

end Channel

end LittleMan
