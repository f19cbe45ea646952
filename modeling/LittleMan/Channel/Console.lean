import LittleMan.Channel.Basic

/-!
# Consoles

A channel over two streams of bytes. It prints a prompt before each line it reads, and complains
about a line that it does not take; both go to the same stream as the program's output.
-/

namespace LittleMan

def Console.defaultPrompt : String := ">? "

/-- A channel over two streams of bytes. -/
structure Console where
  unread : List UInt8
  written : ByteArray := ByteArray.empty
  /-- How many bytes can be printed in all; no limit if there is none. -/
  capacity : Option Nat := none
  prompt : String := Console.defaultPrompt
  midLine : Bool := false

namespace Console

/-! ## Output -/

def room (c : Console) (n : Nat) : Nat :=
  match c.capacity with
  | some capacity => min n (capacity - c.written.size)
  | none => n

/-- Print a text. If there is not enough room, the bytes that fit are printed all the same. -/
def write (text : String) : EStateM Channel.Error Console Unit := fun c =>
  let bytes := text.toUTF8
  let fitting := c.room bytes.size
  let c' := { c with written := c.written ++ bytes.extract 0 fitting }
  if fitting = bytes.size then .ok () c'
  else .error (.stream "failed to write whole buffer") c'

def writeNumber (w : Word) : EStateM Channel.Error Console Unit :=
  fun c => write (Channel.numberText c.midLine w) c

/-- Print a character. A character line starts or ends even if the character does not fit. -/
def writeChar (code : Word) : EStateM Channel.Error Console Unit := fun c =>
  match Channel.character? code with
  | some char => write (String.ofList [char]) { c with midLine := Channel.startsLine char }
  | none => .error (.invalidChar code) c

/-! ## Input -/

def newline : UInt8 := 10

def firstLine (bytes : List UInt8) : List UInt8 := bytes.takeWhile (· != newline)

def afterFirstLine (bytes : List UInt8) : List UInt8 := (bytes.dropWhile (· != newline)).tail

def decode? (bytes : List UInt8) : Option (List Char) :=
  (String.fromUTF8? ⟨bytes.toArray⟩).map String.toList

theorem length_afterFirstLine (b : UInt8) (bytes : List UInt8) :
    (afterFirstLine (b :: bytes)).length < (b :: bytes).length := by
  have h := (List.dropWhile_sublist (l := b :: bytes) (· != newline)).length_le
  simp only [afterFirstLine, List.length_tail]
  simp only [List.length_cons] at h ⊢
  omega

/-- Prompt and read, until a line of the given bytes, which are those unread, is taken. -/
def readFrom (range : Option Range) (c : Console) (bytes : List UInt8) :
    EStateM.Result Channel.Error Console Word :=
  match write c.prompt { c with unread := bytes } with
  | .error e c => .error e c
  | .ok () c =>
    match bytes with
    | [] => .error .endOfInput c
    | b :: bs =>
      let rest := afterFirstLine (b :: bs)
      let c := { c with unread := rest }
      match decode? (firstLine (b :: bs)) with
      | none => .error (.stream "stream did not contain valid UTF-8") c
      | some line =>
        match Channel.accept range line with
        | .ok w => .ok w c
        | .error rejection =>
          match write (rejection.message ++ "\n") c with
          | .error e c => .error e c
          | .ok () c => readFrom range c rest
termination_by bytes.length
decreasing_by exact length_afterFirstLine b bs

def readNumber (range : Option Range) : EStateM Channel.Error Console Word :=
  fun c => readFrom range c c.unread

instance : Channel Console where
  readNumber := readNumber
  writeNumber := writeNumber
  writeChar := writeChar

end Console

end LittleMan
