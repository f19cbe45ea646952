import LittleMan.Channel.Basic

/-!
# Buffers

A channel in memory: its input is a queue of lines, and its output is kept as a text.
-/

namespace LittleMan

/-- A channel with prepared input and recorded output. -/
structure Buffer where
  pending : List String := []
  /-- What has been printed and not been taken. -/
  output : String := ""
  rejected : Array String := #[]
  /-- Whether a character line is in progress. -/
  midLine : Bool := false
deriving DecidableEq, Inhabited

namespace Buffer

def ofLines (lines : List String) : Buffer := { pending := lines }

def ofNumbers (numbers : List Word) : Buffer := ofLines (numbers.map Word.text)

def push (b : Buffer) (line : String) : Buffer := { b with pending := b.pending ++ [line] }

def takeOutput (b : Buffer) : String × Buffer := (b.output, { b with output := "" })

/-- Read from the given lines, which are those the buffer has pending. -/
def readFrom (range : Option Range) (b : Buffer) :
    List String → EStateM.Result Channel.Error Buffer Word
  | [] => .error .endOfInput { b with pending := [] }
  | line :: rest =>
    match Channel.accept range line.toList with
    | .ok w => .ok w { b with pending := rest }
    | .error _ => readFrom range { b with rejected := b.rejected.push line } rest

/-- Take the first line that holds a number in the range, and reject those before it. -/
def readNumber (range : Option Range) : EStateM Channel.Error Buffer Word :=
  fun b => readFrom range b b.pending

def writeNumber (w : Word) : EStateM Channel.Error Buffer Unit :=
  fun b => .ok () { b with output := b.output ++ Channel.numberText b.midLine w }

def writeChar (code : Word) : EStateM Channel.Error Buffer Unit := fun b =>
  match Channel.character? code with
  | some c => .ok () { b with output := b.output.push c, midLine := Channel.startsLine c }
  | none => .error (.invalidChar code) b

instance : Channel Buffer where
  readNumber := readNumber
  writeNumber := writeNumber
  writeChar := writeChar

end Buffer

end LittleMan
