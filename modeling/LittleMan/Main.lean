import LittleMan.Command.Session

/-!
# The program

Carries out the plan of the command line on the real system. Input is read when the running program
waits for it, and output is printed as soon as it is there.
-/

namespace LittleMan.Command.Live

def put (bytes : ByteArray) : IO Unit := do
  if bytes.size > 0 then
    let stdout ← IO.getStdout
    stdout.write bytes
    stdout.flush

/-- The bytes up to the end of a line, behind those of `line`; none are added at the end of the
input. -/
partial def readLine (line : ByteArray) : IO ByteArray := do
  let byte ← (← IO.getStdin).read 1
  if byte.isEmpty then return line
  let line := line ++ byte
  if byte.toList = [Console.newline] then return line
  readLine line

/-- Do one step. A step that runs out of input has changed nothing but the channel: it is done again
on the channel as it was and one more line, and what it has printed already, `shown` bytes, is not
printed a second time. -/
partial def step (style : Log.Style) (m : Machine Console) (shown : Nat) :
    IO (Execution × String) := do
  let channel := m.channel
  let (e, entry) := Execution.next style m
  let written := e.machine.channel.written
  put (written.extract shown written.size)
  match e.failure with
  | some (_, .channel .endOfInput) =>
    let line ← readLine ByteArray.empty
    if line.isEmpty then return (e, entry)
    let unread := channel.unread ++ line.toList
    step style { e.machine with channel := { channel with unread } } written.size
  | _ => return (e, entry)

partial def execute (style : Log.Style) (limit : Nat) (m : Machine Console) : IO Execution := do
  if limit = 0 || m.status ≠ .running then return { machine := m }
  let channel := { m.channel with written := ByteArray.empty }
  let (e, entry) ← step style { m with channel } 0
  unless entry.isEmpty do (← IO.getStderr).putStr entry
  if e.failure.isSome then return e
  execute style (limit - 1) e.machine

def reason : IO.Error → String
  | .noFileOrDirectory _ code details | .permissionDenied _ code details
  | .inappropriateType _ code details | .alreadyExists _ code details
  | .invalidArgument _ code details | .resourceExhausted _ code details
  | .noSuchThing _ code details | .interrupted _ code details
  | .otherError code details | .resourceBusy code details | .resourceVanished code details
  | .unsupportedOperation code details | .hardwareFault code details
  | .unsatisfiedConstraints code details | .illegalOperation code details
  | .protocolError code details | .timeExpired code details =>
    details ++ " (os error " ++ Numeral.ofNat code.toNat ++ ")"
  | .unexpectedEof => "unexpected end of file"
  | .userError message => message

def attempt {α : Type} (act : IO α) : IO (Except String α) := do
  match ← act.toBaseIO with
  | .ok a => return .ok a
  | .error e => return .error (reason e)

def readFile (path : String) : IO ByteArray := do
  (← IO.FS.Handle.mk path .read).readBinToEnd

def perform (style : Log.Style) : Plan Unit → IO UInt32
  | .done () => return 0
  | .exit code => return code
  | .print text next => do
    put text.toUTF8
    perform style next
  | .log level message next => do
    (← IO.getStderr).putStr (Log.entry style level message)
    perform style next
  | .readFile path next => do
    let content ← attempt (readFile path)
    perform style (next content)
  | .writeFile path content next => do
    let written ← attempt (IO.FS.writeFile path content)
    perform style (next written)
  | .execute machine limit next => do
    let e ← execute style limit machine
    perform style (next e)

/-- Whether the terminal is one for colours, and they are wanted. -/
def coloured : IO Bool := do
  match ← IO.getEnv "TERM", ← IO.getEnv "NO_COLOR" with
  | some terminal, none => return terminal ≠ "dumb"
  | _, _ => return false

end LittleMan.Command.Live

open LittleMan.Command in
def main (words : List String) : IO UInt32 := do
  let (least, plan) := plan words
  let code ← Live.perform { least, coloured := ← Live.coloured } plan
  if code = 2 then
    (← IO.getStderr).putStr "error: the command line is not understood\n\nTry --help.\n"
  return code
