import LittleMan.Command.Session

/-!
# Outcomes

What a command line comes to in a given world: a tree of files and an input that is known in
advance.
-/

namespace LittleMan.Command

/-- What a plan acts on, and what it has printed so far. -/
structure World where
  files : FileTree
  stdin : List UInt8
  stdout : ByteArray := ByteArray.empty
  stderr : String := ""

structure Outcome where
  exitCode : UInt32
  world : World

def Plan.perform (style : Log.Style) (w : World) : Plan Unit → Outcome
  | done () => ⟨0, w⟩
  | exit code => ⟨code, w⟩
  | print text next => next.perform style { w with stdout := w.stdout ++ text.toUTF8 }
  | log level message next =>
    next.perform style { w with stderr := w.stderr ++ Log.entry style level message }
  | readFile path next => (next ((w.files.read path).mapError (·.message))).perform style w
  | writeFile path content next =>
    match w.files.write path content.toUTF8 with
    | .ok files => (next (.ok ())).perform style { w with files }
    | .error e => (next (.error e.message)).perform style w
  | execute machine limit next =>
    let console := { machine.channel with unread := w.stdin }
    let (e, trace) := Execution.run style "" limit { machine with channel := console }
    (next e).perform style
      { w with
        stdin := e.machine.channel.unread
        stdout := w.stdout ++ e.machine.channel.written
        stderr := w.stderr ++ trace }

def outcome (coloured : Bool) (w : World) (words : List String) : Outcome :=
  let (least, plan) := plan words
  plan.perform { least, coloured } w

end LittleMan.Command
