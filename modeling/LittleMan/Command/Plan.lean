import LittleMan.Channel.Console
import LittleMan.Listing
import LittleMan.Log
import LittleMan.Machine.Run

/-!
# Plans

What a command does to the outside, one action after the other. A plan is data: it can be carried
out on the real system or on a model of it. The largest of the actions is an execution, which is a
program on a console, run for a limited number of steps, with a log message for each of them.
-/

namespace LittleMan.Command

/-! ## Executions -/

structure Execution where
  machine : Machine Console
  /-- The step that failed, if one did: its instruction pointer, and the fault. -/
  failure : Option (Nat × Fault) := none

namespace Execution

def traceMessage (ip : Nat) (i : Instruction) (acc : Word) : String :=
  Listing.address ip ++ ": " ++ Text.padRight 8 i.text ++ " ACC=" ++ acc.text

def traceEntry (style : Log.Style) (ip : Nat) (i : Instruction) (acc : Word) : String :=
  if Log.Level.debug.atLeast style.least then Log.entry style .debug (traceMessage ip i acc) else ""

def next (style : Log.Style) (m : Machine Console) : Execution × String :=
  let ip := m.registers.ip.toNat
  match m.step with
  | .ok i m => ({ machine := m }, traceEntry style ip i m.registers.acc)
  | .error f m => ({ machine := m, failure := some (ip, f) }, "")

/-- At most `limit` steps while the machine runs; the entries of their log follow those of `log`. -/
def run (style : Log.Style) (log : String) : Nat → Machine Console → Execution × String
  | 0, m => ({ machine := m }, log)
  | limit + 1, m =>
    if m.status = .running then
      match next style m with
      | ({ machine, failure := none }, entry) => run style (log ++ entry) limit machine
      | (e, entry) => (e, log ++ entry)
    else ({ machine := m }, log)

end Execution

/-! ## Plans -/

/-- Actions on the outside that end in an answer, or in leaving the program. -/
inductive Plan (α : Type)
  | done (answer : α)
  | exit (code : UInt32)
  | print (text : String) (next : Plan α)
  | log (level : Log.Level) (message : String) (next : Plan α)
  /-- Read a file; the system gives a reason if it cannot. -/
  | readFile (path : String) (next : Except String ByteArray → Plan α)
  | writeFile (path : String) (content : String) (next : Except String Unit → Plan α)
  /-- Run a machine on the input of the program for at most `limit` steps. -/
  | execute (machine : Machine Console) (limit : Nat) (next : Execution → Plan α)

namespace Plan

def bind {α β : Type} (p : Plan α) (f : α → Plan β) : Plan β :=
  match p with
  | done a => f a
  | exit code => exit code
  | print text next => print text (next.bind f)
  | log level message next => log level message (next.bind f)
  | readFile path next => readFile path fun r => (next r).bind f
  | writeFile path content next => writeFile path content fun r => (next r).bind f
  | execute machine limit next => execute machine limit fun e => (next e).bind f

instance : Monad Plan where
  pure := done
  bind := bind

def say (text : String) : Plan Unit := print text (done ())

def note (level : Log.Level) (message : String) : Plan Unit := log level message (done ())

def fail {α : Type} (message : String) : Plan α := log .error message (exit 1)

/-- The value of a result; an error is logged behind `context`, and ends the program. -/
def orFail {ε α : Type} (context : String) (message : ε → String) : Except ε α → Plan α
  | .ok a => done a
  | .error e => fail (context ++ ": " ++ message e)

end Plan

end LittleMan.Command
