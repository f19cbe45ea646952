import LittleMan.Channel.Console
import LittleMan.Log
import LittleMan.Machine.Run

/-!
# Options

What the words of a command line ask for. An option is written `--name` or, if it has a short name,
`-n`; its value follows as the next word, or behind an equals sign, or right behind the short name.
Short names of options without a value can be written together. A word `--` ends the options. No
option may be given twice.
-/

namespace LittleMan.Command

/-! ## Scanning -/

structure Switch where
  long : String
  short : Option Char := none
  /-- Which texts are values of the option; none if it has no value. -/
  accepts : Option (String → Bool) := none

inductive Refusal
  | usage
  | help
  | version
deriving DecidableEq

structure Found where
  /-- The long names of the options, each with its value, which is empty for one that has none. -/
  options : List (String × String) := []
  operands : List String := []

namespace Found

def has (f : Found) (name : String) : Bool := (f.options.lookup name).isSome

def value? (f : Found) (name : String) : Option String := f.options.lookup name

/-- Note an option. Asking for help or for the version comes before everything that follows. -/
def add (f : Found) (name value : String) : Except Refusal Found :=
  if f.has name then .error .usage
  else if name = "help" then .error .help
  else if name = "version" then .error .version
  else .ok { f with options := (name, value) :: f.options }

end Found

structure Scan where
  found : Found := {}
  /-- The option whose value is the next word, and its values. -/
  pending : Option (String × (String → Bool)) := none
  ended : Bool := false

namespace Scan

def value (s : Scan) (name : String) (accepts : String → Bool) (v : String) :
    Except Refusal Scan :=
  if accepts v then (s.found.add name v).map fun found => { s with found, pending := none }
  else .error .usage

def flag (s : Scan) (name : String) : Except Refusal Scan :=
  (s.found.add name "").map fun found => { s with found }

/-- Note a word that is not an option. There may be `most` of them, and none is empty. -/
def operand (most : Nat) (s : Scan) (word : String) : Except Refusal Scan :=
  let operands := s.found.operands
  if operands.length < most ∧ word ≠ "" then
    .ok { s with found := { s.found with operands := operands ++ [word] } }
  else .error .usage

def splitEquals (word : List Char) : String × Option String :=
  match word.dropWhile (· != '=') with
  | _ :: v => (String.ofList (word.takeWhile (· != '=')), some (String.ofList v))
  | [] => (String.ofList word, none)

def long (table : List Switch) (s : Scan) (word : List Char) : Except Refusal Scan :=
  let (name, attached) := splitEquals word
  match table.find? (·.long == name) with
  | none => .error .usage
  | some switch =>
    match switch.accepts, attached with
    | none, none => s.flag name
    | none, some _ => .error .usage
    | some accepts, some v => s.value name accepts v
    | some accepts, none => .ok { s with pending := some (name, accepts) }

def short (table : List Switch) (s : Scan) : List Char → Except Refusal Scan
  | [] => .ok s
  | c :: cs =>
    match table.find? (·.short == some c) with
    | none => .error .usage
    | some switch =>
      match switch.accepts, cs with
      | none, cs =>
        match s.flag switch.long with
        | .ok s => short table s cs
        | .error e => .error e
      | some accepts, [] => .ok { s with pending := some (switch.long, accepts) }
      | some accepts, '=' :: v => s.value switch.long accepts (String.ofList v)
      | some accepts, v => s.value switch.long accepts (String.ofList v)

/-- Read one word. A word that looks like an option is not the value of one. -/
def next (table : List Switch) (most : Nat) (s : Scan) (word : String) : Except Refusal Scan :=
  match s.pending with
  | some (name, accepts) =>
    if word.toList.head? = some '-' ∧ word ≠ "-" then .error .usage
    else s.value name accepts word
  | none =>
    if s.ended then s.operand most word
    else
      match word.toList with
      | ['-', '-'] => .ok { s with ended := true }
      | '-' :: '-' :: name => s.long table name
      | '-' :: c :: cs => s.short table (c :: cs)
      | _ => s.operand most word

def finish (s : Scan) : Except Refusal Found :=
  if s.pending.isSome then .error .usage else .ok s.found

end Scan

/-! ## Commands -/

/-- The options that `run` and `asm` share. -/
structure MachineOptions where
  config : Option String
  wrapMemory : Bool
  noWrapValues : Bool
  noExtensions : Bool
  appendHalt : Bool
  architecture : Architecture
deriving DecidableEq

def MachineOptions.apply (o : MachineOptions) (s : Settings) : Settings where
  wrapMemory := s.wrapMemory || o.wrapMemory
  wrapValues := s.wrapValues && !o.noWrapValues
  extensions := s.extensions && !o.noExtensions
  appendTrailingHalt := s.appendTrailingHalt || o.appendHalt

structure RunOptions where
  program : String
  maxCycles : Nat
  trace : Bool
  dumpState : Bool
  prompt : String
  machine : MachineOptions
deriving DecidableEq

inductive Request
  | introduce
  | run (options : RunOptions)
  | assemble (source : String) (output : Option String) (machine : MachineOptions)
  | disassemble (image : String) (architecture : Architecture)
deriving DecidableEq

/-- A request, and whether to print warnings and errors only. -/
structure Invocation where
  quiet : Bool
  request : Request
deriving DecidableEq

/-- The least level of messages to print. A trace needs them all. -/
def Invocation.least (i : Invocation) : Log.Level :=
  match i.request with
  | .run options => if options.trace then .debug else if i.quiet then .warn else .info
  | _ => if i.quiet then .warn else .info

/-! ## Tables -/

def isPath (text : String) : Bool := text ≠ ""

def cycleLimit? (text : String) : Option Nat :=
  (Numeral.natural? text.toList).filter (· ≤ Machine.maxCycles)

def commonSwitches : List Switch :=
  [{ long := "quiet", short := some 'q' }, { long := "help", short := some 'h' }]

def topSwitches : List Switch := { long := "version", short := some 'V' } :: commonSwitches

def machineSwitches : List Switch :=
  [{ long := "config", short := some 'c', accepts := some isPath },
    { long := "wrap-memory" }, { long := "no-wrap-values" }, { long := "no-extensions" },
    { long := "append-halt" }, { long := "binary" }]

def runSwitches : List Switch :=
  [{ long := "max-cycles", short := some 'm', accepts := some (cycleLimit? · |>.isSome) },
    { long := "trace", short := some 't' }, { long := "dump-state" },
    { long := "prompt", accepts := some fun _ => true }] ++ machineSwitches ++ commonSwitches

def assembleSwitches : List Switch :=
  { long := "output", short := some 'o', accepts := some isPath } ::
    (machineSwitches ++ commonSwitches)

def disassembleSwitches : List Switch := { long := "binary" } :: commonSwitches

/-! ## Parsing -/

def Found.architecture (f : Found) : Architecture := if f.has "binary" then .binary else .decimal

def Found.machine (f : Found) : MachineOptions where
  config := f.value? "config"
  wrapMemory := f.has "wrap-memory"
  noWrapValues := f.has "no-wrap-values"
  noExtensions := f.has "no-extensions"
  appendHalt := f.has "append-halt"
  architecture := f.architecture

/-- Read the words behind the name of a command, exactly one of which is no option. -/
def scanCommand (table : List Switch) (words : List String) : Except Refusal (Found × String) := do
  let scan ← words.foldlM (Scan.next table 1) {}
  let found ← scan.finish
  match found.operands with
  | [operand] => .ok (found, operand)
  | _ => .error .usage

def commandNames : List String := ["run", "asm", "disasm", "help"]

def parseCommand (name : String) (words : List String) : Except Refusal Invocation :=
  match name with
  | "run" => (scanCommand runSwitches words).map fun (f, program) =>
      { quiet := f.has "quiet"
        request := .run {
          program
          maxCycles := ((f.value? "max-cycles").bind cycleLimit?).getD Machine.maxCycles
          trace := f.has "trace"
          dumpState := f.has "dump-state"
          prompt := (f.value? "prompt").getD Console.defaultPrompt
          machine := f.machine } }
  | "asm" => (scanCommand assembleSwitches words).map fun (f, source) =>
      { quiet := f.has "quiet", request := .assemble source (f.value? "output") f.machine }
  | "disasm" => (scanCommand disassembleSwitches words).map fun (f, image) =>
      { quiet := f.has "quiet", request := .disassemble image f.architecture }
  | _ =>
    match words with
    | [] => .error .help
    | [word] => .error (if commandNames.contains word then .help else .usage)
    | _ => .error .usage

def parseFrom (s : Scan) : List String → Except Refusal Invocation
  | [] => s.finish.map fun found => { quiet := found.has "quiet", request := .introduce }
  | word :: rest =>
    if !s.ended && commandNames.contains word then
      (parseCommand word rest).map fun i => { i with quiet := i.quiet || s.found.has "quiet" }
    else
      match s.next topSwitches 0 word with
      | .ok s => parseFrom s rest
      | .error e => .error e

def parse (words : List String) : Except Refusal Invocation := parseFrom {} words

end LittleMan.Command
