import LittleMan.Command.FileTree
import LittleMan.Command.Options
import LittleMan.Command.Plan
import LittleMan.Error

/-!
# Sessions

The plan of each command.
-/

namespace LittleMan.Command

/-! ## Files -/

def decodeFile (content : Except String ByteArray) : Except String String :=
  content.bind fun bytes =>
    match String.fromUTF8? bytes with
    | some text => .ok text
    | none => .error "stream did not contain valid UTF-8"

def readText (path : String) : Plan (Except String String) :=
  .readFile path fun content => .done (decodeFile content)

def readImage (path : String) : Plan (List Word) := do
  let text ← readText path
  Plan.orFail "Failed to load image" ImageFile.Error.message
    ((text.mapError .file).bind ImageFile.parse)

def readSource (a : Architecture) (settings : Settings) (path : String) :
    Plan Assembly.Program := do
  let source ← Plan.orFail "Failed to read file" id (← readText path)
  Plan.orFail "Assembly error" Assembly.Error.message (Assembly.assemble a settings source)

/-- The settings that options ask for, which may start from a settings file. -/
def readSettings (o : MachineOptions) : Plan Settings :=
  match o.config with
  | none => pure (o.apply {})
  | some path => do
    let text ← readText path
    let settings ← Plan.orFail "Failed to load config" Settings.Error.message
      ((text.mapError (.file path)).bind Settings.parse)
    pure (o.apply settings)

/-! ## Running -/

/-- The image of a program: that of an image file, or that of anything else, assembled. -/
def readProgram (a : Architecture) (settings : Settings) (path : String) : Plan (List Word) := do
  if Path.extension? path = some "img" then
    let image ← readImage path
    Plan.note .info ("Loaded " ++ Numeral.ofNat image.length ++ " words from " ++ path)
    pure image
  else
    let program ← readSource a settings path
    Plan.note .info
      ("Assembled " ++ Numeral.ofNat program.image.length ++ " words from " ++ path)
    pure program.image

def report (e : Execution) : Plan Unit :=
  let cycles := Numeral.ofNat e.machine.cycles
  match e.failure with
  | some (ip, f) =>
    Plan.fail ("Runtime error at IP=" ++ Listing.address ip ++ " after " ++ cycles ++ " cycles: " ++
      f.message)
  | none =>
    if e.machine.status = .halted then Plan.note .info ("Halted after " ++ cycles ++ " cycles")
    else
      Plan.note .warn ("Stopped after " ++ cycles ++
        " cycles without halting. Use --max-cycles to increase the limit.")

/-- Run a program. A character line that it leaves is ended, so that what follows starts a line of
its own. -/
def runProgram (o : RunOptions) : Plan Unit := do
  let a := o.machine.architecture
  let settings ← readSettings o.machine
  let image ← readProgram a settings o.program
  if image.isEmpty then Plan.note .warn "Program is empty; memory is all HLT"
  let console : Console := { unread := [], prompt := o.prompt }
  let machine ← Plan.orFail "Failed to load program" Memory.ImageTooLarge.message
    (Machine.load a settings console image)
  let e ← Plan.execute machine o.maxCycles .done
  if e.machine.channel.midLine then Plan.say "\n"
  if o.dumpState then Plan.say (Json.pretty e.machine.snapshot.toJson ++ "\n")
  report e

/-! ## Assembling and disassembling -/

/-- Assemble a source file to an image file, by default the one with extension `img`. -/
def assembleFile (path : String) (output : Option String) (o : MachineOptions) : Plan Unit := do
  let settings ← readSettings o
  let target := output.getD (Path.withExtension path "img")
  Plan.note .info ("Assembling: " ++ path ++ " -> " ++ target)
  let program ← readSource o.architecture settings path
  Plan.note .info ("Assembled " ++ Numeral.ofNat program.image.length ++ " words, " ++
    Numeral.ofNat program.labels.size ++ " labels")
  let written ← Plan.writeFile target (ImageFile.render o.architecture program.image) .done
  Plan.orFail "Failed to save image" ImageFile.Error.message (written.mapError .file)
  Plan.note .info ("Saved to " ++ target)

def disassembleFile (path : String) (a : Architecture) : Plan Unit := do
  let image ← readImage path
  if a.memorySize < image.length then
    Plan.note .warn ("Image has " ++ Numeral.ofNat image.length ++ " words but the " ++ a.name ++
      " machine only has " ++ Numeral.ofNat a.memorySize)
  Plan.say (Listing.render a image)

/-! ## Command lines -/

def introduction : String :=
  "LMC Emulator v0.1.0\nA Little Man Computer assembler and emulator\n\n" ++
    "Use --help for available commands\n"

def helpText : String :=
  "An assembler and emulator for the Little Man Computer\n\n" ++
    "Usage: lmc-emu [OPTIONS] [COMMAND]\n\n" ++
    "Commands:\n" ++
    "  run PROGRAM    Run a program until it halts\n" ++
    "                 [-m N] [-t] [--dump-state] [--prompt TEXT] and machine options\n" ++
    "  asm SOURCE     Assemble source to a memory image\n" ++
    "                 [-o FILE] and machine options\n" ++
    "  disasm IMAGE   Disassemble a memory image to readable text\n" ++
    "                 [--binary]\n\n" ++
    "Machine options:\n" ++
    "  -c FILE  --wrap-memory  --no-wrap-values  --no-extensions  --append-halt  --binary\n\n" ++
    "Options:\n" ++
    "  -q, --quiet    Only print warnings and errors\n" ++
    "  -h, --help     Print help\n" ++
    "  -V, --version  Print version\n"

def Request.plan : Request → Plan Unit
  | introduce => Plan.say introduction
  | run options => runProgram options
  | assemble source output machine => assembleFile source output machine
  | disassemble image a => disassembleFile image a

def plan (words : List String) : Log.Level × Plan Unit :=
  match parse words with
  | .ok i => (i.least, i.request.plan)
  | .error .version => (.info, Plan.say "lmc-emu 0.1.0\n")
  | .error .help => (.info, Plan.say helpText)
  | .error .usage => (.info, .exit 2)

end LittleMan.Command
