import LittleMan.Assembly.Draft
import LittleMan.Json.Codec
import LittleMan.Listing

/-!
# Errors

Everything that can go wrong, from a settings file or a source text to a running machine, under one
type.
-/

namespace LittleMan

/-! ## Settings files -/

inductive Settings.Error
  /-- The file cannot be read; the reason is the system's. -/
  | file (path reason : String)
  /-- The text is not JSON, or not that of settings. -/
  | invalid (reason : String)
deriving DecidableEq

def Settings.Error.message : Settings.Error → String
  | file path reason => "failed to read config file " ++ path ++ ": " ++ reason
  | invalid reason => "invalid config: " ++ reason

def Settings.parse (text : String) : Except Settings.Error Settings :=
  match Json.parse? text with
  | none => .error (.invalid "this is not a JSON text")
  | some v =>
    match Settings.ofJson? v with
    | none => .error (.invalid "expected an object of known options")
    | some s => .ok s

/-- Settings as a JSON text with one option a line. -/
def Settings.render (s : Settings) : String := Json.pretty s.toJson

/-! ## All errors -/

inductive Error
  | assembly (e : Assembly.Error)
  | memory (e : Memory.ImageTooLarge)
  | fault (f : Fault)
  | channel (e : Channel.Error)
  | image (e : ImageFile.Error)
  | settings (e : Settings.Error)
deriving DecidableEq

def Error.message : Error → String
  | assembly e => e.message
  | memory e => e.message
  | fault f => f.message
  | channel e => e.message
  | image e => e.message
  | settings e => e.message

def Machine.loadSource {C : Type} (a : Architecture) (settings : Settings) (channel : C)
    (source : String) : Except Error (Machine C) :=
  match Assembly.assemble a settings source with
  | .error e => .error (.assembly e)
  | .ok program => (Machine.load a settings channel program.image).mapError .memory

end LittleMan
