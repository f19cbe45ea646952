import LittleMan.Assembly.Statement

/-!
# Drafts and programs

A program on its way from source text to items. Parsing makes entries and binds labels to their
indices; resolving replaces labels in operands by those indices; generating makes items. Each stage
can be run on its own, and one that fails leaves the draft as far as it got.
-/

namespace LittleMan.Assembly

/-! ## Entries and labels -/

/-- A line that makes an instruction or a data word. -/
structure Entry where
  /-- The line it stands on, counted from one. -/
  line : Nat
  mnemonic : Mnemonic
  operand : Option Operand
  labels : List String := []
deriving DecidableEq

structure LabelTable where
  bindings : List (String × Nat) := []
deriving DecidableEq

namespace LabelTable

def find? (t : LabelTable) (label : String) : Option Nat := t.bindings.lookup label

def contains (t : LabelTable) (label : String) : Bool := (t.find? label).isSome

def insert (t : LabelTable) (label : String) (index : Nat) : LabelTable :=
  ⟨(label, index) :: t.bindings⟩

def size (t : LabelTable) : Nat := t.bindings.length

end LabelTable

structure Draft where
  source : String
  settings : Settings
  entries : Array Entry := #[]
  labels : LabelTable := {}
  /-- The labels that wait for the next entry, with their lines. -/
  queued : List (String × Nat) := []
deriving DecidableEq

namespace Draft

/-! ## Parsing -/

/-- Bind the labels of the given queue to `index`; answer with those of `bound`, reversed, and
those bound. -/
def bindFrom (index : Nat) (bound : List String) (d : Draft) :
    List (String × Nat) → EStateM.Result Error Draft (List String)
  | [] => .ok bound.reverse d
  | (label, line) :: rest =>
    if d.labels.contains label then .error (.flaw line (.repeatedLabel label)) d
    else bindFrom index (label :: bound) { d with labels := d.labels.insert label index } rest

def bindQueued (index : Nat) : EStateM Error Draft (List String) :=
  fun d => bindFrom index [] { d with queued := [] } d.queued

def addEntry (entry : Entry) : EStateM Error Draft Unit := fun d =>
  match bindQueued d.entries.size d with
  | .error e d => .error e d
  | .ok labels d => .ok () { d with entries := d.entries.push { entry with labels } }

def queueLabel (line : Nat) (label : String) : EStateM Error Draft Unit := fun d =>
  let name := labelName label
  if name = "" then .error (.flaw line .emptyLabel) d
  else if d.labels.contains name || d.queued.any (·.1 == name) then
    .error (.flaw line (.repeatedLabel name)) d
  else .ok () { d with queued := d.queued ++ [(name, line)] }

def addStatement (line : Nat) (s : Statement) : EStateM Error Draft Unit := do
  if let some label := s.label then queueLabel line label
  if let some opcode := s.opcode then
    match Mnemonic.ofWord? opcode with
    | none => throw (.flaw line (.notAnOpcode opcode))
    | some mnemonic => addEntry { line, mnemonic, operand := s.operand.map .ofWord }

def parseLine (line : Nat) (text : List Char) : EStateM Error Draft Unit :=
  match Statement.ofWords (wordsOf text) with
  | .error flaw => throw (.flaw line flaw)
  | .ok s => addStatement line s

def parseLines (line : Nat) : List (List Char) → EStateM Error Draft Unit
  | [] => pure ()
  | text :: rest => do
    parseLine line text
    parseLines (line + 1) rest

/-- Add the trailing halt on line `line` if the settings ask for it. Labels that are still in the
queue stand for the entry behind the last line, whether there is one or not. -/
def finish (line : Nat) : EStateM Error Draft Unit := fun d =>
  if d.settings.appendTrailingHalt then
    addEntry { line, mnemonic := .code .halt, operand := some (.number 0) } d
  else
    match bindQueued d.entries.size d with
    | .error e d => .error e d
    | .ok _ d => .ok () d

def parse : EStateM Error Draft Unit := fun d =>
  let lines := Text.lines d.source.toList
  (do parseLines 1 lines; finish (lines.length + 1) : EStateM Error Draft Unit) d

/-! ## Resolving -/

def resolveEntry (labels : LabelTable) (entry : Entry) : Except Error Entry :=
  match entry.operand with
  | some (.label name) =>
    match labels.find? name with
    | some index => .ok { entry with operand := some (.number (Int64.ofNat index)) }
    | none => .error (.flaw entry.line (.undefinedLabel name))
  | _ => .ok entry

def resolveFrom (labels : LabelTable) (done : Array Entry) :
    List Entry → EStateM.Result Error (Array Entry) Unit
  | [] => .ok () done
  | entry :: rest =>
    match resolveEntry labels entry with
    | .ok entry => resolveFrom labels (done.push entry) rest
    | .error e => .error e (done ++ (entry :: rest))

def resolve : EStateM Error Draft Unit := fun d =>
  match resolveFrom d.labels #[] d.entries.toList with
  | .ok () entries => .ok () { d with entries }
  | .error e entries => .error e { d with entries }

/-! ## Generating -/

def operandField? (a : Architecture) (value : Word) : Option UInt32 :=
  if 0 ≤ value.toInt ∧ value.toInt < a.operandLimit then some (UInt32.ofNat value.toInt.toNat)
  else none

/-- The operand field of an operation that is written with the given value, or without one. -/
def encodeOperand (a : Architecture) (operation : Operation) : Option Word → Except Flaw UInt32
  | none => if operation.requiresOperand then .error (.missingOperand operation) else .ok 0
  | some value =>
    if operation.isTransfer then .ok 0
    else
      match operandField? a value with
      | some field => .ok field
      | none => .error (.operandOutOfRange value a.operandLimit)

def makeItem (a : Architecture) (settings : Settings) (mnemonic : Mnemonic)
    (value : Option Word) : Except Flaw Item :=
  match mnemonic with
  | .data => .ok (.data (value.getD 0))
  | .code operation =>
    match operation.extension.filter (!settings.allows ·) with
    | some extension => .error (.extensionDisabled extension)
    | none =>
      (encodeOperand a operation value).bind fun field =>
        match mnemonic.instruction? field with
        | some i => .ok (.code i)
        | none => .error (.notAnInstruction mnemonic)

/-- The value that an operand stands for, if there is one. A label stands for nothing until it is
resolved. -/
def operandValue : Option Operand → Except Flaw (Option Word)
  | none => .ok none
  | some (.number w) => .ok (some w)
  | some (.label name) => .error (.undefinedLabel name)

def generateEntry (a : Architecture) (settings : Settings) (entry : Entry) : Except Error Item :=
  ((operandValue entry.operand).bind (makeItem a settings entry.mnemonic)).mapError
    (.flaw entry.line)

def generate (a : Architecture) (d : Draft) : Except Error (List Item) :=
  d.entries.toList.mapM (generateEntry a d.settings)

end Draft

/-! ## Programs -/

structure Program where
  items : List Item
  labels : LabelTable
  image : List Word
deriving DecidableEq

def Draft.assemble (a : Architecture) (d : Draft) : Except Error Program :=
  match (do parse; resolve : EStateM Error Draft Unit) d with
  | .error e _ => .error e
  | .ok () d =>
    match d.generate a with
    | .error e => .error e
    | .ok items =>
      let image := items.map (Item.encode a)
      if image.length ≤ a.memorySize then .ok { items, labels := d.labels, image }
      else .error (.programTooLarge image.length a.memorySize)

def assemble (a : Architecture) (settings : Settings) (source : String) : Except Error Program :=
  Draft.assemble a { source, settings }

end LittleMan.Assembly
