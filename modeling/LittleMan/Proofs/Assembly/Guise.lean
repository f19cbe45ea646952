import Mathlib.Tactic.Common
import LittleMan.Proofs.Assembly.Outcome

/-!
# Drafts in another guise

Taking in a line does not look at the source text, the settings and the line numbers that a draft
carries along, and of two labels it wants to know no more than whether they are the same. So it does
not matter whether a draft is put in another guise before a step or behind it. The stages after
parsing do look at the settings; otherwise the same holds of them, and of assembling as a whole.
-/

namespace LittleMan.Assembly

/-- Another source text and other settings to carry along, and other numbers and names for the lines
and the labels. -/
structure Guise where
  source : String
  settings : Settings
  line : Nat → Nat := id
  name : String → String := id
  injective : Function.Injective name := by exact Function.injective_id

namespace Guise

def operand (g : Guise) : Operand → Operand
  | .number w => .number w
  | .label l => .label (g.name l)

def entry (g : Guise) (e : Entry) : Entry where
  line := g.line e.line
  mnemonic := e.mnemonic
  operand := e.operand.map g.operand
  labels := e.labels.map g.name

def table (g : Guise) (t : LabelTable) : LabelTable := ⟨t.bindings.map fun b => (g.name b.1, b.2)⟩

def draft (g : Guise) (d : Draft) : Draft where
  source := g.source
  settings := g.settings
  entries := d.entries.map g.entry
  labels := g.table d.labels
  queued := d.queued.map (Prod.map g.name g.line)

/-- Words that make no statement are quoted as they are, since they need not be names. -/
def flaw (g : Guise) : Flaw → Flaw
  | .repeatedLabel l => .repeatedLabel (g.name l)
  | .undefinedLabel l => .undefinedLabel (g.name l)
  | f => f

def error (g : Guise) : Error → Error
  | .flaw n f => .flaw (g.line n) (g.flaw f)
  | .programTooLarge size capacity => .programTooLarge size capacity

def result {α : Type} (g : Guise) (f : α → α) :
    EStateM.Result Error Draft α → EStateM.Result Error Draft α
  | .ok v d => .ok (f v) (g.draft d)
  | .error e d => .error (g.error e) (g.draft d)

def outcome (g : Guise) : Except Error Program → Except Error Program
  | .ok p => .ok { p with labels := g.table p.labels }
  | .error e => .error (g.error e)

variable {g : Guise}

theorem draft_empty (g : Guise) (source : String) (settings : Settings) :
    g.draft { source, settings } = { source := g.source, settings := g.settings } := by
  simp [draft, table]

theorem find?_table (g : Guise) (t : LabelTable) (l : String) :
    (g.table t).find? (g.name l) = t.find? l := by
  obtain ⟨bindings⟩ := t
  unfold table LabelTable.find?
  induction bindings with
  | nil => rfl
  | cons b bindings ih =>
    obtain ⟨l', k⟩ := b
    simp only [List.map_cons, List.lookup_cons, g.injective.beq_eq, ih]

theorem contains_table (g : Guise) (t : LabelTable) (l : String) :
    (g.table t).contains (g.name l) = t.contains l := by
  unfold LabelTable.contains
  rw [find?_table]

/-! ## Steps -/

/-- The step `y` does to drafts in the guise what `x` does to them as they are. -/
def Carries (g : Guise) (x y : EStateM Error Draft Unit) : Prop :=
  ∀ d, y (g.draft d) = g.result id (x d)

theorem Carries.bind {x y x' y' : EStateM Error Draft Unit} (h : g.Carries x y)
    (h' : g.Carries x' y') : g.Carries (x >>= fun _ => x') (y >>= fun _ => y') := by
  intro d
  have hd := h d
  cases hx : x d with
  | error e d' =>
    rw [hx] at hd
    rw [Draft.bind_of_error hd, Draft.bind_of_error hx]
    rfl
  | ok u d' =>
    rw [hx] at hd
    rw [Draft.bind_of_ok hd, Draft.bind_of_ok hx]
    exact h' d'

theorem carries_pure : g.Carries (pure ()) (pure ()) := fun _ => rfl

theorem bindFrom_draft (index : Nat) (bound : List String) (queue : List (String × Nat))
    (d : Draft) :
    Draft.bindFrom index (bound.map g.name) (g.draft d) (queue.map (Prod.map g.name g.line)) =
      g.result (List.map g.name) (Draft.bindFrom index bound d queue) := by
  induction queue generalizing bound d with
  | nil => simp [Draft.bindFrom, result]
  | cons q queue ih =>
    obtain ⟨label, line⟩ := q
    simp only [List.map_cons, Prod.map_apply, Draft.bindFrom,
      show (g.draft d).labels = g.table d.labels from rfl, contains_table]
    split
    · rfl
    · exact ih (label :: bound) { d with labels := d.labels.insert label index }

theorem bindQueued_draft (index : Nat) (d : Draft) :
    Draft.bindQueued index (g.draft d) =
      g.result (List.map g.name) (Draft.bindQueued index d) :=
  bindFrom_draft index [] d.queued { d with queued := [] }

theorem carries_addEntry (g : Guise) (e : Entry) :
    g.Carries (Draft.addEntry e) (Draft.addEntry (g.entry e)) := by
  intro d
  unfold Draft.addEntry
  rw [show (g.draft d).entries.size = d.entries.size by simp [draft], bindQueued_draft]
  cases Draft.bindQueued d.entries.size d with
  | error e d' => rfl
  | ok labels d' => simp [result, draft, entry]

theorem carries_queueLabel {label label' : String} (line : Nat)
    (hname : labelName label' = g.name (labelName label))
    (hempty : labelName label' = "" ↔ labelName label = "") :
    g.Carries (Draft.queueLabel line label) (Draft.queueLabel (g.line line) label') := by
  intro d
  have hqueued : (g.draft d).queued.any (·.1 == labelName label') =
      d.queued.any (·.1 == labelName label) := by
    simp [draft, hname, Function.comp_def, g.injective.beq_eq]
  have htable : (g.draft d).labels.contains (labelName label') =
      d.labels.contains (labelName label) := by
    rw [hname]
    exact contains_table g d.labels _
  unfold Draft.queueLabel
  simp only [hqueued, htable, hempty]
  split_ifs
  · rfl
  · rw [hname]
    rfl
  · simp [result, draft, hname]

/-! ## Lines -/

/-- The statement `s'` says in the guise what `s` says. -/
structure Says (g : Guise) (s s' : Statement) : Prop where
  label : s'.label.map labelName = (s.label.map labelName).map g.name
  empty : s'.label.map labelName = some "" ↔ s.label.map labelName = some ""
  opcode : s'.opcode = s.opcode
  operand : s'.operand.map Operand.ofWord = (s.operand.map Operand.ofWord).map g.operand

theorem carries_addOpcode {operand operand' : Option String} (line : Nat)
    (opcode : Option String)
    (h : operand'.map Operand.ofWord = (operand.map Operand.ofWord).map g.operand) :
    g.Carries (Draft.addStatement line ⟨none, opcode, operand⟩)
      (Draft.addStatement (g.line line) ⟨none, opcode, operand'⟩) := by
  cases opcode with
  | none => exact carries_pure
  | some word =>
    simp only [Draft.addStatement, h]
    cases Mnemonic.ofWord? word with
    | none => exact fun _ => rfl
    | some mnemonic => exact carries_addEntry g { line, mnemonic, operand := _ }

theorem carries_addStatement {s s' : Statement} (line : Nat) (h : g.Says s s') :
    g.Carries (Draft.addStatement line s) (Draft.addStatement (g.line line) s') := by
  obtain ⟨label, opcode, operand⟩ := s
  obtain ⟨label', opcode', operand'⟩ := s'
  obtain ⟨hlabel, hempty, hopcode, hoperand⟩ := h
  obtain rfl : opcode' = opcode := hopcode
  have hrest := carries_addOpcode line opcode' hoperand
  cases label with
  | none =>
    obtain rfl : label' = none := by simpa using hlabel
    exact hrest
  | some label =>
    obtain ⟨label', rfl, hname⟩ :
        ∃ l, label' = some l ∧ labelName l = g.name (labelName label) := by
      simpa using hlabel
    have hempty' : labelName label' = "" ↔ labelName label = "" := by simpa using hempty
    exact (carries_queueLabel line hname hempty').bind hrest

/-- The words `words'` say in the guise what `words` say, or have the flaw that these have. -/
def SaysWords (g : Guise) (words words' : List String) : Prop :=
  match Statement.ofWords words, Statement.ofWords words' with
  | .ok s, .ok s' => g.Says s s'
  | .error f, .error f' => f' = g.flaw f
  | _, _ => False

end Guise

namespace Draft

def parseWords (line : Nat) (words : List String) : EStateM Error Draft Unit :=
  match Statement.ofWords words with
  | .error flaw => throw (.flaw line flaw)
  | .ok s => addStatement line s

theorem parseLine_eq (line : Nat) (text : List Char) :
    parseLine line text = parseWords line (wordsOf text) := rfl

def parseNumbered : List (List String × Nat) → EStateM Error Draft Unit
  | [] => pure ()
  | (words, line) :: rest => do
    parseWords line words
    parseNumbered rest

theorem parseLines_eq (line : Nat) (texts : List (List Char)) :
    parseLines line texts = parseNumbered ((texts.map wordsOf).zipIdx line) := by
  induction texts generalizing line with
  | nil => rfl
  | cons text texts ih =>
    rw [parseLines, ih, List.map_cons, List.zipIdx_cons, parseNumbered, parseLine_eq]

end Draft

namespace Guise

variable {g : Guise}

theorem carries_parseWords {words words' : List String} (line : Nat)
    (h : g.SaysWords words words') :
    g.Carries (Draft.parseWords line words) (Draft.parseWords (g.line line) words') := by
  unfold SaysWords at h
  unfold Draft.parseWords
  split at h
  · rename_i s s' hs hs'
    rw [hs, hs']
    exact carries_addStatement line h
  · rename_i f f' hf hf'
    rw [hf, hf', h]
    exact fun _ => rfl
  · exact h.elim

theorem carries_parseNumbered {lines lines' : List (List String × Nat)}
    (h : List.Forall₂ (fun l l' => g.SaysWords l.1 l'.1 ∧ l'.2 = g.line l.2) lines lines') :
    g.Carries (Draft.parseNumbered lines) (Draft.parseNumbered lines') := by
  induction h with
  | nil => exact carries_pure
  | @cons l l' _ _ hl _ ih =>
    obtain ⟨words, line⟩ := l
    obtain ⟨words', line'⟩ := l'
    obtain ⟨hwords, rfl⟩ := hl
    exact (carries_parseWords line hwords).bind ih

/-! ## The same names and numbers -/

theorem operand_of_id (h : g.name = id) (x : Operand) : g.operand x = x := by
  cases x <;> simp [operand, h]

theorem table_of_id (h : g.name = id) (t : LabelTable) : g.table t = t := by
  simp [table, h]

theorem flaw_of_id (h : g.name = id) (f : Flaw) : g.flaw f = f := by
  cases f <;> simp [flaw, h]

theorem entry_of_id (hline : g.line = id) (hname : g.name = id) (e : Entry) : g.entry e = e := by
  simp [entry, hline, hname, funext (operand_of_id hname)]

theorem saysWords_of_id (h : g.name = id) (words : List String) : g.SaysWords words words := by
  unfold SaysWords
  cases Statement.ofWords words with
  | error f => exact (flaw_of_id h f).symm
  | ok s =>
    have hoperand : g.operand = id := funext (operand_of_id h)
    exact ⟨by simp [h], Iff.rfl, rfl, by simp [hoperand]⟩

end Guise

namespace Draft

def under (source : String) (settings : Settings) (d : Draft) : Draft := { d with source, settings }

/-- A step neither looks at the source text and the settings nor changes them. -/
def Blind {α : Type} (x : EStateM Error Draft α) : Prop :=
  ∀ source settings d, x (d.under source settings) =
    match x d with
    | .ok v d' => .ok v (d'.under source settings)
    | .error e d' => .error e (d'.under source settings)

theorem Blind.settings {α : Type} {x : EStateM Error Draft α} {v : α} {d d' : Draft} (hx : Blind x)
    (h : x d = .ok v d') : d'.settings = d.settings := by
  have hsame := hx d.source d.settings d
  change x d = _ at hsame
  rw [h] at hsame
  injection hsame with _ hd'
  have hsettings := congrArg Draft.settings hd'
  exact hsettings

theorem blind_of_carries {x : EStateM Error Draft Unit}
    (h : ∀ source settings, Guise.Carries { source, settings } x x) : Blind x := by
  intro source settings d
  have hentry : Guise.entry { source, settings } = id := funext (Guise.entry_of_id rfl rfl)
  have hdraft : ∀ d : Draft, Guise.draft { source, settings } d = d.under source settings := by
    intro d
    simp [Guise.draft, under, Guise.table_of_id, hentry]
  have hd := h source settings d
  rw [hdraft] at hd
  rw [hd]
  cases x d with
  | ok u d' => simp [Guise.result, hdraft]
  | error e d' => cases e <;> simp [Guise.result, hdraft, Guise.error, Guise.flaw_of_id]

theorem carries_parseNumbered_self (source : String) (settings : Settings)
    (lines : List (List String × Nat)) :
    Guise.Carries { source, settings } (parseNumbered lines) (parseNumbered lines) :=
  Guise.carries_parseNumbered
    (List.forall₂_same.mpr fun l _ => ⟨Guise.saysWords_of_id rfl l.1, rfl⟩)

theorem blind_parseNumbered (lines : List (List String × Nat)) : Blind (parseNumbered lines) :=
  blind_of_carries fun source settings => carries_parseNumbered_self source settings lines

theorem parseLines_settings {line : Nat} {texts : List (List Char)} {d d' : Draft}
    (h : parseLines line texts d = .ok () d') : d'.settings = d.settings := by
  rw [parseLines_eq] at h
  exact (blind_parseNumbered _).settings h

/-- Take in numbered lines, and then the end of the source on line `last`. -/
def parseAll (lines : List (List String × Nat)) (last : Nat) : EStateM Error Draft Unit := do
  parseNumbered lines
  finish last

theorem parseAll_settings {lines : List (List String × Nat)} {last : Nat} {d d' : Draft}
    (h : parseAll lines last d = .ok () d') : d'.settings = d.settings := by
  obtain ⟨u, d₁, hlines, hfinish⟩ := bind_eq_ok h
  rw [finish_settings hfinish, (blind_parseNumbered lines).settings hlines]

theorem resolve_settings {d d' : Draft} (h : resolve d = .ok () d') : d'.settings = d.settings := by
  unfold resolve at h
  split at h
  · cases h
    rfl
  · cases h

/-- The program that is made of the draft with which the stages up to resolving end. -/
def complete (a : Architecture) : EStateM.Result Error Draft Unit → Except Error Program
  | .error e _ => .error e
  | .ok () d =>
    match d.generate a with
    | .error e => .error e
    | .ok items =>
      let image := items.map (Item.encode a)
      if image.length ≤ a.memorySize then .ok { items, labels := d.labels, image }
      else .error (.programTooLarge image.length a.memorySize)

theorem assemble_eq_complete (a : Architecture) (d : Draft) :
    d.assemble a = complete a ((do parse; resolve : EStateM Error Draft Unit) d) := by
  unfold assemble complete
  rfl

end Draft

/-! ## Stages that look at the settings -/

namespace Guise

variable {g : Guise} {d : Draft}

theorem finish_draft (h : d.settings = g.settings) (last : Nat) :
    Draft.finish (g.line last) (g.draft d) = g.result id (Draft.finish last d) := by
  unfold Draft.finish
  rw [show (g.draft d).settings = d.settings from h.symm]
  split
  · exact carries_addEntry g
      { line := last, mnemonic := .code .halt, operand := some (.number 0) } d
  · rw [show (g.draft d).entries.size = d.entries.size by simp [draft], bindQueued_draft]
    cases Draft.bindQueued d.entries.size d <;> rfl

theorem parseAll_draft {lines lines' : List (List String × Nat)} (last : Nat)
    (hs : d.settings = g.settings)
    (h : List.Forall₂ (fun l l' => g.SaysWords l.1 l'.1 ∧ l'.2 = g.line l.2) lines lines') :
    Draft.parseAll lines' (g.line last) (g.draft d) =
      g.result id (Draft.parseAll lines last d) := by
  have hlines := carries_parseNumbered h d
  unfold Draft.parseAll
  cases hd : Draft.parseNumbered lines d with
  | error e d' =>
    rw [hd] at hlines
    rw [Draft.bind_of_error hlines, Draft.bind_of_error hd]
    rfl
  | ok u d' =>
    rw [hd] at hlines
    rw [Draft.bind_of_ok hlines, Draft.bind_of_ok hd]
    have hs' := (Draft.blind_parseNumbered lines).settings hd
    exact finish_draft (hs'.trans hs) last

theorem resolveEntry_entry (g : Guise) (labels : LabelTable) (e : Entry) :
    Draft.resolveEntry (g.table labels) (g.entry e) =
      match Draft.resolveEntry labels e with
      | .ok e' => .ok (g.entry e')
      | .error err => .error (g.error err) := by
  obtain ⟨line, mnemonic, operand, names⟩ := e
  match operand with
  | none => rfl
  | some (.number w) => rfl
  | some (.label name) =>
    simp only [Draft.resolveEntry, entry, Option.map_some, Guise.operand, find?_table]
    cases labels.find? name <;> rfl

theorem resolveFrom_entries (g : Guise) (labels : LabelTable) (done : Array Entry)
    (es : List Entry) :
    Draft.resolveFrom (g.table labels) (done.map g.entry) (es.map g.entry) =
      match Draft.resolveFrom labels done es with
      | .ok u out => .ok u (out.map g.entry)
      | .error err left => .error (g.error err) (left.map g.entry) := by
  induction es generalizing done with
  | nil => rfl
  | cons e es ih =>
    simp only [List.map_cons, Draft.resolveFrom, resolveEntry_entry]
    cases Draft.resolveEntry labels e with
    | ok e' =>
      have hrest := ih (done.push e')
      rw [Array.map_push] at hrest
      exact hrest
    | error err =>
      have hleft : done.map g.entry ++ (g.entry e :: es.map g.entry) =
          (done ++ (e :: es)).map g.entry := Array.ext' (by simp)
      simp only [hleft]

theorem carries_resolve (g : Guise) : g.Carries Draft.resolve Draft.resolve := by
  intro d
  have hpass := resolveFrom_entries g d.labels #[] d.entries.toList
  unfold Draft.resolve
  rw [show (g.draft d).entries.toList = d.entries.toList.map g.entry by simp [draft],
    show (g.draft d).labels = g.table d.labels from rfl]
  rw [Array.map_empty] at hpass
  rw [hpass]
  cases Draft.resolveFrom d.labels #[] d.entries.toList <;> rfl

theorem generateEntry_entry (g : Guise) (a : Architecture) (settings : Settings) (e : Entry) :
    Draft.generateEntry a settings (g.entry e) =
      (Draft.generateEntry a settings e).mapError g.error := by
  obtain ⟨line, mnemonic, operand, names⟩ := e
  -- What can be wrong with a value does not speak of labels.
  have hitem : ∀ v, (Draft.makeItem a settings mnemonic v).mapError (.flaw (g.line line)) =
      ((Draft.makeItem a settings mnemonic v).mapError (.flaw line)).mapError g.error := by
    intro v
    cases hmake : Draft.makeItem a settings mnemonic v with
    | ok item => rfl
    | error f => cases makeItem_eq_error.mp hmake <;> rfl
  match operand with
  | none => exact hitem none
  | some (.number w) => exact hitem (some w)
  | some (.label name) => rfl

theorem generate_draft (a : Architecture) (h : d.settings = g.settings) :
    (g.draft d).generate a = (d.generate a).mapError g.error := by
  unfold Draft.generate
  rw [show (g.draft d).entries.toList = d.entries.toList.map g.entry by simp [draft],
    show (g.draft d).settings = d.settings from h.symm]
  induction d.entries.toList with
  | nil => rfl
  | cons e es ih =>
    rw [List.map_cons, List.mapM_cons, List.mapM_cons, ih, generateEntry_entry]
    cases Draft.generateEntry a d.settings e with
    | error err => rfl
    | ok item => cases es.mapM (Draft.generateEntry a d.settings) <;> rfl

theorem complete_result (a : Architecture) {r : EStateM.Result Error Draft Unit}
    (h : ∀ d, r = .ok () d → d.settings = g.settings) :
    Draft.complete a (g.result id r) = g.outcome (Draft.complete a r) := by
  cases r with
  | error e d => rfl
  | ok u d =>
    simp only [result, Draft.complete, generate_draft a (h d rfl)]
    cases d.generate a with
    | error e => rfl
    | ok items =>
      simp only [Except.mapError]
      split <;> rfl

end Guise

def assembleNumbered (a : Architecture) (settings : Settings) (source : String)
    (lines : List (List String × Nat)) (last : Nat) : Except Error Program :=
  Draft.complete a
    ((do Draft.parseAll lines last; Draft.resolve : EStateM Error Draft Unit) { source, settings })

/-- Lines that say in a guise what others say are assembled to the same, in that guise. -/
theorem assembleNumbered_guise (a : Architecture) (g : Guise) (source : String) (last : Nat)
    {lines lines' : List (List String × Nat)}
    (h : List.Forall₂ (fun l l' => g.SaysWords l.1 l'.1 ∧ l'.2 = g.line l.2) lines lines') :
    assembleNumbered a g.settings g.source lines' (g.line last) =
      g.outcome (assembleNumbered a g.settings source lines last) := by
  have hparse := g.parseAll_draft (d := { source, settings := g.settings }) last rfl h
  rw [g.draft_empty] at hparse
  unfold assembleNumbered
  rw [← g.complete_result]
  · congr 1
    cases hd : Draft.parseAll lines last { source, settings := g.settings } with
    | error e d' =>
      rw [hd] at hparse
      rw [Draft.bind_of_error hd]
      exact Draft.bind_of_error hparse
    | ok u d' =>
      rw [hd] at hparse
      rw [Draft.bind_of_ok hd, ← g.carries_resolve]
      exact Draft.bind_of_ok hparse
  · intro d hd
    obtain ⟨u, d', hall, hresolve⟩ := Draft.bind_eq_ok hd
    rw [Draft.resolve_settings hresolve, Draft.parseAll_settings hall]

end LittleMan.Assembly
