import Mathlib.Tactic.Common
import LittleMan.Proofs.Assembly.Lines

/-!
# How assembling ends

Behind parsing come three passes over the entries: one replaces labels, one makes items, and one
counts them. Each looks at all entries before the next begins. So assembling either goes through all
of them, or it fails for the first thing that is wrong in the first pass that finds any.
-/

namespace LittleMan.Assembly

/-! ## Stages one after the other -/

namespace Draft

theorem assemble_of_parse_error {a : Architecture} {d d' : Draft} {e : Error}
    (hp : parse d = .error e d') : d.assemble a = .error e := by
  unfold assemble
  rw [bind_of_error hp]

theorem assemble_of_resolve_error {a : Architecture} {d d' : Draft} {e : Error}
    (hp : parse d = .ok () d')
    (hr : d'.entries.toList.mapM (resolveEntry d'.labels) = .error e) :
    d.assemble a = .error e := by
  have hresolve := resolveFrom_eq d'.labels #[] d'.entries.toList
  rw [hr] at hresolve
  obtain ⟨left, hleft⟩ := hresolve
  unfold assemble
  rw [bind_of_ok hp, resolve, hleft]

theorem assemble_of_resolve {a : Architecture} {d d' : Draft} {entries : List Entry}
    (hp : parse d = .ok () d')
    (hr : d'.entries.toList.mapM (resolveEntry d'.labels) = .ok entries) :
    d.assemble a =
      match d'.entries.toList.mapM
        (fun e => resolveEntry d'.labels e >>= generateEntry a d'.settings) with
      | .error e => .error e
      | .ok items =>
        if items.length ≤ a.memorySize then
          .ok { items, labels := d'.labels, image := items.map (Item.encode a) }
        else .error (.programTooLarge items.length a.memorySize) := by
  have hresolve := resolveFrom_eq d'.labels #[] d'.entries.toList
  rw [hr] at hresolve
  have hlist : ((#[] : Array Entry) ++ entries).toList = entries := by simp
  unfold assemble
  rw [bind_of_ok hp, resolve, ← mapM_of_mapM (generateEntry a d'.settings) hr]
  cases hitems : entries.mapM (generateEntry a d'.settings) with
  | error e => simp only [hresolve, generate, hlist, hitems]
  | ok items => simp only [hresolve, generate, hlist, hitems, List.length_map]

end Draft

/-! ## One entry -/

/-- What an operand stands for among lines of these words. -/
inductive Operand.Denotes (lines : List (List String)) : Operand → Word → Prop
  | number (w : Word) : Denotes lines (.number w) w
  | label {i : Nat} {name : String} (h : Declares lines i name) :
    Denotes lines (.label name) (Int64.ofNat ((lines.take i).countP bears))

def Entry.Resolvable (e : Entry) (lines : List (List String)) : Prop :=
  ∀ name, e.operand = some (.label name) → ∃ i, Declares lines i name

/-- What is wrong with a mnemonic that is written with the given value, or without one. -/
inductive Refused (a : Architecture) (settings : Settings) : Mnemonic → Option Word → Flaw → Prop
  | missing {op : Operation}
    (h : op ∈ [.add, .subtract, .store, .load, .branch, .branchIfZero, .branchIfPositive]) :
    Refused a settings (.code op) none (.missingOperand op)
  | disabled (v : Option Word) (h : settings.extensions = false) :
    Refused a settings (.code .outputChar) v (.extensionDisabled .outputChar)
  | range {op : Operation} {w : Word} (h : op ∉ [.input, .output, .outputChar])
    (hw : ¬ (0 ≤ w.toInt ∧ w.toInt < a.operandLimit)) :
    Refused a settings (.code op) (some w) (.operandOutOfRange w a.operandLimit)

/-- What is wrong with an entry whose operand, if it has one, stands for a value. -/
def Entry.Offends (a : Architecture) (settings : Settings) (lines : List (List String)) (e : Entry)
    (f : Flaw) : Prop :=
  ∃ v, Option.Rel (Operand.Denotes lines) e.operand v ∧ Refused a settings e.mnemonic v f

def Entry.Makes (a : Architecture) (settings : Settings) (lines : List (List String)) (e : Entry)
    (item : Item) : Prop :=
  ∃ v, Option.Rel (Operand.Denotes lines) e.operand v ∧
    Draft.makeItem a settings e.mnemonic v = .ok item

variable {lines : List (List String)}

theorem Operand.Denotes.unique (hl : WellFormed lines) {x : Operand} {v w : Word}
    (hv : x.Denotes lines v) (hw : x.Denotes lines w) : v = w := by
  cases hv with
  | number => cases hw; rfl
  | label hi =>
    cases hw with
    | label hj => rw [hl.once _ _ _ hi hj]

theorem blocked_iff {settings : Settings} {op : Operation} {extension : Extension} :
    op.extension.filter (!settings.allows ·) = some extension ↔
      op = .outputChar ∧ settings.extensions = false ∧ extension = .outputChar := by
  rw [Option.filter_eq_some_iff]
  cases op <;> cases extension <;> simp [Operation.extension, Settings.allows]

theorem not_blocked {settings : Settings} {op : Operation} (h : op ≠ .outputChar) :
    op.extension.filter (!settings.allows ·) = none := by
  rw [Option.eq_none_iff_forall_ne_some]
  intro extension hblocked
  exact h (blocked_iff.mp hblocked).1

theorem requiresOperand_iff {op : Operation} :
    op.requiresOperand = true ↔
      op ∈ [.add, .subtract, .store, .load, .branch, .branchIfZero, .branchIfPositive] := by
  cases op <;> decide

theorem isTransfer_iff {op : Operation} :
    op.isTransfer = true ↔ op ∈ [.input, .output, .outputChar] := by
  cases op <;> decide

theorem encodeOperand_error {a : Architecture} {op : Operation} {v : Option Word} {f : Flaw}
    (settings : Settings) (h : Draft.encodeOperand a op v = .error f) :
    Refused a settings (.code op) v f := by
  cases v with
  | none =>
    simp only [Draft.encodeOperand] at h
    split_ifs at h with hneeds
    cases h
    exact .missing (requiresOperand_iff.mp hneeds)
  | some w =>
    simp only [Draft.encodeOperand, Draft.operandField?] at h
    split_ifs at h with htransfer hw
    cases h
    rw [isTransfer_iff] at htransfer
    exact .range htransfer hw

theorem makeItem_eq_error {a : Architecture} {settings : Settings} {m : Mnemonic}
    {v : Option Word} {f : Flaw} :
    Draft.makeItem a settings m v = .error f ↔ Refused a settings m v f := by
  constructor
  · intro h
    cases m with
    | data => cases h
    | code op =>
      rw [Draft.makeItem_code] at h
      split at h
      · rename_i extension hblocked
        obtain ⟨rfl, hoff, rfl⟩ := blocked_iff.mp hblocked
        cases h
        exact .disabled v hoff
      · cases hfield : Draft.encodeOperand a op v with
        | ok field => rw [hfield] at h; cases h
        | error f' =>
          rw [hfield] at h
          cases h
          exact encodeOperand_error settings hfield
  · intro h
    cases h with
    | disabled v hoff =>
      rw [Draft.makeItem_code, blocked_iff.mpr ⟨rfl, hoff, rfl⟩]
    | missing hneeds =>
      rename_i op
      have hop : op ≠ .outputChar := by
        rintro rfl
        exact absurd hneeds (by decide)
      simp [Draft.makeItem_code, not_blocked hop, Draft.encodeOperand, requiresOperand_iff.mpr hneeds,
        Except.map]
    | range huses hw =>
      rename_i op w
      have hop : op ≠ .outputChar := by
        rintro rfl
        exact absurd huses (by decide)
      rw [← isTransfer_iff] at huses
      simp [Draft.makeItem_code, not_blocked hop, Draft.encodeOperand, huses, Draft.operandField?, hw,
        Except.map]

theorem makeItem_ne_notAnInstruction {a : Architecture} {settings : Settings} {m m' : Mnemonic}
    {v : Option Word} : Draft.makeItem a settings m v ≠ .error (.notAnInstruction m') := by
  rw [Ne, makeItem_eq_error]
  exact nofun

theorem Entry.resolvable_of_denotes {e : Entry} {v : Option Word}
    (hv : Option.Rel (Operand.Denotes lines) e.operand v) : e.Resolvable lines := by
  intro name hname
  rw [hname] at hv
  cases hv with
  | some hx =>
    cases hx with
    | label hi => exact ⟨_, hi⟩

theorem Entry.Makes.not_offends {a : Architecture} {settings : Settings} {e : Entry} {item : Item}
    (hl : WellFormed lines) (h : e.Makes a settings lines item) (f : Flaw) :
    ¬ e.Offends a settings lines f := by
  obtain ⟨v, hv, hmake⟩ := h
  rintro ⟨v', hv', hrefused⟩
  have hsame : v = v' := by
    generalize e.operand = x at hv hv'
    cases hv with
    | none => cases hv'; rfl
    | some hw =>
      cases hv' with
      | some hw' => rw [hw.unique hl hw']
  rw [hsame, makeItem_eq_error.mpr hrefused] at hmake
  cases hmake

namespace Draft

variable {d : Draft} {settings : Settings}

theorem Holds.resolveEntry (h : d.Holds settings lines) (e : Entry) :
    match resolveEntry d.labels e with
    | .ok e' => ∃ v, Option.Rel (Operand.Denotes lines) e.operand v ∧
        e' = { e with operand := v.map .number }
    | .error err => ∃ name, e.operand = some (.label name) ∧ (∀ i, ¬ Declares lines i name) ∧
        err = .flaw e.line (.undefinedLabel name) := by
  obtain ⟨line, mnemonic, operand, labels⟩ := e
  match operand with
  | none => exact ⟨none, .none, rfl⟩
  | some (.number w) => exact ⟨some w, .some (.number w), rfl⟩
  | some (.label name) =>
    simp only [Draft.resolveEntry]
    cases hfind : d.labels.find? name with
    | some k =>
      obtain ⟨i, hi, rfl⟩ := (h.labels name k).mp hfind
      exact ⟨_, .some (.label hi), rfl⟩
    | none =>
      refine ⟨name, rfl, ?_, rfl⟩
      intro i hi
      rw [(h.labels name _).mpr ⟨i, hi, rfl⟩] at hfind
      cases hfind

theorem Holds.resolvable (h : d.Holds settings lines) {e e' : Entry}
    (he : Draft.resolveEntry d.labels e = .ok e') : e.Resolvable lines := by
  have hresolve := h.resolveEntry e
  rw [he] at hresolve
  obtain ⟨v, hv, -⟩ := hresolve
  exact Entry.resolvable_of_denotes hv

theorem generateEntry_resolved (a : Architecture) (settings : Settings) (e : Entry)
    (v : Option Word) :
    generateEntry a settings { e with operand := v.map .number } =
      (makeItem a settings e.mnemonic v).mapError (.flaw e.line) := by
  cases v <;> rfl

theorem Holds.itemOf (a : Architecture) (h : d.Holds settings lines) (e : Entry) :
    match Draft.resolveEntry d.labels e >>= generateEntry a settings with
    | .ok item => e.Makes a settings lines item
    | .error err => e.Resolvable lines → ∃ f, e.Offends a settings lines f ∧ err = .flaw e.line f := by
  have hresolve := h.resolveEntry e
  cases he : Draft.resolveEntry d.labels e with
  | error err =>
    rw [he] at hresolve
    obtain ⟨name, hname, hnone, -⟩ := hresolve
    intro hresolvable
    obtain ⟨i, hi⟩ := hresolvable name hname
    exact absurd hi (hnone i)
  | ok e' =>
    rw [he] at hresolve
    obtain ⟨v, hv, rfl⟩ := hresolve
    change match generateEntry a settings _ with | .ok item => _ | .error err => _
    rw [generateEntry_resolved]
    cases hitem : makeItem a settings e.mnemonic v with
    | error f => exact fun _ => ⟨f, ⟨v, hv, makeItem_eq_error.mp hitem⟩, rfl⟩
    | ok item => exact ⟨v, hv, hitem⟩

end Draft

/-! ## All entries -/

/-- The number of cells that the entries of lines of these words take up. -/
def cells (settings : Settings) (lines : List (List String)) : Nat :=
  (entriesOf lines).length + if settings.appendTrailingHalt then 1 else 0

/-- Why lines of these words are not assembled: the first thing wrong in the first pass that finds
any. -/
inductive Fails (a : Architecture) (settings : Settings) (lines : List (List String)) :
    Error → Prop
  | line {n : Nat} {f : Flaw} (h : firstFlaw? [] lines = some (n, f)) :
    Fails a settings lines (.flaw n f)
  | label {before after : List Entry} {e : Entry} {name : String} (hl : WellFormed lines)
    (hsplit : entriesOf lines = before ++ e :: after) (hb : ∀ b ∈ before, b.Resolvable lines)
    (hname : e.operand = some (.label name)) (hnone : ∀ i, ¬ Declares lines i name) :
    Fails a settings lines (.flaw e.line (.undefinedLabel name))
  | operand {before after : List Entry} {e : Entry} {f : Flaw} (hl : WellFormed lines)
    (hr : ∀ e ∈ entriesOf lines, e.Resolvable lines)
    (hsplit : entriesOf lines = before ++ e :: after)
    (hb : ∀ b ∈ before, ∀ f, ¬ b.Offends a settings lines f)
    (hf : e.Offends a settings lines f) : Fails a settings lines (.flaw e.line f)
  | size (hl : WellFormed lines) (hr : ∀ e ∈ entriesOf lines, e.Resolvable lines)
    (ho : ∀ e ∈ entriesOf lines, ∀ f, ¬ e.Offends a settings lines f)
    (hsize : a.memorySize < cells settings lines) :
    Fails a settings lines (.programTooLarge (cells settings lines) a.memorySize)

structure Assembled (a : Architecture) (settings : Settings) (lines : List (List String))
    (program : Program) : Prop where
  wellFormed : WellFormed lines
  items : List.Forall₂ (Entry.Makes a settings lines)
    (entriesOf lines ++ Draft.trailing settings (lines.length + 1)) program.items
  image : program.image = program.items.map (Item.encode a)
  size : program.items.length ≤ a.memorySize

theorem mem_trailing {settings : Settings} {line : Nat} {e : Entry}
    (h : e ∈ Draft.trailing settings line) :
    e.mnemonic = .code .halt ∧ e.operand = some (.number 0) := by
  unfold Draft.trailing at h
  split_ifs at h
  · rw [List.mem_singleton] at h
    exact ⟨h ▸ rfl, h ▸ rfl⟩
  · cases h

theorem not_offends_of_mem_trailing {a : Architecture} {settings : Settings} {line : Nat}
    {e : Entry} (h : e ∈ Draft.trailing settings line) (f : Flaw) :
    ¬ e.Offends a settings lines f := by
  obtain ⟨hop, hzero⟩ := mem_trailing h
  rintro ⟨v, hv, hrefused⟩
  rw [hop] at hrefused
  rw [hzero] at hv
  cases hv with
  | some hx =>
    cases hx
    cases hrefused with
    | range _ hw => exact hw (by cases a <;> decide)

theorem length_entries (settings : Settings) (lines : List (List String)) (line : Nat) :
    (entriesOf lines ++ Draft.trailing settings line).length = cells settings lines := by
  rw [List.length_append, cells, Draft.trailing]
  split <;> rfl

namespace Draft

variable {d : Draft} {settings : Settings} {a : Architecture}

theorem Holds.split (h : d.Holds settings lines) {before after : List Entry} {e : Entry}
    (hsplit : d.entries.toList = before ++ e :: after)
    (he : e.bare ∉ trailing settings (lines.length + 1)) :
    ∃ after', entriesOf lines = before.map Entry.bare ++ e.bare :: after' := by
  have hentries := h.entries
  rw [hsplit, List.map_append, List.map_cons] at hentries
  exact split_of_append hentries.symm he

theorem Holds.resolvable_lines (h : d.Holds settings lines)
    (hr : ∀ e ∈ d.entries.toList, e.Resolvable lines) :
    ∀ e ∈ entriesOf lines, e.Resolvable lines := by
  intro e he
  have hmem : e ∈ d.entries.toList.map Entry.bare := by
    rw [h.entries]
    exact List.mem_append_left _ he
  obtain ⟨e', he', rfl⟩ := List.mem_map.mp hmem
  exact hr e' he'

theorem Holds.resolvable_all (h : d.Holds settings lines) {entries : List Entry}
    (hresolve : d.entries.toList.mapM (Draft.resolveEntry d.labels) = .ok entries) :
    ∀ e ∈ d.entries.toList, e.Resolvable lines := by
  intro e he
  obtain ⟨e', hok⟩ := exists_of_forall₂ (forall₂_of_mapM hresolve) he
  exact h.resolvable hok

theorem Holds.fails_label (h : d.Holds settings lines) (hl : WellFormed lines) {err : Error}
    (herr : d.entries.toList.mapM (Draft.resolveEntry d.labels) = .error err) :
    Fails a settings lines err := by
  obtain ⟨before, e, after, hsplit, hbefore, he⟩ := split_of_mapM herr
  have hresolve := h.resolveEntry e
  rw [he] at hresolve
  obtain ⟨name, hname, hnone, rfl⟩ := hresolve
  have hlast : e.bare ∉ trailing settings (lines.length + 1) := by
    intro hmem
    have hzero := (mem_trailing hmem).2
    change e.operand = _ at hzero
    rw [hname] at hzero
    cases hzero
  obtain ⟨after', hlines⟩ := h.split hsplit hlast
  have hb : ∀ b ∈ before.map Entry.bare, b.Resolvable lines := by
    intro b' hb'
    obtain ⟨b, hb, rfl⟩ := List.mem_map.mp hb'
    obtain ⟨resolved, hok⟩ := hbefore b hb
    exact h.resolvable (e := b) hok
  exact .label (e := e.bare) hl hlines hb hname hnone

theorem Holds.fails_operand (h : d.Holds settings lines) (hl : WellFormed lines)
    (hr : ∀ e ∈ d.entries.toList, e.Resolvable lines) {err : Error}
    (herr : d.entries.toList.mapM
      (fun e => Draft.resolveEntry d.labels e >>= generateEntry a settings) = .error err) :
    Fails a settings lines err := by
  obtain ⟨before, e, after, hsplit, hbefore, he⟩ := split_of_mapM herr
  have hitem := h.itemOf a e
  rw [he] at hitem
  obtain ⟨f, hf, rfl⟩ := hitem (hr e (by simp [hsplit]))
  obtain ⟨after', hlines⟩ := h.split hsplit fun hmem => not_offends_of_mem_trailing hmem f hf
  have hb : ∀ b ∈ before.map Entry.bare, ∀ f, ¬ b.Offends a settings lines f := by
    intro b' hb'
    obtain ⟨b, hb, rfl⟩ := List.mem_map.mp hb'
    obtain ⟨item, hok⟩ := hbefore b hb
    have hmade := h.itemOf a b
    rw [hok] at hmade
    exact Entry.Makes.not_offends (e := b) hl hmade
  exact .operand (e := e.bare) hl (h.resolvable_lines hr) hlines hb hf

theorem Holds.makes (h : d.Holds settings lines) {items : List Item}
    (hitems : d.entries.toList.mapM
      (fun e => Draft.resolveEntry d.labels e >>= generateEntry a settings) = .ok items) :
    List.Forall₂ (Entry.Makes a settings lines)
      (entriesOf lines ++ trailing settings (lines.length + 1)) items := by
  rw [← h.entries, List.forall₂_map_left_iff]
  apply (forall₂_of_mapM hitems).imp
  intro e item hok
  have hmade := h.itemOf a e
  rw [hok] at hmade
  exact hmade

end Draft

theorem assemble_of_flaw {source : String} {n : Nat} {f : Flaw} (a : Architecture)
    (settings : Settings) (h : firstFlaw? [] (linesOf source) = some (n, f)) :
    assemble a settings source = .error (.flaw n f) := by
  obtain ⟨d, hd⟩ := Draft.parse_of_flaw settings h
  exact Draft.assemble_of_parse_error hd

theorem assemble_outcome (a : Architecture) (settings : Settings) (source : String) :
    match assemble a settings source with
    | .ok program => Assembled a settings (linesOf source) program
    | .error e => Fails a settings (linesOf source) e := by
  cases hflaw : firstFlaw? [] (linesOf source) with
  | some found =>
    rw [assemble_of_flaw a settings hflaw]
    exact .line hflaw
  | none =>
    have hl : WellFormed (linesOf source) := (firstFlaw?_eq_none wellFormed_nil).mp hflaw
    obtain ⟨d, hd, h⟩ := Draft.parse_of_wellFormed settings hl
    unfold assemble
    cases hresolve : d.entries.toList.mapM (Draft.resolveEntry d.labels) with
    | error e =>
      rw [Draft.assemble_of_resolve_error hd hresolve]
      exact h.fails_label hl hresolve
    | ok entries =>
      have hr := h.resolvable_all hresolve
      rw [Draft.assemble_of_resolve hd hresolve, h.settings]
      cases hitems : d.entries.toList.mapM
          (fun e => Draft.resolveEntry d.labels e >>= Draft.generateEntry a settings) with
      | error e => exact h.fails_operand hl hr hitems
      | ok items =>
        have hmakes := h.makes hitems
        have hlength : items.length = cells settings (linesOf source) := by
          rw [← hmakes.length_eq, length_entries]
        dsimp only
        split_ifs with hsize
        · exact ⟨hl, hmakes, rfl, hsize⟩
        · rw [hlength] at hsize ⊢
          refine .size hl (h.resolvable_lines hr) ?_ (Nat.lt_of_not_le hsize)
          intro e he
          obtain ⟨item, hmade⟩ := exists_of_forall₂ hmakes (List.mem_append_left _ he)
          exact hmade.not_offends hl

end LittleMan.Assembly
