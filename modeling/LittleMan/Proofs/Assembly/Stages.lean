import Mathlib.Tactic.Common
import LittleMan.Assembly.Draft
import LittleMan.Proofs.Assembly.Passes

/-!
# What the stages do to a draft

One lemma for each of the small steps of parsing: what follows when it succeeds, and the draft it
leaves behind. Then the way through all stages for a source text that has no labels.
-/

namespace LittleMan.Assembly.Draft

/-! ## One step after the other -/

theorem bind_of_ok {α β : Type} {x : EStateM Error Draft α} {f : α → EStateM Error Draft β}
    {a : α} {d d' : Draft} (h : x d = .ok a d') : (x >>= f) d = f a d' := by
  show EStateM.bind x f d = f a d'
  unfold EStateM.bind
  rw [h]

theorem bind_of_error {α β : Type} {x : EStateM Error Draft α} {f : α → EStateM Error Draft β}
    {e : Error} {d d' : Draft} (h : x d = .error e d') : (x >>= f) d = .error e d' := by
  show EStateM.bind x f d = .error e d'
  unfold EStateM.bind
  rw [h]

theorem bind_eq_ok {α β : Type} {x : EStateM Error Draft α} {f : α → EStateM Error Draft β}
    {b : β} {d d'' : Draft} (h : (x >>= f) d = .ok b d'') :
    ∃ a d', x d = .ok a d' ∧ f a d' = .ok b d'' := by
  change EStateM.bind x f d = .ok b d'' at h
  unfold EStateM.bind at h
  split at h
  · rename_i a d' hx
    exact ⟨a, d', hx, h⟩
  · cases h

/-! ## Binding -/

/-- The draft with the labels of `queue` bound to `index`. -/
def bindTo (d : Draft) (queue : List (String × Nat)) (index : Nat) : Draft :=
  { d with labels := ⟨(queue.map fun q => (q.1, index)).reverse ++ d.labels.bindings⟩ }

theorem bindFrom_ok {index : Nat} {bound names : List String} {d d' : Draft}
    {queue : List (String × Nat)} (h : bindFrom index bound d queue = .ok names d') :
    names = bound.reverse ++ queue.map Prod.fst ∧ d' = d.bindTo queue index := by
  induction queue generalizing bound d with
  | nil =>
    cases h
    exact ⟨by simp, by simp [bindTo]⟩
  | cons q queue ih =>
    obtain ⟨label, line⟩ := q
    unfold bindFrom at h
    split at h
    · cases h
    · obtain ⟨hnames, hd⟩ := ih h
      refine ⟨by simp [hnames], ?_⟩
      rw [hd]
      simp [bindTo, LabelTable.insert]

theorem bindQueued_ok {index : Nat} {names : List String} {d d' : Draft}
    (h : bindQueued index d = .ok names d') :
    names = d.queued.map Prod.fst ∧ d' = { d.bindTo d.queued index with queued := [] } := by
  obtain ⟨hnames, hd⟩ := bindFrom_ok h
  exact ⟨by simpa using hnames, hd⟩

theorem bindQueued_of_nil {index : Nat} {d : Draft} (h : d.queued = []) :
    bindQueued index d = .ok [] d := by
  obtain ⟨source, settings, entries, labels, queued⟩ := d
  obtain rfl : queued = [] := h
  rfl

/-! ## Entries -/

theorem addEntry_ok {entry : Entry} {d d' : Draft} (h : addEntry entry d = .ok () d') :
    d' = { d.bindTo d.queued d.entries.size with
      queued := []
      entries := d.entries.push { entry with labels := d.queued.map Prod.fst } } := by
  unfold addEntry at h
  split at h
  · cases h
  · rename_i names d₁ hbind
    obtain ⟨rfl, rfl⟩ := bindQueued_ok hbind
    cases h
    rfl

theorem addEntry_of_nil {entry : Entry} {d : Draft} (h : d.queued = []) :
    addEntry entry d = .ok () { d with entries := d.entries.push { entry with labels := [] } } := by
  unfold addEntry
  rw [bindQueued_of_nil h]

/-! ## Labels -/

theorem queueLabel_ok {line : Nat} {label : String} {d d' : Draft}
    (h : queueLabel line label d = .ok () d') :
    labelName label ≠ "" ∧ d.labels.contains (labelName label) = false ∧
      labelName label ∉ d.queued.map Prod.fst ∧
      d' = { d with queued := d.queued ++ [(labelName label, line)] } := by
  unfold queueLabel at h
  dsimp only at h
  split_ifs at h with hempty hrepeated
  cases h
  simp only [Bool.or_eq_true, not_or, Bool.not_eq_true] at hrepeated
  refine ⟨hempty, hrepeated.1, ?_, rfl⟩
  intro hmem
  obtain ⟨⟨_, n⟩, hq, rfl⟩ := List.mem_map.mp hmem
  exact absurd hrepeated.2 (by simpa using ⟨n, hq⟩)

/-! ## Lines -/

theorem addStatement_ok_of_no_label {line : Nat} {opcode operand : Option String} {d d' : Draft}
    (h : addStatement line ⟨none, opcode, operand⟩ d = .ok () d') :
    opcode = none ∧ d' = d ∨
      ∃ word mnemonic, opcode = some word ∧ Mnemonic.ofWord? word = some mnemonic ∧
        addEntry { line, mnemonic, operand := operand.map .ofWord } d = .ok () d' := by
  cases opcode with
  | none =>
    cases h
    exact .inl ⟨rfl, rfl⟩
  | some word =>
    simp only [addStatement] at h
    cases hword : Mnemonic.ofWord? word with
    | none => rw [hword] at h; cases h
    | some mnemonic =>
      rw [hword] at h
      exact .inr ⟨word, mnemonic, rfl, hword, h⟩

theorem addStatement_ok {line : Nat} {s : Statement} {d d' : Draft}
    (h : addStatement line s d = .ok () d') :
    ∃ d₁,
      (s.label = none ∧ d₁ = d ∨
        ∃ label, s.label = some label ∧ queueLabel line label d = .ok () d₁) ∧
      (s.opcode = none ∧ d' = d₁ ∨
        ∃ opcode mnemonic, s.opcode = some opcode ∧ Mnemonic.ofWord? opcode = some mnemonic ∧
          addEntry { line, mnemonic, operand := s.operand.map .ofWord } d₁ = .ok () d') := by
  obtain ⟨label, opcode, operand⟩ := s
  cases label with
  | none => exact ⟨d, .inl ⟨rfl, rfl⟩, addStatement_ok_of_no_label h⟩
  | some label =>
    obtain ⟨u, d₁, hqueue, hrest⟩ := bind_eq_ok (x := queueLabel line label) h
    exact ⟨d₁, .inr ⟨label, rfl, hqueue⟩, addStatement_ok_of_no_label hrest⟩

theorem parseLine_ok {line : Nat} {text : List Char} {d d' : Draft}
    (h : parseLine line text d = .ok () d') :
    ∃ s, Statement.ofWords (wordsOf text) = .ok s ∧ addStatement line s d = .ok () d' := by
  unfold parseLine at h
  cases hs : Statement.ofWords (wordsOf text) with
  | error flaw => rw [hs] at h; cases h
  | ok s =>
    rw [hs] at h
    exact ⟨s, rfl, h⟩

theorem parseLine_of_no_words {line : Nat} {text : List Char} {d : Draft}
    (h : wordsOf text = []) : parseLine line text d = .ok () d := by
  unfold parseLine
  rw [h]
  rfl

theorem parseLines_cons_of_ok {line : Nat} {text : List Char} {texts : List (List Char)}
    {d d' : Draft} (h : parseLine line text d = .ok () d') :
    parseLines line (text :: texts) d = parseLines (line + 1) texts d' := bind_of_ok h

theorem parseLines_of_no_words {texts rest : List (List Char)} (line : Nat) (d : Draft)
    (h : ∀ text ∈ texts, wordsOf text = []) :
    parseLines line (texts ++ rest) d = parseLines (line + texts.length) rest d := by
  induction texts generalizing line with
  | nil => rfl
  | cons text texts ih =>
    have hline : parseLine line text d = .ok () d :=
      parseLine_of_no_words (h text List.mem_cons_self)
    rw [List.cons_append, parseLines_cons_of_ok hline,
      ih (line + 1) fun text' ht => h text' (List.mem_cons_of_mem _ ht),
      List.length_cons, Nat.add_assoc, Nat.add_comm 1]

theorem parseLine_congr {text text' : List Char} (line : Nat) (h : wordsOf text = wordsOf text') :
    parseLine line text = parseLine line text' := by
  unfold parseLine
  rw [h]

theorem parseLines_congr {texts texts' : List (List Char)} (line : Nat)
    (h : texts.map wordsOf = texts'.map wordsOf) :
    parseLines line texts = parseLines line texts' := by
  induction texts generalizing line texts' with
  | nil =>
    rw [List.map_nil, eq_comm, List.map_eq_nil_iff] at h
    rw [h]
  | cons text texts ih =>
    cases texts' with
    | nil => simp at h
    | cons text' texts' =>
      rw [List.map_cons, List.map_cons, List.cons.injEq] at h
      unfold parseLines
      rw [parseLine_congr line h.1, ih (line + 1) h.2]

theorem parseLines_append (line : Nat) (texts more : List (List Char)) :
    parseLines line (texts ++ more) = (do
      parseLines line texts
      parseLines (line + texts.length) more) := by
  induction texts generalizing line with
  | nil => rfl
  | cons text texts ih =>
    rw [List.cons_append, parseLines, ih, parseLines, bind_assoc, List.length_cons, Nat.add_assoc,
      Nat.add_comm 1]

/-! ## The end of the source -/

/-- The entry behind the last line, if the settings ask for one. -/
def trailing (settings : Settings) (line : Nat) : List Entry :=
  if settings.appendTrailingHalt then
    [{ line, mnemonic := .code .halt, operand := some (.number 0) }]
  else []

theorem finish_of_nil {line : Nat} {d : Draft} (h : d.queued = []) :
    finish line d = .ok () { d with entries := d.entries ++ trailing d.settings line } := by
  unfold finish trailing
  split
  · rw [addEntry_of_nil h]
    simp
  · rw [bindQueued_of_nil h]
    simp

theorem parse_of_parseLines {d d' : Draft} {texts : List (List Char)}
    (ht : Text.lines d.source.toList = texts) (h : parseLines 1 texts d = .ok () d') :
    parse d = finish (texts.length + 1) d' := by
  unfold parse
  rw [ht]
  exact bind_of_ok h

theorem generate_trailing (a : Architecture) (settings : Settings) (line : Nat) :
    (trailing settings line).mapM (generateEntry a settings) =
      .ok (if settings.appendTrailingHalt then [.code (.halt 0)] else []) := by
  unfold trailing
  split
  · cases a <;> rfl
  · rfl

/-! ## Resolving and generating -/

/-- Only data words have no instruction, and they are told apart first: an operand that can be
encoded is never refused afterwards. -/
theorem makeItem_code (a : Architecture) (settings : Settings) (op : Operation)
    (value : Option Word) :
    makeItem a settings (.code op) value =
      match op.extension.filter (!settings.allows ·) with
      | some extension => .error (.extensionDisabled extension)
      | none => (encodeOperand a op value).map fun field => .code (op.instruction field) := by
  simp only [makeItem]
  cases op.extension.filter (!settings.allows ·) with
  | some extension => rfl
  | none => cases encodeOperand a op value <;> rfl

theorem resolveEntry_of_generate {a : Architecture} {settings : Settings} {e : Entry} {item : Item}
    (labels : LabelTable) (h : generateEntry a settings e = .ok item) :
    resolveEntry labels e = .ok e := by
  unfold resolveEntry
  split
  · -- A label as operand makes no item.
    rename_i name hname
    unfold generateEntry at h
    rw [hname] at h
    cases h
  · rfl

theorem resolveFrom_eq (labels : LabelTable) (done : Array Entry) (es : List Entry) :
    match es.mapM (resolveEntry labels) with
    | .ok out => resolveFrom labels done es = .ok () (done ++ out)
    | .error e => ∃ left, resolveFrom labels done es = .error e left := by
  induction es generalizing done with
  | nil => simp [resolveFrom, pure, Except.pure]
  | cons entry es ih =>
    rw [List.mapM_cons]
    unfold resolveFrom
    cases resolveEntry labels entry with
    | error e => exact ⟨_, rfl⟩
    | ok entry' =>
      have hrest := ih (done.push entry')
      cases hes : es.mapM (resolveEntry labels) with
      | error e =>
        rw [hes] at hrest
        exact hrest
      | ok out =>
        rw [hes] at hrest
        simpa [bind, Except.bind, pure, Except.pure] using hrest

theorem resolve_of_fixed {d : Draft}
    (h : ∀ e ∈ d.entries.toList, resolveEntry d.labels e = .ok e) : resolve d = .ok () d := by
  have hpass := resolveFrom_eq d.labels #[] d.entries.toList
  rw [mapM_of_fixed h] at hpass
  unfold resolve
  rw [hpass]
  simp

theorem assemble_of_generate {a : Architecture} {d d' : Draft} {items : List Item}
    (hp : parse d = .ok () d') (hg : d'.generate a = .ok items) :
    d.assemble a =
      if items.length ≤ a.memorySize then
        .ok { items, labels := d'.labels, image := items.map (Item.encode a) }
      else .error (.programTooLarge items.length a.memorySize) := by
  have hr : resolve d' = .ok () d' := by
    apply resolve_of_fixed
    intro e he
    obtain ⟨item, hitem⟩ := exists_of_forall₂ (forall₂_of_mapM hg) he
    exact resolveEntry_of_generate _ hitem
  have hboth : (do parse; resolve : EStateM Error Draft Unit) d = .ok () d' := by
    rw [bind_of_ok hp, hr]
  unfold assemble
  rw [hboth]
  dsimp only
  rw [hg]
  simp only [List.length_map]

end LittleMan.Assembly.Draft
