import Mathlib.Tactic.Common
import Mathlib.Data.List.Nodup
import LittleMan.Proofs.Assembly.Outcome

/-!
# Stages run one by one

The stages can be run on a draft in any order, again and again, also where one of them has failed.
What is known of the table of labels, the queue and the entries holds of every draft they leave
behind: no label is there twice, none stands for anything behind the last entry, and what was bound
or taken in stays. So parsing never fails where labels are bound, only at a line that it cannot take
in. Once labels are resolved, and until more lines are taken in, none is left for generating to
complain about.
-/

namespace LittleMan.Assembly

/-! ## Stages -/

inductive Stage
  | parse
  | resolve
  | generate (a : Architecture)
deriving DecidableEq

/-- The draft that a stage leaves behind, whether it goes through or fails. -/
def Stage.leaves (d : Draft) : Stage → Draft
  | parse =>
    match d.parse with
    | .ok _ d' | .error _ d' => d'
  | resolve =>
    match d.resolve with
    | .ok _ d' | .error _ d' => d'
  | generate _ => d

namespace Draft

def after (d : Draft) (stages : List Stage) : Draft := stages.foldl Stage.leaves d

/-! ## Coherent drafts -/

/-- What holds of a draft whatever stages have been run. A label may stand for the place behind the
last entry, so `bound` says no more than `≤`. -/
structure Coherent (d : Draft) : Prop where
  nodup : ((d.labels.bindings.map Prod.fst).reverse ++ d.queued.map Prod.fst).Nodup
  named : ∀ q ∈ d.queued, q.1 ≠ ""
  bound : ∀ p ∈ d.labels.bindings, p.2 ≤ d.entries.size
  listed : ∀ k e, d.entries[k]? = some e → ∀ name ∈ e.labels, (name, k) ∈ d.labels.bindings

variable {d d' d'' : Draft}

theorem coherent_empty (source : String) (settings : Settings) :
    Coherent { source, settings } := by
  constructor <;> simp

theorem Coherent.table_nodup (h : d.Coherent) : (d.labels.bindings.map Prod.fst).Nodup := by
  rw [← List.nodup_reverse]
  exact h.nodup.of_append_left

theorem Coherent.find?_eq_some (h : d.Coherent) {name : String} {k : Nat} :
    d.labels.find? name = some k ↔ (name, k) ∈ d.labels.bindings :=
  LabelTable.find?_eq_some h.table_nodup

theorem Coherent.find?_queued (h : d.Coherent) {q : String × Nat} (hq : q ∈ d.queued) :
    d.labels.find? q.1 = none := by
  rw [Option.eq_none_iff_forall_ne_some]
  intro k hk
  have hbound := h.find?_eq_some.mp hk
  have hdisjoint := List.disjoint_of_nodup_append h.nodup
  apply hdisjoint (a := q.1)
  · exact List.mem_reverse.mpr (List.mem_map.mpr ⟨_, hbound, rfl⟩)
  · exact List.mem_map_of_mem hq

/-- What taking in lines does to a draft: entries and bindings are added to those that are there,
and it stays coherent. -/
structure Advances (d d' : Draft) : Prop where
  coherent : d'.Coherent
  entries : d.entries.toList <+: d'.entries.toList
  bindings : d.labels.bindings <:+ d'.labels.bindings

theorem Coherent.advances (h : d.Coherent) : d.Advances d :=
  ⟨h, List.prefix_rfl, List.suffix_rfl⟩

theorem Advances.trans (h : d.Advances d') (h' : d'.Advances d'') : d.Advances d'' :=
  ⟨h'.coherent, h.entries.trans h'.entries, h.bindings.trans h'.bindings⟩

/-! ## Labels and entries -/

theorem Coherent.of_queueLabel (h : d.Coherent) {line : Nat} {label : String}
    (hq : queueLabel line label d = .ok () d') : d.Advances d' := by
  obtain ⟨hname, htable, hqueue, rfl⟩ := queueLabel_ok hq
  refine ⟨{ h with nodup := ?_, named := ?_ }, List.prefix_rfl, List.suffix_rfl⟩
  · have hnew : labelName label ∉
        (d.labels.bindings.map Prod.fst).reverse ++ d.queued.map Prod.fst := by
      rw [List.mem_append, List.mem_reverse, not_or]
      exact ⟨LabelTable.not_mem_of_contains htable, hqueue⟩
    rw [List.map_append, ← List.append_assoc]
    simpa using h.nodup.concat hnew
  · intro q hq
    rw [List.mem_append, List.mem_singleton] at hq
    rcases hq with hq | rfl
    · exact h.named q hq
    · exact hname

theorem queueLabel_error {line : Nat} {label : String} {e : Error}
    (hq : queueLabel line label d = .error e d') : d' = d := by
  unfold queueLabel at hq
  dsimp only at hq
  split_ifs at hq <;> cases hq <;> rfl

theorem Coherent.bindTo (h : d.Coherent) :
    d.Advances { d.bindTo d.queued d.entries.size with queued := [] } := by
  refine ⟨⟨?_, ?_, ?_, ?_⟩, List.prefix_rfl, List.suffix_append _ _⟩
  · simpa [Draft.bindTo, Function.comp_def] using h.nodup
  · simp
  · rintro ⟨name, k⟩ hp
    rcases mem_bindTo.mp hp with ⟨-, rfl⟩ | hp
    · exact Nat.le_refl _
    · exact h.bound _ hp
  · intro k e he name hname
    exact mem_bindTo.mpr (.inr (h.listed k e he name hname))

theorem Coherent.addEntry (h : d.Coherent) (entry : Entry) :
    ∃ d', addEntry entry d = .ok () d' ∧ d.Advances d' := by
  obtain ⟨d', hd'⟩ := addEntry_of_nodup entry h.nodup
  refine ⟨d', hd', ?_⟩
  obtain rfl := addEntry_ok hd'
  have hbound := h.bindTo
  refine ⟨⟨hbound.coherent.nodup, by simp, ?_, ?_⟩, by simp, hbound.bindings⟩
  · intro p hp
    rw [Array.size_push]
    exact Nat.le_succ_of_le (hbound.coherent.bound p hp)
  · intro k e he name hname
    rw [Array.getElem?_push] at he
    split_ifs at he with hk
    · cases he
      exact mem_bindTo.mpr (.inl ⟨hname, hk⟩)
    · exact hbound.coherent.listed k e he name hname

theorem Coherent.finish (h : d.Coherent) (line : Nat) :
    ∃ d', finish line d = .ok () d' ∧ d.Advances d' := by
  unfold Draft.finish
  split
  · exact h.addEntry _
  · obtain ⟨names, d', hbind⟩ := bindQueued_of_nodup d.entries.size h.nodup
    obtain ⟨-, rfl⟩ := bindQueued_ok hbind
    rw [hbind]
    exact ⟨_, rfl, h.bindTo⟩

/-! ## Lines -/

/-- Why a line is not taken in: its words make no statement, its label cannot be put in the queue,
or its opcode is none. Nothing is bound before all of this has been looked at. -/
inductive Rejects (d : Draft) (line : Nat) (text : List Char) : Error → Prop
  | words {f : Flaw} (h : Statement.ofWords (wordsOf text) = .error f) :
    Rejects d line text (.flaw line f)
  | label {s : Statement} {label : String} {e : Error} {d' : Draft}
    (h : Statement.ofWords (wordsOf text) = .ok s) (hl : s.label = some label)
    (hq : queueLabel line label d = .error e d') : Rejects d line text e
  | opcode {s : Statement} {word : String} (h : Statement.ofWords (wordsOf text) = .ok s)
    (hs : s.opcode = some word) (hw : Mnemonic.ofWord? word = none) :
    Rejects d line text (.flaw line (.notAnOpcode word))

def RejectsOne (d : Draft) (line : Nat) (texts : List (List Char)) (e : Error) : Prop :=
  ∃ before text after d', texts = before ++ text :: after ∧
    parseLines line before d = .ok () d' ∧ d'.Rejects (line + before.length) text e

/-- The draft advances, and an error has a cause. -/
def Proceeds (d : Draft) (cause : Error → Prop) : EStateM.Result Error Draft Unit → Prop
  | .ok _ d' => d.Advances d'
  | .error e d' => d.Advances d' ∧ cause e

theorem Proceeds.of_advances {cause : Error → Prop} {r : EStateM.Result Error Draft Unit}
    (h : d.Advances d') (hr : d'.Proceeds cause r) : d.Proceeds cause r := by
  cases r with
  | ok u d'' => exact h.trans hr
  | error e d'' => exact ⟨h.trans hr.1, hr.2⟩

theorem Proceeds.imp {cause cause' : Error → Prop} {r : EStateM.Result Error Draft Unit}
    (h : d.Proceeds cause r) (himp : ∀ e, cause e → cause' e) : d.Proceeds cause' r := by
  cases r with
  | ok u d' => exact h
  | error e d' => exact ⟨h.1, himp e h.2⟩

theorem Proceeds.bind {cause : Error → Prop} {x y : EStateM Error Draft Unit}
    (hx : d.Proceeds cause (x d))
    (hy : ∀ d', x d = .ok () d' → d'.Coherent → d'.Proceeds cause (y d')) :
    d.Proceeds cause ((x >>= fun _ => y) d) := by
  cases hd' : x d with
  | error e d' =>
    rw [hd'] at hx
    rw [bind_of_error hd']
    exact hx
  | ok u d' =>
    rw [hd'] at hx
    rw [bind_of_ok hd']
    exact (hy d' hd' hx.coherent).of_advances hx

theorem Coherent.addOpcode (h : d.Coherent) (line : Nat) (opcode operand : Option String) :
    d.Proceeds (fun e => ∃ word, opcode = some word ∧ Mnemonic.ofWord? word = none ∧
        e = .flaw line (.notAnOpcode word))
      (addStatement line ⟨none, opcode, operand⟩ d) := by
  cases opcode with
  | none => exact h.advances
  | some word =>
    cases hword : Mnemonic.ofWord? word with
    | none =>
      simp only [addStatement, hword]
      exact ⟨h.advances, word, rfl, hword, rfl⟩
    | some mnemonic =>
      simp only [addStatement, hword]
      obtain ⟨d', hd', hadvances⟩ :=
        h.addEntry { line, mnemonic, operand := operand.map .ofWord }
      rw [hd']
      exact hadvances

theorem Coherent.queueLabel (h : d.Coherent) (line : Nat) (label : String) :
    d.Proceeds (fun e => ∃ d', queueLabel line label d = .error e d')
      (queueLabel line label d) := by
  cases hq : Draft.queueLabel line label d with
  | ok u d' => exact h.of_queueLabel hq
  | error e d' =>
    obtain rfl := queueLabel_error hq
    exact ⟨h.advances, _, rfl⟩

theorem Coherent.parseLine (h : d.Coherent) (line : Nat) (text : List Char) :
    d.Proceeds (d.Rejects line text) (parseLine line text d) := by
  unfold Draft.parseLine
  cases hs : Statement.ofWords (wordsOf text) with
  | error f => exact ⟨h.advances, .words hs⟩
  | ok s =>
    obtain ⟨label, opcode, operand⟩ := s
    have hopcode : ∀ d' : Draft, d'.Coherent →
        d'.Proceeds (d.Rejects line text) (addStatement line ⟨none, opcode, operand⟩ d') := by
      intro d' h'
      apply (h'.addOpcode line opcode operand).imp
      rintro e ⟨word, hopcode, hword, rfl⟩
      exact .opcode hs hopcode hword
    cases label with
    | none => exact hopcode d h
    | some label =>
      have hlabel : d.Proceeds (d.Rejects line text) (Draft.queueLabel line label d) := by
        apply (h.queueLabel line label).imp
        rintro e ⟨d', hq⟩
        exact .label hs rfl hq
      exact hlabel.bind fun d' _ h' => hopcode d' h'

theorem Coherent.parseLines (h : d.Coherent) (line : Nat) (texts : List (List Char)) :
    d.Proceeds (d.RejectsOne line texts) (parseLines line texts d) := by
  induction texts generalizing d line with
  | nil => exact h.advances
  | cons text texts ih =>
    have hline : d.Proceeds (d.RejectsOne line (text :: texts)) (Draft.parseLine line text d) := by
      apply (h.parseLine line text).imp
      intro e he
      exact ⟨[], text, texts, d, rfl, rfl, he⟩
    apply hline.bind
    intro d₁ hd₁ h₁
    apply (ih h₁ (line + 1)).imp
    rintro e ⟨before, text', after, d', rfl, hbefore, he⟩
    refine ⟨text :: before, text', after, d', rfl, ?_, ?_⟩
    · rw [parseLines_cons_of_ok hd₁]
      exact hbefore
    · rw [List.length_cons, Nat.add_comm before.length, ← Nat.add_assoc]
      exact he

theorem Coherent.parse (h : d.Coherent) :
    d.Proceeds (d.RejectsOne 1 (Text.lines d.source.toList)) (parse d) := by
  apply (h.parseLines 1 (Text.lines d.source.toList)).bind
  intro d₁ _ h₁
  obtain ⟨d', hd', hadvances⟩ := h₁.finish ((Text.lines d.source.toList).length + 1)
  rw [hd']
  exact hadvances

/-! ## Entries resolved -/

/-- No label is left among the operands. -/
def Resolved (d : Draft) : Prop :=
  ∀ e ∈ d.entries.toList, ∀ name, e.operand ≠ some (.label name)

theorem resolveEntry_ok {labels : LabelTable} {e e' : Entry}
    (h : resolveEntry labels e = .ok e') :
    e'.labels = e.labels ∧ ∀ name, e'.operand ≠ some (.label name) := by
  unfold resolveEntry at h
  split at h
  · split at h
    · cases h
      simp
    · cases h
  · rename_i hother
    cases h
    exact ⟨rfl, hother⟩

theorem resolveEntry_of_no_label {e : Entry} (labels : LabelTable)
    (h : ∀ name, e.operand ≠ some (.label name)) : resolveEntry labels e = .ok e := by
  unfold resolveEntry
  split
  · rename_i name hname
    exact absurd hname (h name)
  · rfl

theorem resolveFrom_labels (labels : LabelTable) (done : Array Entry) (es : List Entry) :
    match resolveFrom labels done es with
    | .ok _ out | .error _ out =>
      out.toList.map Entry.labels = done.toList.map Entry.labels ++ es.map Entry.labels := by
  induction es generalizing done with
  | nil => simp [resolveFrom]
  | cons e es ih =>
    unfold resolveFrom
    cases he : resolveEntry labels e with
    | error f => simp
    | ok e' =>
      have hrest := ih (done.push e')
      rw [Array.toList_push, List.map_append, List.append_assoc] at hrest
      simpa [(resolveEntry_ok he).1] using hrest

theorem leaves_resolve (d : Draft) :
    ∃ entries : Array Entry, Stage.resolve.leaves d = { d with entries } ∧
      entries.toList.map Entry.labels = d.entries.toList.map Entry.labels := by
  have hlabels := resolveFrom_labels d.labels #[] d.entries.toList
  unfold Stage.leaves resolve
  cases hr : resolveFrom d.labels #[] d.entries.toList with
  | ok u entries =>
    rw [hr] at hlabels
    exact ⟨entries, rfl, by simpa using hlabels⟩
  | error e entries =>
    rw [hr] at hlabels
    exact ⟨entries, rfl, by simpa using hlabels⟩

theorem resolved_of_resolve (h : resolve d = .ok () d') : d'.Resolved := by
  have hpass := resolveFrom_eq d.labels #[] d.entries.toList
  unfold resolve at h
  cases hentries : d.entries.toList.mapM (resolveEntry d.labels) with
  | error e =>
    rw [hentries] at hpass
    obtain ⟨left, hleft⟩ := hpass
    rw [hleft] at h
    cases h
  | ok out =>
    rw [hentries] at hpass
    rw [hpass] at h
    cases h
    intro e he
    have hmem : e ∈ out := by simpa using he
    obtain ⟨source, hsource⟩ := exists_of_forall₂ (forall₂_of_mapM hentries).flip hmem
    exact (resolveEntry_ok hsource).2

theorem Resolved.resolve (h : d.Resolved) : resolve d = .ok () d :=
  resolve_of_fixed fun e he => resolveEntry_of_no_label d.labels (h e he)

theorem Resolved.after (h : d.Resolved) {stages : List Stage} (hs : .parse ∉ stages) :
    (d.after stages).Resolved := by
  induction stages generalizing d with
  | nil => exact h
  | cons s stages ih =>
    rw [List.mem_cons, not_or] at hs
    apply ih _ hs.2
    cases s with
    | parse => exact absurd rfl hs.1
    | resolve =>
      unfold Stage.leaves
      rw [h.resolve]
      exact h
    | generate a => exact h

/-! ## Any stages -/

theorem Coherent.leaves_parse (h : d.Coherent) : d.Advances (Stage.parse.leaves d) := by
  have hparse := h.parse
  unfold Stage.leaves
  cases hp : Draft.parse d with
  | ok u d' =>
    rw [hp] at hparse
    exact hparse
  | error e d' =>
    rw [hp] at hparse
    exact hparse.1

theorem Coherent.leaves_resolve (h : d.Coherent) : (Stage.resolve.leaves d).Coherent := by
  obtain ⟨entries, hd', hlabels⟩ := Draft.leaves_resolve d
  rw [hd']
  have hsize : entries.size = d.entries.size := by
    simpa using congrArg List.length hlabels
  refine { h with bound := ?_, listed := ?_ }
  · intro p hp
    rw [hsize]
    exact h.bound p hp
  · intro k e he name hname
    -- The entry that stood there has the same labels.
    have hat := congrArg (·[k]?) hlabels
    change entries[k]? = some e at he
    simp only [List.getElem?_map, Array.getElem?_toList, he, Option.map_some] at hat
    obtain ⟨e', he', heq⟩ := Option.map_eq_some_iff.mp hat.symm
    exact h.listed k e' he' name (heq ▸ hname)

theorem Coherent.leaves (h : d.Coherent) (s : Stage) :
    (s.leaves d).Coherent ∧ d.labels.bindings <:+ (s.leaves d).labels.bindings := by
  cases s with
  | parse => exact ⟨h.leaves_parse.coherent, h.leaves_parse.bindings⟩
  | resolve =>
    refine ⟨h.leaves_resolve, ?_⟩
    obtain ⟨entries, hd', -⟩ := Draft.leaves_resolve d
    simp [hd']
  | generate a => exact ⟨h, List.suffix_rfl⟩

theorem Coherent.after (h : d.Coherent) (stages : List Stage) :
    (d.after stages).Coherent ∧ d.labels.bindings <:+ (d.after stages).labels.bindings := by
  induction stages generalizing d with
  | nil => exact ⟨h, List.suffix_rfl⟩
  | cons s stages ih =>
    obtain ⟨hs, hbindings⟩ := h.leaves s
    obtain ⟨hrest, hmore⟩ := ih hs
    exact ⟨hrest, hbindings.trans hmore⟩

end Draft

/-! ## Generating -/

/-- Why an entry makes no item: a label is left in its operand, or the value is refused. -/
inductive Entry.Spoils (a : Architecture) (settings : Settings) (entry : Entry) : Flaw → Prop
  | label {name : String} (h : entry.operand = some (.label name)) :
    Spoils a settings entry (.undefinedLabel name)
  | value {v : Option Word} {f : Flaw} (h : Refused a settings entry.mnemonic v f) :
    Spoils a settings entry f

variable {a : Architecture} {settings : Settings}

theorem Refused.ne_undefinedLabel {m : Mnemonic} {v : Option Word} {name : String} :
    ¬ Refused a settings m v (.undefinedLabel name) := by
  intro h
  cases h

theorem head?_message_undefinedLabel (line : Nat) (name : String) :
    ((Flaw.undefinedLabel name).message line).toList.head? = some 'u' := by
  unfold Flaw.message
  simp only [String.toList_append]
  rfl

theorem Refused.head?_message {m : Mnemonic} {v : Option Word} {f : Flaw}
    (h : Refused a settings m v f) (line : Nat) : (f.message line).toList.head? ≠ some 's' := by
  cases h with
  | missing =>
    rename_i op _
    unfold Flaw.message
    simp only [String.toList_append]
    cases op <;> simp [Operation.name]
  | disabled =>
    unfold Flaw.message
    simp only [String.toList_append]
    simp
  | range =>
    unfold Flaw.message
    simp only [String.toList_append]
    simp

theorem Entry.Spoils.message {entry : Entry} {f : Flaw} (h : entry.Spoils a settings f)
    (line : Nat) : ¬ "syntax error".toList <+: (f.message line).toList := by
  rintro ⟨rest, hrest⟩
  have hhead : (f.message line).toList.head? = some 's' := by
    rw [← hrest]
    rfl
  cases h with
  | label =>
    rw [head?_message_undefinedLabel] at hhead
    cases hhead
  | value hrefused => exact hrefused.head?_message line hhead

namespace Draft

theorem operandValue_error {operand : Option Operand} {f : Flaw}
    (h : operandValue operand = .error f) :
    ∃ name, operand = some (.label name) ∧ f = .undefinedLabel name := by
  unfold operandValue at h
  split at h <;> cases h
  exact ⟨_, rfl, rfl⟩

theorem generateEntry_error {entry : Entry} {e : Error}
    (h : generateEntry a settings entry = .error e) :
    ∃ f, e = .flaw entry.line f ∧ entry.Spoils a settings f := by
  unfold generateEntry at h
  cases hv : operandValue entry.operand with
  | error f =>
    rw [hv] at h
    cases h
    obtain ⟨name, hname, rfl⟩ := operandValue_error hv
    exact ⟨_, rfl, .label hname⟩
  | ok v =>
    rw [hv] at h
    change (makeItem a settings entry.mnemonic v).mapError _ = _ at h
    cases hitem : makeItem a settings entry.mnemonic v with
    | ok item =>
      rw [hitem] at h
      cases h
    | error f =>
      rw [hitem] at h
      cases h
      exact ⟨f, rfl, .value (makeItem_eq_error.mp hitem)⟩

variable {d : Draft}

theorem generate_error {e : Error} (h : d.generate a = .error e) :
    ∃ entry ∈ d.entries.toList, ∃ f, e = .flaw entry.line f ∧ entry.Spoils a d.settings f := by
  obtain ⟨before, entry, after, hsplit, -, hentry⟩ := split_of_mapM h
  exact ⟨entry, by simp [hsplit], generateEntry_error hentry⟩

theorem Resolved.generate (h : d.Resolved) (line : Nat) (name : String) :
    d.generate a ≠ .error (.flaw line (.undefinedLabel name)) := by
  intro herror
  obtain ⟨entry, hentry, f, hf, hspoils⟩ := generate_error herror
  cases hf
  cases hspoils with
  | label hname => exact h entry hentry _ hname
  | value hrefused => exact hrefused.ne_undefinedLabel

/-- Whatever stages are run, and whether they go through or fail, the draft left behind is coherent.
-/
theorem coherent_after_any_stages (source : String) (settings : Settings) (stages : List Stage) :
    let d := after { source, settings } stages
    (∀ q ∈ d.queued, q.1 ≠ "" ∧ d.labels.find? q.1 = none) ∧
    (d.queued.map Prod.fst).Nodup ∧
    (∀ index, ∃ names d', bindQueued index d = .ok names d') ∧
    (∀ e d', parse d = .error e d' → d.RejectsOne 1 (Text.lines d.source.toList) e) ∧
    (∀ name k, d.labels.find? name = some k → k ≤ d.entries.size) ∧
    (∀ k e, d.entries[k]? = some e → ∀ name ∈ e.labels, d.labels.find? name = some k) ∧
    (∀ more name k, d.labels.find? name = some k → (d.after more).labels.find? name = some k) ∧
    d.entries.toList <+: (Stage.parse.leaves d).entries.toList ∧
    (∀ d' more, resolve d = .ok () d' → .parse ∉ more → ∀ a line name,
      (d'.after more).generate a ≠ .error (.flaw line (.undefinedLabel name))) ∧
    ∀ a e, d.generate a = .error e →
      (∃ entry ∈ d.entries.toList, ∃ f, e = .flaw entry.line f ∧ entry.Spoils a d.settings f) ∧
      ¬ "syntax error".toList <+: e.message.toList := by
  intro d
  have h : d.Coherent := ((coherent_empty source settings).after stages).1
  refine ⟨?_, ?_, ?_, ?_, ?_, ?_, ?_, ?_, ?_, ?_⟩
  · intro q hq
    exact ⟨h.named q hq, h.find?_queued hq⟩
  · exact h.nodup.of_append_right
  · intro index
    exact bindQueued_of_nodup index h.nodup
  · intro e d' hp
    have hparse := h.parse
    rw [hp] at hparse
    exact hparse.2
  · intro name k hk
    exact h.bound _ (h.find?_eq_some.mp hk)
  · intro k e he name hname
    exact h.find?_eq_some.mpr (h.listed k e he name hname)
  · intro more name k hk
    obtain ⟨h', hbindings⟩ := h.after more
    exact h'.find?_eq_some.mpr (hbindings.subset (h.find?_eq_some.mp hk))
  · exact h.leaves_parse.entries
  · intro d' more hr hmore a line name
    exact ((resolved_of_resolve hr).after hmore).generate line name
  · intro a e he
    obtain ⟨entry, hentry, f, rfl, hspoils⟩ := generate_error he
    exact ⟨⟨entry, hentry, f, rfl, hspoils⟩, hspoils.message entry.line⟩

theorem coherent_after_any_stages_again :
    let d := after { source := "x BRA x\ny\n1 2 3 4", settings := {} } [.parse, .parse]
    (("y", 2) ∈ d.queued ∧ d.labels.find? "y" = none) ∧
    (d.labels.find? "x" = some 0 ∧ (d.after [.resolve, .parse]).labels.find? "x" = some 0) ∧
    (∃ e d', parse d = .error e d' ∧ d.RejectsOne 1 (Text.lines d.source.toList) e) ∧
    (d.generate .decimal = .error (.flaw 1 (.undefinedLabel "x")) ∧
      ¬ "syntax error".toList <+: (Flaw.message 1 (.undefinedLabel "x")).toList) ∧
    ∃ d', resolve d = .ok () d' ∧ ∀ line name,
      (d'.after [.resolve]).generate .decimal ≠ .error (.flaw line (.undefinedLabel name)) := by
  intro d
  obtain ⟨hqueue, -, -, hparse, -, -, hkept, -, hresolved, hgenerate⟩ :=
    coherent_after_any_stages "x BRA x\ny\n1 2 3 4" {} [.parse, .parse]
  have hy : ("y", 2) ∈ d.queued := by decide +kernel
  have hx : d.labels.find? "x" = some 0 := by decide +kernel
  have hlabel : d.generate .decimal = .error (.flaw 1 (.undefinedLabel "x")) := by decide +kernel
  have hfails : (match parse d with | .ok _ _ => false | .error _ _ => true) = true := by
    decide +kernel
  have hgoes : (match resolve d with | .ok _ _ => true | .error _ _ => false) = true := by
    decide +kernel
  refine ⟨⟨hy, (hqueue _ hy).2⟩, ⟨hx, hkept _ _ _ hx⟩, ?_, ⟨hlabel, (hgenerate _ _ hlabel).2⟩, ?_⟩
  · split at hfails
    · cases hfails
    · rename_i e d' hp
      exact ⟨e, d', hp, hparse e d' hp⟩
  · split at hgoes
    · rename_i u d' hr
      exact ⟨d', hr, hresolved d' [.resolve] hr (by decide) .decimal⟩
    · cases hgoes

end Draft

end LittleMan.Assembly
