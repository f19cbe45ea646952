import Mathlib.Tactic.Common
import Mathlib.Data.List.ReduceOption
import LittleMan.Proofs.Text.Line
import LittleMan.Proofs.Assembly.Labels

/-!
# Well-formed lines

Lines are well formed if each has the shape of a statement and no label is empty or declared twice.
Parsing takes in exactly the well-formed lines. It stops at the first line that, together with those
above it, is not well formed, and what it complains about does not depend on the lines below.
-/

namespace LittleMan.Assembly

def linesOf (source : String) : List (List String) := (Text.lines source.toList).map wordsOf

/-! ## The end of a line -/

theorem wordsOf_nil : wordsOf [] = [] := rfl

theorem wordsOf_append_return (line : List Char) : wordsOf (line ++ ['\r']) = wordsOf line := by
  obtain ⟨tail, htail, heq⟩ := Text.uncommented_concat line (c := '\r') (by decide)
  unfold wordsOf
  rw [heq, Text.words_append_blanks]
  intro c hc
  rw [List.mem_singleton.mp (htail.subset hc)]
  rfl

theorem wordsOf_dropReturn (line : List Char) : wordsOf (Text.dropReturn line) = wordsOf line := by
  unfold Text.dropReturn
  split_ifs with hlast
  · rw [← wordsOf_append_return, List.dropLast_append_getLast? '\r' hlast]
  · rfl

/-! ## Well-formed lines -/

structure WellFormed (lines : List (List String)) : Prop where
  short : ∀ words ∈ lines, words.length ≤ 3
  two : ∀ first second, [first, second] ∈ lines → isMnemonic first ∨ isMnemonic second
  three : ∀ label opcode operand, [label, opcode, operand] ∈ lines → isMnemonic opcode
  named : ∀ i, ¬ Declares lines i ""
  once : ∀ i j name, Declares lines i name → Declares lines j name → i = j

theorem declares_iff {lines : List (List String)} {i : Nat} {name : String} :
    Declares lines i name ↔ ∃ words, lines[i]? = some words ∧ declared? words = some name := by
  unfold Declares
  exact Option.bind_eq_some_iff

theorem Declares.lt {lines : List (List String)} {i : Nat} {name : String}
    (h : Declares lines i name) : i < lines.length := by
  obtain ⟨words, hi, -⟩ := declares_iff.mp h
  exact (List.getElem?_eq_some_iff.mp hi).1

theorem Declares.append {before : List (List String)} {i : Nat} {name : String}
    (h : Declares before i name) (after : List (List String)) :
    Declares (before ++ after) i name := by
  unfold Declares at h ⊢
  rw [List.getElem?_append_left (Declares.lt h)]
  exact h

theorem declares_concat {before : List (List String)} {words : List String} {i : Nat}
    {name : String} :
    Declares (before ++ [words]) i name ↔
      Declares before i name ∨ i = before.length ∧ declared? words = some name := by
  constructor
  · intro h
    have hlt := h.lt
    rw [List.length_append, List.length_singleton] at hlt
    obtain ⟨words', hi, hname⟩ := declares_iff.mp h
    rcases Nat.lt_or_ge i before.length with hbefore | hlast
    · left
      rw [List.getElem?_append_left hbefore] at hi
      exact declares_iff.mpr ⟨words', hi, hname⟩
    · right
      obtain rfl : i = before.length := by omega
      rw [List.getElem?_concat_length, Option.some.injEq] at hi
      exact ⟨rfl, hi ▸ hname⟩
  · rintro (h | ⟨rfl, hname⟩)
    · exact h.append _
    · exact declares_iff.mpr ⟨words, List.getElem?_concat_length, hname⟩

theorem WellFormed.of_append {before after : List (List String)}
    (h : WellFormed (before ++ after)) : WellFormed before where
  short := fun words hw => h.short words (List.mem_append_left _ hw)
  two := fun first second hw => h.two first second (List.mem_append_left _ hw)
  three := fun label opcode operand hw =>
    h.three label opcode operand (List.mem_append_left _ hw)
  named := fun i hi => h.named i (hi.append after)
  once := fun i j name hi hj =>
    h.once i j name (hi.append _) (hj.append _)

theorem wellFormed_nil : WellFormed [] := by
  constructor <;> simp [Declares]

/-! ## Flaws -/

def labelFlaw? (before : List (List String)) (label : String) : Option Flaw :=
  if labelName label = "" then some .emptyLabel
  else if labelName label ∈ before.filterMap declared? then
    some (.repeatedLabel (labelName label))
  else none

def opcodeFlaw? (word : String) : Option Flaw :=
  if isMnemonic word then none else some (.notAnOpcode word)

def Statement.flaw? (before : List (List String)) (s : Statement) : Option Flaw :=
  (s.label.bind (labelFlaw? before)).or (s.opcode.bind opcodeFlaw?)

def flaw? (before : List (List String)) (words : List String) : Option Flaw :=
  match Statement.ofWords words with
  | .error f => some f
  | .ok s => s.flaw? before

/-- The first line that has a flaw behind those above it, counted from one, and the flaw. -/
def firstFlaw? (before : List (List String)) : List (List String) → Option (Nat × Flaw)
  | [] => none
  | words :: rest =>
    match flaw? before words with
    | some f => some (before.length + 1, f)
    | none => firstFlaw? (before ++ [words]) rest

theorem mem_filterMap_declared {before : List (List String)} {name : String} :
    name ∈ before.filterMap declared? ↔ ∃ i, Declares before i name := by
  rw [List.mem_filterMap]
  constructor
  · rintro ⟨words, hwords, hname⟩
    obtain ⟨i, hi⟩ := List.mem_iff_getElem?.mp hwords
    exact ⟨i, declares_iff.mpr ⟨words, hi, hname⟩⟩
  · rintro ⟨i, hi⟩
    obtain ⟨words, hwords, hname⟩ := declares_iff.mp hi
    exact ⟨words, List.mem_of_getElem? hwords, hname⟩

theorem labelFlaw?_eq_none {before : List (List String)} {label : String} :
    labelFlaw? before label = none ↔
      labelName label ≠ "" ∧ ∀ i, ¬ Declares before i (labelName label) := by
  unfold labelFlaw?
  split_ifs with hempty hbefore
  · simp [hempty]
  · rw [mem_filterMap_declared] at hbefore
    simpa [hempty] using hbefore
  · rw [mem_filterMap_declared] at hbefore
    simpa [hempty] using hbefore

theorem flaw?_eq_none {before : List (List String)} {words : List String} :
    flaw? before words = none ↔
      words.length ≤ 3 ∧
      (∀ first second, words = [first, second] → isMnemonic first ∨ isMnemonic second) ∧
      (∀ label opcode operand, words = [label, opcode, operand] → isMnemonic opcode) ∧
      ∀ name, declared? words = some name → name ≠ "" ∧ ∀ i, ¬ Declares before i name := by
  match words with
  | [] => simp [flaw?, Statement.ofWords, Statement.flaw?, declared?]
  | [word] =>
    cases hword : isMnemonic word <;>
      simp [flaw?, Statement.ofWords, Statement.flaw?, declared?, hword, labelFlaw?_eq_none,
        opcodeFlaw?]
  | [first, second] =>
    cases hfirst : isMnemonic first <;> cases hsecond : isMnemonic second <;>
      simp [flaw?, Statement.ofWords, Statement.flaw?, declared?, hfirst, hsecond,
        labelFlaw?_eq_none, opcodeFlaw?]
  | [label, opcode, operand] =>
    cases hopcode : isMnemonic opcode <;>
      simp [flaw?, Statement.ofWords, Statement.flaw?, declared?, hopcode, labelFlaw?_eq_none,
        opcodeFlaw?]
  | _ :: _ :: _ :: _ :: _ => simp [flaw?, Statement.ofWords]

theorem wellFormed_concat {before : List (List String)} {words : List String} :
    WellFormed (before ++ [words]) ↔ WellFormed before ∧ flaw? before words = none := by
  rw [flaw?_eq_none]
  constructor
  · intro h
    refine ⟨h.of_append, h.short words (by simp), ?_, ?_, ?_⟩
    · rintro first second rfl
      exact h.two first second (by simp)
    · rintro label opcode operand rfl
      exact h.three label opcode operand (by simp)
    · intro name hname
      have hlast : Declares (before ++ [words]) before.length name :=
        declares_concat.mpr (.inr ⟨rfl, hname⟩)
      constructor
      · rintro rfl
        exact h.named _ hlast
      · intro i hi
        have hlt := hi.lt
        rw [h.once i _ name (hi.append _) hlast] at hlt
        exact Nat.lt_irrefl _ hlt
  · rintro ⟨h, hshort, htwo, hthree, hnew⟩
    constructor
    · intro words' hw
      rw [List.mem_append, List.mem_singleton] at hw
      rcases hw with hw | rfl
      · exact h.short words' hw
      · exact hshort
    · intro first second hw
      rw [List.mem_append, List.mem_singleton] at hw
      rcases hw with hw | hw
      · exact h.two first second hw
      · exact htwo first second hw.symm
    · intro label opcode operand hw
      rw [List.mem_append, List.mem_singleton] at hw
      rcases hw with hw | hw
      · exact h.three label opcode operand hw
      · exact hthree label opcode operand hw.symm
    · intro i hi
      rcases declares_concat.mp hi with hi | ⟨-, hname⟩
      · exact h.named i hi
      · exact (hnew "" hname).1 rfl
    · intro i j name hi hj
      rcases declares_concat.mp hi with hi | ⟨rfl, hname⟩ <;>
        rcases declares_concat.mp hj with hj | ⟨rfl, hname'⟩
      · exact h.once i j name hi hj
      · exact absurd hi ((hnew name hname').2 i)
      · exact absurd hj ((hnew name hname).2 j)
      · rfl

theorem firstFlaw?_eq_some {before lines : List (List String)} {n : Nat} {f : Flaw}
    (hb : WellFormed before) :
    firstFlaw? before lines = some (n, f) ↔
      ∃ mid words rest, lines = mid ++ words :: rest ∧ n = before.length + mid.length + 1 ∧
        WellFormed (before ++ mid) ∧ flaw? (before ++ mid) words = some f := by
  induction lines generalizing before with
  | nil => simp [firstFlaw?]
  | cons words rest ih =>
    rw [firstFlaw?]
    cases hflaw : flaw? before words with
    | some g =>
      simp only [Option.some.injEq, Prod.mk.injEq]
      constructor
      · rintro ⟨rfl, rfl⟩
        exact ⟨[], words, rest, rfl, by simp, by simpa using hb, by simpa using hflaw⟩
      · rintro ⟨mid, words', rest', hsplit, rfl, hmid, hf⟩
        cases mid with
        | nil =>
          obtain ⟨rfl, rfl⟩ := List.cons.inj hsplit
          rw [List.append_nil, hflaw, Option.some.injEq] at hf
          exact ⟨by simp, hf⟩
        | cons words'' mid =>
          -- The lines in between begin with the one that has the flaw.
          obtain ⟨rfl, -⟩ := List.cons.inj hsplit
          rw [List.append_cons] at hmid
          have hnone := (wellFormed_concat.mp hmid.of_append).2
          rw [hflaw] at hnone
          cases hnone
    | none =>
      have hb' : WellFormed (before ++ [words]) := wellFormed_concat.mpr ⟨hb, hflaw⟩
      rw [ih hb']
      constructor
      · rintro ⟨mid, words', rest', rfl, rfl, hmid, hf⟩
        rw [List.append_assoc] at hmid hf
        exact ⟨words :: mid, words', rest', rfl, by simp; omega, hmid, hf⟩
      · rintro ⟨mid, words', rest', hsplit, rfl, hmid, hf⟩
        cases mid with
        | nil =>
          obtain ⟨rfl, rfl⟩ := List.cons.inj hsplit
          rw [List.append_nil, hflaw] at hf
          cases hf
        | cons words'' mid =>
          obtain ⟨rfl, rfl⟩ := List.cons.inj hsplit
          rw [List.append_cons] at hmid hf
          exact ⟨mid, words', rest', rfl, by simp; omega, hmid, hf⟩

theorem firstFlaw?_eq_none {before lines : List (List String)} (hb : WellFormed before) :
    firstFlaw? before lines = none ↔ WellFormed (before ++ lines) := by
  induction lines generalizing before with
  | nil => simpa [firstFlaw?] using hb
  | cons words rest ih =>
    rw [firstFlaw?, List.append_cons before words rest]
    cases hflaw : flaw? before words with
    | some f =>
      simp only [reduceCtorEq, false_iff]
      intro h
      have hnone := (wellFormed_concat.mp h.of_append).2
      rw [hflaw] at hnone
      cases hnone
    | none => exact ih (wellFormed_concat.mpr ⟨hb, hflaw⟩)

/-! ## Drafts that have read lines -/

theorem map_fst_declarationsFrom (k : Nat) (lines : List (List String)) :
    (declarationsFrom k lines).map Prod.fst = lines.filterMap declared? := by
  induction lines generalizing k with
  | nil => rfl
  | cons words rest ih =>
    rw [declarationsFrom, List.map_append, ih, List.filterMap_cons]
    cases declared? words <;> rfl

theorem declarationsFrom_concat (k : Nat) (before : List (List String)) (words : List String) :
    declarationsFrom k (before ++ [words]) =
      declarationsFrom k before ++
        (declared? words).toList.map (·, k + before.countP bears) := by
  induction before generalizing k with
  | nil => simp [declarationsFrom]
  | cons words' before ih =>
    rw [List.cons_append, declarationsFrom, declarationsFrom, ih, List.countP_cons,
      List.append_assoc, Nat.add_assoc, Nat.add_comm (before.countP bears)]

theorem entriesFrom_concat (line : Nat) (before : List (List String)) (words : List String) :
    entriesFrom line (before ++ [words]) =
      entriesFrom line before ++
        if bears words then [entryOf? (line + before.length) words] else [] := by
  induction before generalizing line with
  | nil =>
    rw [List.nil_append, entriesFrom_cons]
    simp [entriesFrom]
  | cons words' before ih =>
    rw [List.cons_append, entriesFrom_cons, entriesFrom_cons, ih, List.append_assoc,
      List.length_cons, Nat.add_assoc, Nat.add_comm 1]

theorem length_entriesFrom (line : Nat) (lines : List (List String)) :
    (entriesFrom line lines).length = lines.countP bears := by
  induction lines generalizing line with
  | nil => rfl
  | cons words rest ih =>
    rw [entriesFrom_cons, List.length_append, ih, List.countP_cons, Nat.add_comm]
    split <;> simp

def Entry.bare (e : Entry) : Entry := { e with labels := [] }

def entriesOf (lines : List (List String)) : List Entry := (entriesFrom 1 lines).reduceOption

namespace Draft

/-- The draft has taken in lines of these words and nothing else. -/
def Reads (d : Draft) (settings : Settings) (before : List (List String)) : Prop :=
  d.Tracks settings (declarationsFrom 0 before) (entriesFrom 1 before)

variable {d d' : Draft} {settings : Settings} {before : List (List String)}
variable {declarations : List (String × Nat)} {entries : List (Option Entry)}

theorem Reads.size (h : d.Reads settings before) : d.entries.size = before.countP bears := by
  rw [Tracks.size h, length_entriesFrom]

theorem Reads.names (h : d.Reads settings before) :
    before.filterMap declared? =
      (d.labels.bindings.map Prod.fst).reverse ++ d.queued.map Prod.fst := by
  rw [← map_fst_declarationsFrom 0, Tracks.names h]

theorem Reads.of_parseLine {text : List Char} (h : d.Reads settings before)
    (hp : parseLine (before.length + 1) text d = .ok () d') :
    d'.Reads settings (before ++ [wordsOf text]) := by
  unfold Reads
  rw [declarationsFrom_concat, entriesFrom_concat, Nat.zero_add, Nat.add_comm 1, ← h.size]
  exact Tracks.of_parseLine h hp

/-! ## One line -/

theorem contains_eq_true {t : LabelTable} {name : String} :
    t.contains name = true ↔ name ∈ t.bindings.map Prod.fst := by
  constructor
  · intro h
    by_contra hmem
    unfold LabelTable.contains LabelTable.find? at h
    obtain ⟨p, hp, heq⟩ := List.lookup_isSome_iff.mp h
    rw [beq_iff_eq] at heq
    exact hmem (List.mem_map.mpr ⟨p, hp, heq.symm⟩)
  · intro hmem
    by_contra h
    exact LabelTable.not_mem_of_contains (Bool.eq_false_iff.mpr h) hmem

theorem bindFrom_of_nodup {index : Nat} {bound : List String} {queue : List (String × Nat)}
    (h : ((d.labels.bindings.map Prod.fst).reverse ++ queue.map Prod.fst).Nodup) :
    ∃ names d', bindFrom index bound d queue = .ok names d' := by
  induction queue generalizing bound d with
  | nil => exact ⟨_, _, rfl⟩
  | cons q queue ih =>
    obtain ⟨label, line⟩ := q
    have hnew : d.labels.contains label = false := by
      rw [← Bool.not_eq_true, contains_eq_true]
      intro hmem
      rw [List.nodup_append] at h
      exact h.2.2 label (List.mem_reverse.mpr hmem) label (by simp) rfl
    rw [bindFrom, if_neg (by simp [hnew])]
    apply ih
    simpa [LabelTable.insert] using h

theorem bindQueued_of_nodup (index : Nat)
    (h : ((d.labels.bindings.map Prod.fst).reverse ++ d.queued.map Prod.fst).Nodup) :
    ∃ names d', bindQueued index d = .ok names d' := bindFrom_of_nodup h

theorem addEntry_of_nodup (entry : Entry)
    (h : ((d.labels.bindings.map Prod.fst).reverse ++ d.queued.map Prod.fst).Nodup) :
    ∃ d', addEntry entry d = .ok () d' := by
  obtain ⟨names, d₁, hbind⟩ := bindQueued_of_nodup d.entries.size h
  unfold addEntry
  rw [hbind]
  exact ⟨_, rfl⟩

theorem finish_of_nodup (line : Nat)
    (h : ((d.labels.bindings.map Prod.fst).reverse ++ d.queued.map Prod.fst).Nodup) :
    ∃ d', finish line d = .ok () d' := by
  unfold finish
  split
  · exact addEntry_of_nodup _ h
  · obtain ⟨names, d', hbind⟩ := bindQueued_of_nodup d.entries.size h
    rw [hbind]
    exact ⟨d', rfl⟩

theorem Tracks.names_nodup (h : d.Tracks settings declarations entries) :
    ((d.labels.bindings.map Prod.fst).reverse ++ d.queued.map Prod.fst).Nodup := by
  rw [← h.names]
  exact h.nodup

/-- A step ends with this flaw of a line, or goes through if there is none. -/
def Reports (r : EStateM.Result Error Draft Unit) (line : Nat) : Option Flaw → Prop
  | some f => ∃ d', r = .error (.flaw line f) d'
  | none => ∃ d', r = .ok () d'

theorem Reports.bind {x y : EStateM Error Draft Unit} {line : Nat} {f g : Option Flaw}
    (hx : Reports (x d) line f) (hy : ∀ d', x d = .ok () d' → Reports (y d') line g) :
    Reports ((x >>= fun _ => y) d) line (f.or g) := by
  cases f with
  | some f =>
    obtain ⟨d', hd'⟩ := hx
    exact ⟨d', bind_of_error hd'⟩
  | none =>
    obtain ⟨d', hd'⟩ := hx
    rw [Option.none_or, bind_of_ok hd']
    exact hy d' hd'

theorem Reads.queueLabel (h : d.Reads settings before) (line : Nat) (label : String) :
    Reports (queueLabel line label d) line (labelFlaw? before label) := by
  have hknown : (d.labels.contains (labelName label) ||
      d.queued.any (·.1 == labelName label)) = true ↔
        labelName label ∈ before.filterMap declared? := by
    rw [h.names, List.mem_append, List.mem_reverse, Bool.or_eq_true, contains_eq_true,
      List.any_eq_true]
    simp only [beq_iff_eq, List.mem_map]
  unfold labelFlaw? Draft.queueLabel
  dsimp only
  simp only [hknown]
  split_ifs
  · exact ⟨d, rfl⟩
  · exact ⟨d, rfl⟩
  · exact ⟨_, rfl⟩

theorem Tracks.addOpcode (h : d.Tracks settings declarations entries) (line : Nat)
    (opcode operand : Option String) :
    Reports (addStatement line ⟨none, opcode, operand⟩ d) line (opcode.bind opcodeFlaw?) := by
  cases opcode with
  | none => exact ⟨d, rfl⟩
  | some word =>
    rw [Option.bind_some, opcodeFlaw?, isMnemonic]
    cases hword : Mnemonic.ofWord? word with
    | none =>
      simp only [Draft.addStatement, hword]
      exact ⟨d, rfl⟩
    | some mnemonic =>
      simp only [Draft.addStatement, hword]
      exact addEntry_of_nodup _ h.names_nodup

theorem Reads.addStatement (h : d.Reads settings before) (line : Nat) (s : Statement) :
    Reports (addStatement line s d) line (s.flaw? before) := by
  obtain ⟨label, opcode, operand⟩ := s
  cases label with
  | none => exact Tracks.addOpcode h line opcode operand
  | some label =>
    have hrest : ∀ d', Draft.queueLabel line label d = .ok () d' →
        Reports (Draft.addStatement line ⟨none, opcode, operand⟩ d') line
          (opcode.bind opcodeFlaw?) := by
      intro d' hd'
      exact (Tracks.of_queueLabel h hd').addOpcode line opcode operand
    exact (h.queueLabel line label).bind hrest

theorem Reads.parseLine (h : d.Reads settings before) (line : Nat) (text : List Char) :
    Reports (parseLine line text d) line (flaw? before (wordsOf text)) := by
  unfold flaw? Draft.parseLine
  cases Statement.ofWords (wordsOf text) with
  | error f => exact ⟨d, rfl⟩
  | ok s => exact h.addStatement line s

/-! ## All lines -/

theorem Reads.parseLines (texts : List (List Char)) (h : d.Reads settings before) :
    match firstFlaw? before (texts.map wordsOf) with
    | some (n, f) => ∃ d', parseLines (before.length + 1) texts d = .error (.flaw n f) d'
    | none => ∃ d', parseLines (before.length + 1) texts d = .ok () d' ∧
        d'.Reads settings (before ++ texts.map wordsOf) := by
  induction texts generalizing d before with
  | nil => exact ⟨d, rfl, by simpa using h⟩
  | cons text texts ih =>
    have hline := h.parseLine (before.length + 1) text
    rw [List.map_cons, firstFlaw?]
    cases hflaw : flaw? before (wordsOf text) with
    | some f =>
      rw [hflaw] at hline
      obtain ⟨d', hd'⟩ := hline
      exact ⟨d', bind_of_error hd'⟩
    | none =>
      rw [hflaw] at hline
      obtain ⟨d₁, hd₁⟩ := hline
      have hrest := ih (h.of_parseLine hd₁)
      rw [List.length_append, List.length_singleton, List.append_assoc] at hrest
      rw [parseLines_cons_of_ok hd₁]
      exact hrest

theorem finish_settings {line : Nat} (h : finish line d = .ok () d') :
    d'.settings = d.settings := by
  unfold Draft.finish at h
  split_ifs at h
  · rw [addEntry_ok h]
    rfl
  · split at h
    · cases h
    · rename_i names d₁ hbind
      cases h
      obtain ⟨-, rfl⟩ := bindQueued_ok hbind
      rfl

structure Holds (d : Draft) (settings : Settings) (lines : List (List String)) : Prop where
  entries : d.entries.toList.map Entry.bare =
    entriesOf lines ++ trailing settings (lines.length + 1)
  labels : ∀ name k, d.labels.find? name = some k ↔
    ∃ i, Declares lines i name ∧ k = (lines.take i).countP bears
  settings : d.settings = settings

theorem Reads.of_finish (h : d.Reads settings before)
    (hf : finish (before.length + 1) d = .ok () d') : d'.Holds settings before := by
  obtain ⟨htable, hentries, -⟩ := Tracks.of_finish h hf
  have hnodup : (d'.labels.bindings.map Prod.fst).Nodup := by
    rw [← List.nodup_reverse, ← List.map_reverse, htable]
    exact Tracks.nodup h
  refine ⟨?_, ?_, ?_⟩
  · have hsome := congrArg List.reduceOption hentries
    rw [List.reduceOption_append, List.reduceOption, List.filterMap_map] at hsome
    change d'.entries.toList.map (fun e => { e with labels := [] }) = _
    simpa [entriesOf, Function.comp_def, List.reduceOption] using hsome
  · intro name k
    rw [LabelTable.find?_eq_some hnodup, ← List.mem_reverse, htable, mem_declarationsFrom]
    simp
  · rw [finish_settings hf]
    exact Tracks.settings h

theorem reads_nil (source : String) (settings : Settings) :
    Reads { source, settings } settings [] := tracks_empty source settings

theorem parse_of_flaw {source : String} {n : Nat} {f : Flaw} (settings : Settings)
    (h : firstFlaw? [] (linesOf source) = some (n, f)) :
    ∃ d', parse { source, settings } = .error (.flaw n f) d' := by
  have hlines := (reads_nil source settings).parseLines (Text.lines source.toList)
  change firstFlaw? [] ((Text.lines source.toList).map wordsOf) = some (n, f) at h
  rw [h] at hlines
  obtain ⟨d', hd'⟩ := hlines
  exact ⟨d', bind_of_error hd'⟩

theorem parse_of_wellFormed {source : String} (settings : Settings)
    (h : WellFormed (linesOf source)) :
    ∃ d', parse { source, settings } = .ok () d' ∧ d'.Holds settings (linesOf source) := by
  have hlines := (reads_nil source settings).parseLines (Text.lines source.toList)
  have hnone : firstFlaw? [] ((Text.lines source.toList).map wordsOf) = none :=
    (firstFlaw?_eq_none wellFormed_nil).mpr h
  rw [hnone] at hlines
  obtain ⟨d₁, hd₁, hreads⟩ := hlines
  rw [List.length_nil, Nat.zero_add] at hd₁
  rw [List.nil_append] at hreads
  obtain ⟨d', hd'⟩ := finish_of_nodup ((Text.lines source.toList).length + 1) hreads.names_nodup
  refine ⟨d', ?_, ?_⟩
  · have hsource : Text.lines ({ source, settings } : Draft).source.toList =
        Text.lines source.toList := rfl
    rw [parse_of_parseLines hsource hd₁]
    exact hd'
  · apply hreads.of_finish
    rw [List.length_map]
    exact hd'

end Draft

end LittleMan.Assembly
