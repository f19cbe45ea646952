import Mathlib.Tactic.Common
import Mathlib.Data.List.Nodup
import LittleMan.Proofs.Assembly.Stages

/-!
# What labels stand for

A line may declare a label, and it may bear an entry. Both can be read off its words. A label stands
for the number of lines above its own that bear an entry, however many lines of labels and comments
are in between. This is the table that parsing makes, although it binds a label only once it finds
an entry for it.
-/

namespace LittleMan.Assembly

/-! ## Lines -/

def declared? : List String → Option String
  | [word] => if isMnemonic word then none else some (labelName word)
  | [first, _] => if isMnemonic first then none else some (labelName first)
  | [label, _, _] => some (labelName label)
  | _ => none

def bears : List String → Bool
  | [] => false
  | [word] => isMnemonic word
  | _ => true

def opcodeWord : List String → Option String
  | [word] => some word
  | [first, second] => if isMnemonic first then some first else some second
  | [_, opcode, _] => some opcode
  | _ => none

def operandWord : List String → Option String
  | [first, second] => if isMnemonic first then some second else none
  | [_, _, operand] => some operand
  | _ => none

def entryOf? (line : Nat) (words : List String) : Option Entry :=
  ((opcodeWord words).bind Mnemonic.ofWord?).map fun mnemonic =>
    { line, mnemonic, operand := (operandWord words).map .ofWord }

/-- The entries of the lines that bear one. The first line has number `line`. -/
def entriesFrom (line : Nat) (lines : List (List String)) : List (Option Entry) :=
  ((lines.zipIdx line).filter (bears ·.1)).map fun (words, n) => entryOf? n words

theorem entriesFrom_cons (line : Nat) (words : List String) (rest : List (List String)) :
    entriesFrom line (words :: rest) =
      (if bears words then [entryOf? line words] else []) ++ entriesFrom (line + 1) rest := by
  unfold entriesFrom
  rw [List.zipIdx_cons, List.filter_cons]
  split <;> rfl

def Declares (lines : List (List String)) (i : Nat) (name : String) : Prop :=
  lines[i]?.bind declared? = some name

theorem Statement.ofWords_ok {words : List String} {s : Statement} (h : ofWords words = .ok s) :
    declared? words = s.label.map labelName ∧ bears words = s.opcode.isSome ∧
      operandWord words = s.operand ∧ ∀ opcode ∈ s.opcode, opcodeWord words = some opcode := by
  unfold ofWords at h
  split at h
  · cases h
    simp [declared?, bears, operandWord]
  · cases h
    rename_i word
    cases hword : isMnemonic word <;>
      simp [declared?, bears, operandWord, opcodeWord, hword]
  · rename_i first second
    split_ifs at h with hfirst hsecond
    · cases h
      simp [declared?, bears, operandWord, opcodeWord, hfirst]
    · cases h
      simp [declared?, bears, operandWord, opcodeWord, hfirst]
  · cases h
    simp [declared?, bears, operandWord, opcodeWord]
  · cases h

/-! ## Declarations -/

/-- The labels that lines declare, each with the number of lines before it that bear an entry and
`k` more. -/
def declarationsFrom (k : Nat) : List (List String) → List (String × Nat)
  | [] => []
  | words :: rest =>
    (declared? words).toList.map (·, k) ++ declarationsFrom (k + if bears words then 1 else 0) rest

theorem mem_declarationsFrom {lines : List (List String)} {k n : Nat} {name : String} :
    (name, n) ∈ declarationsFrom k lines ↔
      ∃ i, Declares lines i name ∧ n = k + (lines.take i).countP bears := by
  induction lines generalizing k with
  | nil => simp [declarationsFrom, Declares]
  | cons words rest ih =>
    unfold declarationsFrom
    rw [List.mem_append, ih]
    constructor
    · rintro (h | ⟨i, hi, rfl⟩)
      · simp only [List.mem_map, Option.mem_toList, Prod.mk.injEq] at h
        obtain ⟨_, hdeclared, rfl, rfl⟩ := h
        exact ⟨0, by simpa [Declares] using hdeclared, by simp⟩
      · refine ⟨i + 1, hi, ?_⟩
        rw [List.take_succ_cons, List.countP_cons]
        omega
    · rintro ⟨i, hi, rfl⟩
      cases i with
      | zero =>
        left
        simpa [Declares] using hi
      | succ i =>
        right
        refine ⟨i, hi, ?_⟩
        rw [List.take_succ_cons, List.countP_cons]
        omega

theorem Declares.unique {lines : List (List String)} {k i j : Nat} {name : String}
    (h : ((declarationsFrom k lines).map Prod.fst).Nodup) (hi : Declares lines i name)
    (hj : Declares lines j name) : i = j := by
  induction lines generalizing k i j with
  | nil => simp [Declares] at hi
  | cons words rest ih =>
    rw [declarationsFrom, List.map_append, List.nodup_append] at h
    obtain ⟨-, hrest, hdisjoint⟩ := h
    -- A name that the first line declares is none of those behind it.
    have hfirst : ∀ n, Declares (words :: rest) 0 name → ¬ Declares rest n name := by
      intro n h0 hn
      refine hdisjoint name ?_ name ?_ rfl
      · simpa [Declares] using h0
      · exact List.mem_map.mpr ⟨(name, _), mem_declarationsFrom.mpr ⟨n, hn, rfl⟩, rfl⟩
    cases i with
    | zero =>
      cases j with
      | zero => rfl
      | succ j => exact absurd hj (hfirst j hi)
    | succ i =>
      cases j with
      | zero => exact absurd hi (hfirst i hj)
      | succ j => rw [ih hrest hi hj]

/-! ## Tables -/

theorem LabelTable.find?_eq_some {t : LabelTable} (h : (t.bindings.map Prod.fst).Nodup)
    {name : String} {k : Nat} : t.find? name = some k ↔ (name, k) ∈ t.bindings := by
  unfold find?
  rw [List.lookup_eq_some_iff]
  constructor
  · rintro ⟨before, after, hsplit, -⟩
    rw [hsplit]
    simp
  · intro hmem
    obtain ⟨before, after, hsplit⟩ := List.append_of_mem hmem
    refine ⟨before, after, hsplit, ?_⟩
    intro p hp
    rw [hsplit, List.map_append, List.nodup_append] at h
    have hne : p.1 ≠ name :=
      h.2.2 p.1 (List.mem_map_of_mem hp) name (by simp)
    simpa using hne.symm

theorem LabelTable.not_mem_of_contains {t : LabelTable} {name : String}
    (h : t.contains name = false) : name ∉ t.bindings.map Prod.fst := by
  intro hmem
  obtain ⟨p, hp, rfl⟩ := List.mem_map.mp hmem
  have hfound : (t.bindings.lookup p.1).isSome := List.lookup_isSome_iff.mpr ⟨p, hp, by simp⟩
  unfold contains find? at h
  rw [h] at hfound
  cases hfound

/-! ## Drafts on their way -/

namespace Draft

/-- What is known of a draft while lines are taken in: `declarations` are those made so far, and
`entries` the entries without their labels. The table, in the order of binding, and the queue, as
it would be bound by the next entry, together hold the declarations. -/
structure Tracks (d : Draft) (settings : Settings) (declarations : List (String × Nat))
    (entries : List (Option Entry)) : Prop where
  settings : d.settings = settings
  declared :
    d.labels.bindings.reverse ++ d.queued.map (fun q => (q.1, d.entries.size)) = declarations
  nodup : (declarations.map Prod.fst).Nodup
  entries : d.entries.toList.map (fun e => some { e with labels := [] }) = entries
  bound : ∀ p ∈ d.labels.bindings, p.2 < d.entries.size
  labels : ∀ k e, d.entries[k]? = some e → ∀ name, name ∈ e.labels ↔ (name, k) ∈ d.labels.bindings

theorem tracks_empty (source : String) (settings : Settings) :
    Tracks { source, settings } settings [] [] where
  settings := rfl
  declared := rfl
  nodup := List.nodup_nil
  entries := rfl
  bound := by simp
  labels := by simp

variable {d d' : Draft} {settings : Settings} {declarations : List (String × Nat)}
variable {entries : List (Option Entry)}

theorem Tracks.names (h : d.Tracks settings declarations entries) :
    declarations.map Prod.fst =
      (d.labels.bindings.map Prod.fst).reverse ++ d.queued.map Prod.fst := by
  rw [← h.declared]
  simp [Function.comp_def]

theorem Tracks.of_queueLabel {line : Nat} {label : String}
    (h : d.Tracks settings declarations entries) (hq : queueLabel line label d = .ok () d') :
    d'.Tracks settings (declarations ++ [(labelName label, d.entries.size)]) entries := by
  obtain ⟨-, htable, hqueue, rfl⟩ := queueLabel_ok hq
  refine { h with declared := ?_, nodup := ?_ }
  · simp [← h.declared]
  · have hnew : labelName label ∉ declarations.map Prod.fst := by
      rw [h.names, List.mem_append, List.mem_reverse, not_or]
      exact ⟨LabelTable.not_mem_of_contains htable, hqueue⟩
    rw [List.map_append, List.nodup_append]
    refine ⟨h.nodup, List.nodup_singleton _, ?_⟩
    intro name hname last hlast heq
    rw [List.map_singleton, List.mem_singleton] at hlast
    rw [heq, hlast] at hname
    exact hnew hname

theorem mem_bindTo {queue : List (String × Nat)} {index k : Nat} {name : String} :
    (name, k) ∈ (d.bindTo queue index).labels.bindings ↔
      (name ∈ queue.map Prod.fst ∧ k = index) ∨ (name, k) ∈ d.labels.bindings := by
  simp only [bindTo, List.mem_append, List.mem_reverse, List.mem_map, Prod.mk.injEq]
  constructor
  · rintro (⟨q, hq, rfl, rfl⟩ | h)
    · exact .inl ⟨⟨q, hq, rfl⟩, rfl⟩
    · exact .inr h
  · rintro (⟨⟨q, hq, rfl⟩, rfl⟩ | h)
    · exact .inl ⟨q, hq, rfl, rfl⟩
    · exact .inr h

theorem Tracks.of_addEntry {entry : Entry} (h : d.Tracks settings declarations entries)
    (ha : addEntry entry d = .ok () d') :
    d'.Tracks settings declarations (entries ++ [some { entry with labels := [] }]) := by
  obtain rfl := addEntry_ok ha
  refine ⟨h.settings, ?_, h.nodup, ?_, ?_, ?_⟩
  · simp [bindTo, ← h.declared]
  · simp [← h.entries]
  · rintro ⟨name, k⟩ hp
    rw [Array.size_push]
    rcases mem_bindTo.mp hp with ⟨-, rfl⟩ | hp
    · exact Nat.lt_succ_self _
    · exact Nat.lt_succ_of_lt (h.bound _ hp)
  · intro k e he name
    change name ∈ e.labels ↔ (name, k) ∈ (d.bindTo d.queued d.entries.size).labels.bindings
    rw [mem_bindTo]
    rw [Array.getElem?_push] at he
    split_ifs at he with hk
    · -- The new entry: nothing was bound to its index before.
      cases he
      subst hk
      have hnone : (name, d.entries.size) ∉ d.labels.bindings := by
        intro hmem
        exact absurd (h.bound _ hmem) (Nat.lt_irrefl _)
      simp [hnone]
    · rw [h.labels k e he]
      simp [hk]

theorem Tracks.size (h : d.Tracks settings declarations entries) :
    d.entries.size = entries.length := by
  rw [← h.entries]
  simp

theorem Tracks.of_parseLine {line : Nat} {text : List Char}
    (h : d.Tracks settings declarations entries) (hp : parseLine line text d = .ok () d') :
    d'.Tracks settings (declarations ++ (declared? (wordsOf text)).toList.map (·, d.entries.size))
      (entries ++ if bears (wordsOf text) then [entryOf? line (wordsOf text)] else []) := by
  obtain ⟨s, hs, hadd⟩ := parseLine_ok hp
  obtain ⟨hdeclared, hbears, hoperand, hopcode⟩ := Statement.ofWords_ok hs
  obtain ⟨d₁, hlabel, hentry⟩ := addStatement_ok hadd
  rw [hdeclared, hbears]
  have h₁ : d₁.Tracks settings
      (declarations ++ (s.label.map labelName).toList.map (·, d.entries.size)) entries := by
    rcases hlabel with ⟨hnone, rfl⟩ | ⟨label, hsome, hqueue⟩
    · simpa [hnone] using h
    · simpa [hsome] using h.of_queueLabel hqueue
  rcases hentry with ⟨hnone, rfl⟩ | ⟨opcode, mnemonic, hsome, hmnemonic, hadd'⟩
  · simpa [hnone] using h₁
  · have hline : entryOf? line (wordsOf text) =
        some { line, mnemonic, operand := s.operand.map .ofWord } := by
      simp [entryOf?, hopcode opcode hsome, hmnemonic, hoperand]
    simpa [hsome, hline] using h₁.of_addEntry hadd'

theorem Tracks.of_parseLines {line : Nat} {texts : List (List Char)}
    (h : d.Tracks settings declarations entries) (hp : parseLines line texts d = .ok () d') :
    d'.Tracks settings (declarations ++ declarationsFrom d.entries.size (texts.map wordsOf))
      (entries ++ entriesFrom line (texts.map wordsOf)) := by
  induction texts generalizing d line declarations entries with
  | nil =>
    cases hp
    simpa [declarationsFrom, entriesFrom] using h
  | cons text texts ih =>
    obtain ⟨u, d₁, hline, hrest⟩ := bind_eq_ok hp
    have h₁ := h.of_parseLine hline
    have hsize : d₁.entries.size = d.entries.size + if bears (wordsOf text) then 1 else 0 := by
      rw [h₁.size, h.size]
      split <;> simp
    -- The next line is counted from the entries there are now.
    have h₂ := ih h₁ hrest
    rw [hsize] at h₂
    rw [List.map_cons, declarationsFrom, entriesFrom_cons, ← List.append_assoc, ← List.append_assoc]
    exact h₂

theorem Tracks.of_finish {line : Nat} (h : d.Tracks settings declarations entries)
    (hf : finish line d = .ok () d') :
    d'.labels.bindings.reverse = declarations ∧
      d'.entries.toList.map (fun e => some { e with labels := [] }) =
        entries ++ (trailing settings line).map some ∧
      ∀ k e, d'.entries[k]? = some e →
        ∀ name, name ∈ e.labels ↔ (name, k) ∈ d'.labels.bindings := by
  unfold finish at hf
  unfold trailing
  rw [h.settings] at hf
  split_ifs at hf ⊢ with hhalt
  · have h' := h.of_addEntry hf
    have hqueued : d'.queued = [] := by rw [addEntry_ok hf]
    refine ⟨?_, h'.entries, h'.labels⟩
    simpa [hqueued] using h'.declared
  · split at hf
    · cases hf
    · rename_i names d₁ hbind
      cases hf
      obtain ⟨-, rfl⟩ := bindQueued_ok hbind
      refine ⟨?_, ?_, ?_⟩
      · simp [bindTo, ← h.declared]
      · simpa [bindTo] using h.entries
      · -- The labels left over stand for no entry.
        intro k e he name
        change d.entries[k]? = some e at he
        have hk : k < d.entries.size := (Array.getElem?_eq_some_iff.mp he).1
        have hbound := @mem_bindTo d d.queued d.entries.size k name
        rw [h.labels k e he, hbound]
        simp [Nat.ne_of_lt hk]

/-- A name stands for an index exactly if a single line declares it, and the index is the number of
lines above that bear an entry. -/
theorem parse_labels {source : String} {settings : Settings} {d : Draft}
    (h : parse { source, settings } = .ok () d) :
    let lines := (Text.lines source.toList).map wordsOf
    d.entries.toList.map (fun e => some { e with labels := [] }) =
        entriesFrom 1 lines ++ (trailing settings (lines.length + 1)).map some ∧
      (∀ name k, d.labels.find? name = some k ↔
        ∃ i, Declares lines i name ∧ (∀ j, Declares lines j name → j = i) ∧
          k = (lines.take i).countP bears) ∧
      ∀ name k, (∃ e, d.entries[k]? = some e ∧ name ∈ e.labels) ↔
        k < d.entries.size ∧ d.labels.find? name = some k := by
  intro lines
  obtain ⟨u, d₁, hlines, hfinish⟩ := bind_eq_ok (x := parseLines 1 (Text.lines source.toList)) h
  have h₁ := (tracks_empty source settings).of_parseLines hlines
  rw [List.nil_append, List.nil_append] at h₁
  obtain ⟨htable, hentries, hlabels⟩ := h₁.of_finish hfinish
  have hnodup : (d.labels.bindings.map Prod.fst).Nodup := by
    rw [← List.nodup_reverse, ← List.map_reverse, htable]
    exact h₁.nodup
  have hmem : ∀ name k, (name, k) ∈ d.labels.bindings ↔
      ∃ i, Declares lines i name ∧ k = (lines.take i).countP bears := by
    intro name k
    rw [← List.mem_reverse, htable, mem_declarationsFrom]
    simp [lines]
  refine ⟨?_, ?_, ?_⟩
  · simpa [lines] using hentries
  · intro name k
    rw [LabelTable.find?_eq_some hnodup, hmem]
    constructor
    · rintro ⟨i, hi, hk⟩
      exact ⟨i, hi, fun j hj => Declares.unique h₁.nodup hj hi, hk⟩
    · rintro ⟨i, hi, -, hk⟩
      exact ⟨i, hi, hk⟩
  · intro name k
    rw [LabelTable.find?_eq_some hnodup]
    constructor
    · rintro ⟨e, he, hname⟩
      exact ⟨(Array.getElem?_eq_some_iff.mp he).1, (hlabels k e he name).mp hname⟩
    · rintro ⟨hk, hname⟩
      have he : d.entries[k]? = some d.entries[k] := Array.getElem?_eq_getElem hk
      exact ⟨d.entries[k], he, (hlabels k _ he name).mpr hname⟩

theorem parse_labels_leftover :
    ∃ d, parse ⟨"INP\nloop\nx: ADD y // z\ny DAT 5\nend:", {}, #[], {}, []⟩ = .ok () d ∧
      d.labels.find? "end" = some 3 ∧ ¬ ∃ e, d.entries[3]? = some e ∧ "end" ∈ e.labels := by
  have hrun :
      (match parse ⟨"INP\nloop\nx: ADD y // z\ny DAT 5\nend:", {}, #[], {}, []⟩ with
      | .ok () d => d.entries.size == 3 && d.labels.find? "end" == some 3
      | .error _ _ => false) = true := by decide +kernel
  split at hrun
  · rename_i d hparse
    simp only [Bool.and_eq_true, beq_iff_eq] at hrun
    obtain ⟨hsize, hend⟩ := hrun
    obtain ⟨-, -, hlisted⟩ := parse_labels hparse
    refine ⟨d, hparse, hend, ?_⟩
    rw [hlisted "end" 3, hsize]
    rintro ⟨hlt, -⟩
    exact absurd hlt (Nat.lt_irrefl 3)
  · cases hrun

end Draft

end LittleMan.Assembly
