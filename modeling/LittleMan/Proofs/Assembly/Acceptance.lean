import Mathlib.Tactic.Common
import LittleMan.Proofs.Assembly.Outcome

/-!
# Which sources are accepted

What is asked of a source text falls into four phases: the shape of its lines, the labels in its
operands, the operands themselves, and the size of the whole. A source text is assembled exactly if
it meets all of them. If it does not, the error belongs to the first phase that it fails.
-/

namespace LittleMan.Assembly

inductive Phase
  | lines
  | labels
  | operands
  | size
deriving DecidableEq

def Phase.earlier : Phase → List Phase
  | lines => []
  | labels => [lines]
  | operands => [lines, labels]
  | size => [lines, labels, operands]

/-- What a phase asks of lines of these words. -/
def Meets (a : Architecture) (settings : Settings) (lines : List (List String)) : Phase → Prop
  | .lines => WellFormed lines
  | .labels => ∀ e ∈ entriesOf lines, e.Resolvable lines
  | .operands => ∀ e ∈ entriesOf lines, ∀ f, ¬ e.Offends a settings lines f
  | .size => cells settings lines ≤ a.memorySize

def Flaw.phase : Flaw → Phase
  | tooManyWords | emptyLabel | notAnOpcode _ | noOpcode _ _ | repeatedLabel _ => .lines
  | undefinedLabel _ => .labels
  | missingOperand _ | extensionDisabled _ | operandOutOfRange _ _ | notAnInstruction _ => .operands

def Error.phase : Error → Phase
  | flaw _ what => what.phase
  | programTooLarge _ _ => .size

/-! ## The phase of an error -/

theorem labelFlaw?_phase {before : List (List String)} {label : String} {f : Flaw}
    (h : labelFlaw? before label = some f) : f.phase = .lines := by
  unfold labelFlaw? at h
  split_ifs at h <;> cases h <;> rfl

theorem opcodeFlaw?_phase {word : String} {f : Flaw} (h : opcodeFlaw? word = some f) :
    f.phase = .lines := by
  unfold opcodeFlaw? at h
  split_ifs at h
  cases h
  rfl

theorem ofWords_phase {words : List String} {f : Flaw} (h : Statement.ofWords words = .error f) :
    f.phase = .lines := by
  unfold Statement.ofWords at h
  split at h
  · cases h
  · cases h
  · split_ifs at h
    cases h
    rfl
  · cases h
  · cases h
    rfl

theorem flaw?_phase {before : List (List String)} {words : List String} {f : Flaw}
    (h : flaw? before words = some f) : f.phase = .lines := by
  unfold flaw? at h
  split at h
  · rename_i f' hwords
    cases h
    exact ofWords_phase hwords
  · rcases Option.or_eq_some_iff.mp h with hlabel | ⟨-, hopcode⟩
    · obtain ⟨label, -, hlabel⟩ := Option.bind_eq_some_iff.mp hlabel
      exact labelFlaw?_phase hlabel
    · obtain ⟨opcode, -, hopcode⟩ := Option.bind_eq_some_iff.mp hopcode
      exact opcodeFlaw?_phase hopcode

theorem Entry.Offends.phase {a : Architecture} {settings : Settings} {lines : List (List String)}
    {e : Entry} {f : Flaw} (h : e.Offends a settings lines f) : f.phase = .operands := by
  obtain ⟨v, -, hrefused⟩ := h
  generalize e.mnemonic = m at hrefused
  cases hrefused <;> rfl

/-! ## The first line that is wrong -/

variable {a : Architecture} {settings : Settings} {lines : List (List String)}

theorem firstFlaw?_phase {n : Nat} {f : Flaw} (h : firstFlaw? [] lines = some (n, f)) :
    f.phase = .lines := by
  obtain ⟨mid, words, rest, -, -, -, hflaw⟩ := (firstFlaw?_eq_some wellFormed_nil).mp h
  exact flaw?_phase hflaw

theorem firstFlaw?_least {n : Nat} {f : Flaw} (h : firstFlaw? [] lines = some (n, f)) :
    ¬ WellFormed (lines.take n) ∧ ∀ k < n, WellFormed (lines.take k) := by
  obtain ⟨mid, words, rest, rfl, rfl, hmid, hflaw⟩ := (firstFlaw?_eq_some wellFormed_nil).mp h
  rw [List.nil_append] at hmid hflaw
  rw [List.length_nil, Nat.zero_add]
  constructor
  · intro hall
    rw [List.take_length_add_append] at hall
    have hnone := (wellFormed_concat.mp hall).2
    rw [hflaw] at hnone
    cases hnone
  · intro k hk
    rw [List.take_append_of_le_length (Nat.le_of_lt_succ hk)]
    rw [← List.take_append_drop k mid] at hmid
    exact hmid.of_append

theorem firstFlaw?_of_take {lines' : List (List String)} {n : Nat} {f : Flaw}
    (h : firstFlaw? [] lines = some (n, f)) (htake : lines'.take n = lines.take n) :
    firstFlaw? [] lines' = some (n, f) := by
  obtain ⟨mid, words, rest, rfl, rfl, hmid, hflaw⟩ := (firstFlaw?_eq_some wellFormed_nil).mp h
  rw [List.length_nil, Nat.zero_add] at htake ⊢
  rw [List.take_length_add_append] at htake
  apply (firstFlaw?_eq_some wellFormed_nil).mpr
  refine ⟨mid, words, lines'.drop (mid.length + 1), ?_, by simp, hmid, hflaw⟩
  rw [← List.take_append_drop (mid.length + 1) lines', htake]
  simp

/-! ## Acceptance -/

theorem Assembled.meets {program : Program} (h : Assembled a settings lines program) (p : Phase) :
    Meets a settings lines p := by
  have hmade : ∀ e ∈ entriesOf lines, ∃ item, e.Makes a settings lines item :=
    fun e he => exists_of_forall₂ h.items (List.mem_append_left _ he)
  cases p with
  | lines => exact h.wellFormed
  | labels =>
    intro e he
    obtain ⟨item, v, hv, -⟩ := hmade e he
    exact Entry.resolvable_of_denotes hv
  | operands =>
    intro e he
    obtain ⟨item, hitem⟩ := hmade e he
    exact hitem.not_offends h.wellFormed
  | size =>
    have hsize := h.size
    rw [← h.items.length_eq, length_entries] at hsize
    exact hsize

theorem Fails.phase {e : Error} (h : Fails a settings lines e) :
    ¬ Meets a settings lines e.phase ∧ ∀ p ∈ e.phase.earlier, Meets a settings lines p := by
  cases h with
  | @line n f hflaw =>
    have hphase : (Error.flaw n f).phase = .lines := firstFlaw?_phase hflaw
    rw [hphase]
    refine ⟨?_, by simp [Phase.earlier]⟩
    intro hl
    rw [(firstFlaw?_eq_none wellFormed_nil).mpr hl] at hflaw
    cases hflaw
  | @label before after e name hl hsplit hb hname hnone =>
    constructor
    · intro hr
      obtain ⟨i, hi⟩ := hr e (by simp [hsplit]) name hname
      exact hnone i hi
    · intro p hp
      obtain rfl := List.mem_singleton.mp hp
      exact hl
  | @operand before after e f hl hr hsplit hb hf =>
    have hphase : (Error.flaw e.line f).phase = .operands := hf.phase
    rw [hphase]
    constructor
    · intro ho
      exact ho e (by simp [hsplit]) f hf
    · simpa [Phase.earlier] using ⟨hl, hr⟩
  | size hl hr ho hsize =>
    constructor
    · exact Nat.not_le_of_lt hsize
    · simpa [Error.phase, Phase.earlier] using ⟨hl, hr, ho⟩

theorem Fails.line_of_phase {e : Error} (h : Fails a settings lines e) (hp : e.phase = .lines) :
    ∃ n f, e = .flaw n f ∧ firstFlaw? [] lines = some (n, f) := by
  cases h with
  | line hflaw => exact ⟨_, _, rfl, hflaw⟩
  | label => cases hp
  | @operand _ _ e f _ _ _ _ hf =>
    change f.phase = .lines at hp
    rw [hf.phase] at hp
    cases hp
  | size => cases hp

/-- A source text is assembled exactly if it meets all phases. An error belongs to the first phase
that is not met, and whatever comes behind its line makes no difference to it. -/
theorem assemble_accepts_exactly (a : Architecture) (settings : Settings) (source : String) :
    let lines := linesOf source
    ((∃ program, assemble a settings source = .ok program) ↔ ∀ p, Meets a settings lines p) ∧
    ∀ e, assemble a settings source = .error e →
      ¬ Meets a settings lines e.phase ∧ (∀ p ∈ e.phase.earlier, Meets a settings lines p) ∧
      Fails a settings lines e ∧
      (e.phase = .lines → ∃ n, e.line? = some n ∧ ¬ WellFormed (lines.take n) ∧
        (∀ k < n, WellFormed (lines.take k)) ∧
        ∀ a' settings' source', (linesOf source').take n = lines.take n →
          assemble a' settings' source' = .error e) := by
  intro lines
  have houtcome := assemble_outcome a settings source
  constructor
  · constructor
    · rintro ⟨program, hok⟩
      rw [hok] at houtcome
      exact houtcome.meets
    · intro hmeets
      cases hend : assemble a settings source with
      | ok program => exact ⟨program, rfl⟩
      | error e =>
        rw [hend] at houtcome
        exact absurd (hmeets e.phase) houtcome.phase.1
  · intro e herror
    rw [herror] at houtcome
    refine ⟨houtcome.phase.1, houtcome.phase.2, houtcome, ?_⟩
    intro hp
    obtain ⟨n, f, rfl, hflaw⟩ := houtcome.line_of_phase hp
    obtain ⟨hnot, hleast⟩ := firstFlaw?_least hflaw
    refine ⟨n, rfl, hnot, hleast, ?_⟩
    intro a' settings' source' htake
    exact assemble_of_flaw a' settings' (firstFlaw?_of_take hflaw htake)

theorem assemble_accepts_exactly_repeated :
    ¬ Meets .decimal {} (linesOf "LDA nowhere\nx DAT // 1\nx: HLT\na b c d") .lines ∧
      assemble .binary { extensions := false } "LDA nowhere // 2\nx DAT\nx: HLT" =
        .error (.flaw 3 (.repeatedLabel "x")) := by
  have herror : assemble .decimal {} "LDA nowhere\nx DAT // 1\nx: HLT\na b c d" =
      .error (.flaw 3 (.repeatedLabel "x")) := by decide +kernel
  obtain ⟨-, herrors⟩ :=
    assemble_accepts_exactly .decimal {} "LDA nowhere\nx DAT // 1\nx: HLT\na b c d"
  obtain ⟨hphase, -, -, hline⟩ := herrors _ herror
  obtain ⟨n, hn, -, -, hsame⟩ := hline rfl
  cases hn
  refine ⟨hphase, ?_⟩
  apply hsame
  decide +kernel

end LittleMan.Assembly
