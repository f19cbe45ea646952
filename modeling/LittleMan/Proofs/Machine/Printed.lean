import Mathlib.Tactic.Common
import LittleMan.Proofs.Assembly.Outcome
import LittleMan.Proofs.Machine.Reached

/-!
# What is printed without extensions

Printing a character is an extension. With extensions switched off it is refused twice: a source
that asks for it is not assembled, and a word that stands for it is not executed, wherever it comes
from. So all that such a machine prints is numbers, each on a line of its own.
-/

namespace LittleMan.Machine

section Requests

variable {C : Type} {m : Machine C} {r : Request} {i : Instruction} {w : Word}

theorem requestOf_eq_writeNumber :
    m.requestOf i = some (.writeNumber w) ↔ i = .transfer .output ∧ w = m.registers.acc := by
  unfold requestOf
  split
  · simp
  · simp [eq_comm]
  · simp
  · simp_all

theorem extensions_of_writeChar (h : m.request? = some (.writeChar w)) :
    m.settings.extensions = true := by
  obtain ⟨-, k, word, -, hr⟩ := request?_eq_some.mp h
  unfold requestOf at hr
  split at hr
  · simp at hr
  · simp at hr
  · by_contra hoff
    simp [Settings.allows, hoff] at hr
  · simp at hr

variable [Channel C]

/-- The number that the next step prints: the accumulator, if it executes an output and succeeds. -/
def printed? (m : Machine C) : Option Word :=
  match step m with
  | .ok (.transfer .output) _ => some m.registers.acc
  | _ => none

def printed (m : Machine C) (calls : List Call) : List Word := (m.history calls).filterMap printed?

theorem request?_of_output {m' : Machine C} (h : step m = .ok (.transfer .output) m') :
    m.request? = some (.writeNumber m.registers.acc) := by
  obtain ⟨hrunning, k, word, hfetch, hi, -⟩ := step_eq_ok.mp h
  rw [request?_eq_some]
  exact ⟨hrunning, k, word, hfetch, requestOf_eq_writeNumber.mpr ⟨hi.symm, rfl⟩⟩

theorem printed?_of_request (h : ∀ w, m.request? ≠ some (.writeNumber w)) : m.printed? = none := by
  unfold printed?
  split
  · rename_i hs
    exact absurd (request?_of_output hs) (h _)
  · rfl

end Requests

/-! ## Machines that print numbers only -/

variable {m m' : Machine Buffer}

def PrintsNumbers (m : Machine Buffer) : Prop :=
  m.settings.extensions = false ∧ m.channel.midLine = false

theorem printed?_of_writeNumber {w : Word} (h : m.request? = some (.writeNumber w)) :
    m.printed? = some w := by
  obtain ⟨-, k, word, hfetch, hr⟩ := request?_eq_some.mp h
  obtain ⟨hi, rfl⟩ := requestOf_eq_writeNumber.mp hr
  simp [printed?, step_of_request h, Buffer.put_writeNumber, reply, hfetch, hi]

theorem turn?_cases (h : m.PrintsNumbers) :
    (m.turn? = none ∧ m.printed? = none) ∨
      (∃ passed, m.turn? = some (.asked passed) ∧ m.printed? = none) ∨
      ∃ w, m.turn? = some (.printed (w.text ++ "\n")) ∧ m.printed? = some w := by
  unfold turn?
  rcases hr : m.request? with _ | r
  · exact .inl ⟨rfl, printed?_of_request (by simp [hr])⟩
  · right
    rcases r with range | w | code
    · exact .inl ⟨_, rfl, printed?_of_request (by simp [hr])⟩
    · refine .inr ⟨w, ?_, printed?_of_writeNumber hr⟩
      simp [Request.turn, Channel.numberText, h.2]
    · have hon := extensions_of_writeChar hr
      simp [h.1] at hon

theorem join_output {ms : List (Machine Buffer)} (h : ∀ s ∈ ms, s.PrintsNumbers) :
    String.join ((ms.filterMap turn?).map Turn.output) =
      String.join ((ms.filterMap printed?).map fun w => w.text ++ "\n") := by
  induction ms with
  | nil => rfl
  | cons s ms ih =>
    simp only [List.forall_mem_cons] at h
    rcases turn?_cases h.1 with ⟨ht, hp⟩ | ⟨passed, ht, hp⟩ | ⟨w, ht, hp⟩ <;>
      simp [ht, hp, Turn.output, ih h.2]

/-! ## Nothing starts a character line -/

theorem PrintsNumbers.stateOf_step (h : m.PrintsNumbers) : (stateOf (step m)).PrintsNumbers := by
  refine ⟨?_, ?_⟩
  · rcases hs : step m with ⟨i, m'⟩ | ⟨f, m'⟩
    · rw [stateOf, (step_keeps hs).2.1]
      exact h.1
    · rw [stateOf, step_error_frame hs]
      exact h.1
  · rw [channel_step]
    rcases hr : m.request? with _ | r
    · exact h.2
    · have hchar : ∀ code, r ≠ .writeChar code := by
        rintro code rfl
        have hon := extensions_of_writeChar hr
        simp [h.1] at hon
      rw [← h.2]
      exact Buffer.midLine_put m.channel hchar

theorem persists_printsNumbers : Persists PrintsNumbers where
  step h hs := by
    have hstate := h.stateOf_step
    rwa [hs] at hstate
  refused h hs := by
    have hstate := h.stateOf_step
    rwa [hs] at hstate
  reset h := h
  halt h := h
  setAcc w h := h
  set h hs := by
    obtain ⟨index, -, -, rfl⟩ := set_eq_ok.mp hs
    exact h
  jump h hs := by
    obtain ⟨index, -, rfl⟩ := jump_eq_ok.mp hs
    exact h

/-! ## Sources -/

theorem assemble_of_outputChar {a : Architecture} {settings : Settings} {source : String}
    (hoff : settings.extensions = false) {e : Assembly.Entry}
    (he : e ∈ Assembly.entriesOf (Assembly.linesOf source))
    (hchar : e.mnemonic = .code .outputChar) :
    ∃ error, Assembly.assemble a settings source = .error error := by
  have houtcome := Assembly.assemble_outcome a settings source
  rcases hend : Assembly.assemble a settings source with error | program
  · exact ⟨error, rfl⟩
  · rw [hend] at houtcome
    obtain ⟨item, v, -, hmake⟩ :=
      Assembly.exists_of_forall₂ houtcome.items (List.mem_append_left _ he)
    rw [hchar, Assembly.makeItem_eq_error.mpr (.disabled v hoff)] at hmake
    cases hmake

/-- With extensions switched off, the output is the accumulators of the outputs executed, each on a
line. -/
theorem only_numbers_without_extensions (a : Architecture) (settings : Settings)
    (hoff : settings.extensions = false) :
    (∀ (lines : List String) (image : List Word) (m : Machine Buffer),
      load a settings (Buffer.ofLines lines) image = .ok m → ∀ calls : List Call,
        (∀ s, s = m.after calls ∨ s ∈ m.history calls → s.channel.midLine = false) ∧
        (m.after calls).channel.output =
          String.join ((m.printed calls).map fun w => w.text ++ "\n")) ∧
    ∀ source, (∃ e ∈ Assembly.entriesOf (Assembly.linesOf source),
        e.mnemonic = .code .outputChar) →
      ∃ error, Assembly.assemble a settings source = .error error := by
  refine ⟨?_, ?_⟩
  · intro lines image m hload calls
    have hchannel := load_channel hload
    have hstart : m.PrintsNumbers := by
      refine ⟨?_, ?_⟩
      · rw [(loadedFrom_load hload).settings]
        exact hoff
      · rw [hchannel]
        rfl
    obtain ⟨hend, hway⟩ := persists_printsNumbers.of_calls hstart calls
    refine ⟨?_, ?_⟩
    · rintro s (rfl | hs)
      · exact hend.2
      · exact (hway s hs).2
    · rw [(keeps_after m calls).output, hchannel, transcript, join_output hway, printed]
      simp [Buffer.ofLines]
  · rintro source ⟨e, he, hchar⟩
    exact assemble_of_outputChar hoff he hchar

theorem only_numbers_without_extensions_stored :
    ∃ m : Machine Buffer,
      load .decimal { extensions := false } (Buffer.ofLines ["922"]) [901, 902, 304, 902] =
        .ok m ∧
      (m.after [.runLimited 9, .step]).memory.cells[4]? = some 922 ∧
      (m.after [.runLimited 9, .step]).channel.midLine = false ∧
      (m.after [.runLimited 9, .step]).channel.output = "922\n922\n" ∧
      ∃ error, Assembly.assemble .decimal { extensions := false } "INP\nloop: OTC 7 // x" =
        .error error := by
  have hrun : ∃ m : Machine Buffer,
      load .decimal { extensions := false } (Buffer.ofLines ["922"]) [901, 902, 304, 902] =
        .ok m ∧
      (m.after [.runLimited 9, .step]).memory.cells[4]? = some 922 ∧
      m.printed [.runLimited 9, .step] = [922, 922] := ⟨_, rfl, by decide +kernel⟩
  obtain ⟨m, hload, hcell, hprinted⟩ := hrun
  obtain ⟨hrun, hsource⟩ :=
    only_numbers_without_extensions .decimal { extensions := false } rfl
  obtain ⟨hline, houtput⟩ := hrun _ _ m hload [.runLimited 9, .step]
  refine ⟨m, hload, hcell, hline _ (.inl rfl), ?_, hsource _ (by decide +kernel)⟩
  rw [houtput, hprinted]
  decide +kernel

end LittleMan.Machine
