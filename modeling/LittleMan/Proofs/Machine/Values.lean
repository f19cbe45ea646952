import Mathlib.Tactic.Common
import LittleMan.Channel.Console
import LittleMan.Proofs.Channel.Buffer
import LittleMan.Proofs.Machine.History
import LittleMan.Proofs.Wrapping

/-!
# Values stay in range

On a machine that wraps its values, a word outside the range can only come from the image. It stays
in the cell it was loaded into: whatever is computed from it, stored or printed is in range. Buffers
and consoles take a line only if its number is in the range that the machine asks for.
-/

namespace LittleMan

/-! ## Channels that keep to the range -/

/-- A channel whose numbers are in the range they were asked for. -/
class LawfulChannel (C : Type) [Channel C] : Prop where
  contains_of_read {r : Range} {c c' : C} {w : Word} :
    Channel.readNumber (some r) c = .ok w c' → r.contains w = true

theorem Channel.contains_of_accept {r : Range} {line : List Char} {w : Word}
    (h : accept (some r) line = .ok w) : r.contains w = true := by
  simpa using (accept_eq_ok.mp h).2

theorem Buffer.contains_of_readFrom {r : Range} {b b' : Buffer} {lines : List String} {w : Word}
    (h : readFrom (some r) b lines = .ok w b') : r.contains w = true := by
  induction lines generalizing b with
  | nil => cases h
  | cons line lines ih =>
    unfold readFrom at h
    split at h
    · rename_i haccept
      cases h
      exact Channel.contains_of_accept haccept
    · exact ih h

instance : LawfulChannel Buffer where
  contains_of_read := Buffer.contains_of_readFrom

theorem Console.contains_of_readFrom {r : Range} {c c' : Console} {bytes : List UInt8} {w : Word}
    (h : readFrom (some r) c bytes = .ok w c') : r.contains w = true := by
  generalize hrange : some r = range at h
  fun_induction readFrom range c bytes with
  | case4 =>
    -- A line is taken.
    rename_i haccept _
    obtain ⟨rfl, -⟩ := EStateM.Result.ok.inj h
    rw [← hrange] at haccept
    exact Channel.contains_of_accept haccept
  | case6 =>
    -- A line is refused, and the next one is read.
    rename_i ih
    exact ih h
  | case1 | case2 | case3 | case5 => cases h

instance : LawfulChannel Console where
  contains_of_read := Console.contains_of_readFrom

/-! ## Memories -/

/-- Whether every cell holds a value of the architecture, or the word that the image puts there. -/
def Memory.Holds (memory : Memory) (a : Architecture) (image : List Word) : Prop :=
  ∀ (index : Nat) (w : Word), memory.cells[index]? = some w →
    a.inRange w = true ∨ image[index]? = some w

theorem Memory.Holds.put {memory : Memory} {a : Architecture} {image : List Word}
    (h : memory.Holds a image) (index : Nat) {w : Word} (hw : a.inRange w = true) :
    (memory.put index w).Holds a image := by
  intro k x hx
  simp only [Memory.put, Array.getElem?_setIfInBounds] at hx
  split at hx
  · split at hx
    · cases hx
      exact .inl hw
    · cases hx
  · exact h k x hx

theorem Architecture.inRange_zero (a : Architecture) : a.inRange 0 = true := by
  cases a <;> decide

namespace Machine

variable {C : Type} {m m' : Machine C} {a : Architecture} {image : List Word}

/-! ## Machines with their values in range -/

/-- What is true of the values in a machine that was loaded with `image` and wraps its values. -/
structure Ranged (m : Machine C) (a : Architecture) (image : List Word) : Prop where
  sound : ∃ n, m.Sound a n
  wraps : m.settings.wrapValues = true
  acc : a.inRange m.registers.acc = true
  memory : m.memory.Holds a image
  initial : m.initial.Holds a image
  cir : ∀ w, m.registers.cir = some w → a.inRange w = true ∨ w ∈ image

theorem ranged_load {settings : Settings} {channel : C}
    (h : load a settings channel image = .ok m) (hwrap : settings.wrapValues = true) :
    m.Ranged a image := by
  have hsound := sound_load h
  unfold load Memory.ofImage Memory.load at h
  split_ifs at h with hfits
  · cases h
    have hholds : Memory.Holds
        ⟨(image ++ List.replicate ((Memory.zeros a.memorySize).size - image.length) 0).toArray⟩
        a image := by
      intro index w hw
      rw [List.getElem?_toArray, List.getElem?_append] at hw
      split at hw
      · exact .inr hw
      · -- Behind the image there are zeros.
        obtain rfl := List.eq_of_mem_replicate (List.mem_of_getElem? hw)
        exact .inl a.inRange_zero
    exact ⟨⟨0, hsound⟩, hwrap, a.inRange_zero, hholds, hholds, nofun⟩
  · cases h

theorem Ranged.inRange_normalize (h : m.Ranged a image) (w : Word) :
    a.inRange (m.normalize w) = true := by
  obtain ⟨n, hsound⟩ := h.sound
  unfold normalize
  rw [if_pos h.wraps, hsound.architecture]
  exact a.inRange_wrap w

theorem Ranged.setChannel (h : m.Ranged a image) (c : C) :
    Ranged { m with channel := c } a image :=
  { h with sound := h.sound.imp fun _ hs => hs.setChannel c }

theorem Ranged.halt (h : m.Ranged a image) : m.halt.Ranged a image :=
  { h with sound := h.sound.imp fun _ hs => hs.halt }

theorem Ranged.setAcc (h : m.Ranged a image) (w : Word) : (m.setAcc w).Ranged a image :=
  { h with
    sound := h.sound.imp fun _ hs => hs.setAcc w
    acc := h.inRange_normalize w }

theorem Ranged.putCell (h : m.Ranged a image) (index : Nat) (w : Word) :
    (m.putCell index (m.normalize w)).Ranged a image :=
  { h with
    sound := h.sound.imp fun _ hs => hs.putCell index _
    memory := h.memory.put index (h.inRange_normalize w) }

theorem Ranged.reset (h : m.Ranged a image) : m.reset.Ranged a image := by
  obtain ⟨n, hsound⟩ := h.sound
  exact ⟨⟨0, hsound.reset⟩, h.wraps, a.inRange_zero, h.initial, h.initial, nofun⟩

theorem Ranged.moveTo (h : m.Ranged a image) {address : Int} {access : Access} {index : Nat}
    (hlocate : m.locate address access = .ok index) : (m.moveTo index).Ranged a image := by
  obtain ⟨n, hsound⟩ := h.sound
  have hlt := locate_lt hsound.pos hlocate
  exact { h with sound := ⟨n, hsound.moveTo (hsound.size ▸ Nat.le_of_lt hlt)⟩ }

theorem Ranged.fetched (h : m.Ranged a image) {index : Nat} {w : Word}
    (hcell : m.memory.cells[index]? = some w) : (m.fetched index w).Ranged a image := by
  obtain ⟨n, hsound⟩ := h.sound
  have hlt := (Array.getElem?_eq_some_iff.mp hcell).1
  refine ⟨⟨n + 1, hsound.fetched hlt w⟩, h.wraps, h.acc, h.memory, h.initial, ?_⟩
  intro x hx
  obtain rfl : w = x := Option.some.inj hx
  exact (h.memory index w hcell).imp_right List.mem_of_getElem?

/-! ## Steps -/

variable [Channel C]

theorem Ranged.of_effect (h : m.Ranged a image) (he : m.Effect m') : m'.Ranged a image := by
  cases he with
  | halt => exact h.halt
  | compute w => exact h.setAcc w
  | store index hlt => exact h.putCell index _
  | stay => exact h
  | branch address index hlocate => exact h.moveTo hlocate
  | transfer r x c hput =>
    cases x with
    | none => exact h.setChannel c
    | some w => exact (h.setChannel c).setAcc w

theorem Ranged.of_step {i : Instruction} (h : m.Ranged a image) (hs : step m = .ok i m') :
    m'.Ranged a image := by
  obtain ⟨index, w, -, hfetch, -, heffect⟩ := step_ok hs
  exact (h.fetched (fetch_eq_ok.mp hfetch).2).of_effect heffect

theorem invariant_ranged (a : Architecture) (image : List Word) :
    Invariant fun m : Machine C => m.Ranged a image where
  step h hs := h.of_step hs
  channel c h := h.setChannel c
  reset h := h.reset
  halt h := h.halt
  setAcc w h := h.setAcc w
  set h hs := by
    obtain ⟨index, -, -, rfl⟩ := set_eq_ok.mp hs
    exact h.putCell index _
  jump h hs := by
    obtain ⟨index, hlocate, rfl⟩ := jump_eq_ok.mp hs
    exact h.moveTo hlocate

/-! ## What a step reads and prints -/

theorem step_request {i : Instruction} {r : Request} (hs : step m = .ok i m')
    (hr : m.requestOf i = some r) :
    ∃ x, r.put m.channel = .ok x m'.channel ∧
      m'.registers.acc = (m.receive x).registers.acc := by
  obtain ⟨-, k, w, -, -, hexecute⟩ := step_eq_ok.mp hs
  have hrequest : (m.fetched k w).requestOf i = some r := hr
  rw [execute_of_request hrequest, show (m.fetched k w).channel = m.channel from rfl] at hexecute
  cases hput : r.put m.channel with
  | error e c => rw [hput] at hexecute; cases hexecute
  | ok x c =>
    rw [hput] at hexecute
    cases hexecute
    cases x <;> exact ⟨_, rfl, rfl⟩

theorem step_output (hs : step m = .ok (.transfer .output) m') :
    Channel.writeNumber m.registers.acc m.channel = .ok () m'.channel := by
  obtain ⟨x, hput, -⟩ := step_request hs rfl
  simp only [Request.put, EStateM.map] at hput
  split at hput
  · rename_i hwrite
    cases hput
    exact hwrite
  · cases hput

theorem step_input (hs : step m = .ok (.transfer .input) m') :
    ∃ w, Channel.readNumber m.inputRange m.channel = .ok w m'.channel ∧
      m'.registers.acc = m.normalize w := by
  obtain ⟨x, hput, hacc⟩ := step_request hs rfl
  simp only [Request.put, EStateM.map] at hput
  split at hput
  · rename_i w c hread
    cases hput
    exact ⟨w, hread, hacc⟩
  · cases hput

theorem Ranged.step_input (h : m.Ranged a image) (hs : step m = .ok (.transfer .input) m') :
    ∃ w, Channel.readNumber (some a.values) m.channel = .ok w m'.channel ∧
      (a.inRange w = true → m'.registers.acc = w) := by
  obtain ⟨n, hsound⟩ := h.sound
  have hrange : m.inputRange = some a.values := by
    unfold inputRange
    rw [if_pos h.wraps, hsound.architecture]
  obtain ⟨w, hread, hacc⟩ := Machine.step_input hs
  rw [hrange] at hread
  refine ⟨w, hread, ?_⟩
  intro hw
  rw [hacc, normalize, if_pos h.wraps, hsound.architecture]
  exact Architecture.wrap_of_inRange hw

/-- On a machine that wraps its values the accumulator is always in range, and so is each cell that
does not hold the word it was loaded with. -/
theorem values_stay_in_range {settings : Settings} {channel : C}
    (hload : load a settings channel image = .ok m) (hwrap : settings.wrapValues = true)
    (calls : List Call) {s : Machine C} (hs : s = m.after calls ∨ s ∈ m.history calls) :
    a.inRange s.registers.acc = true ∧
      (∀ (index : Nat) (w : Word), s.memory.cells[index]? = some w →
        a.inRange w = true ∨ image[index]? = some w) ∧
      ((∀ w ∈ image, a.inRange w = true) →
        (∀ w ∈ s.memory.cells, a.inRange w = true) ∧
        ∀ w, s.registers.cir = some w → a.inRange w = true) ∧
      (∀ s', step s = .ok (.transfer .output) s' →
        Channel.writeNumber s.registers.acc s.channel = .ok () s'.channel) ∧
      (∀ s', step s = .ok (.transfer .input) s' →
        ∃ w, Channel.readNumber (some a.values) s.channel = .ok w s'.channel ∧
          (a.inRange w = true → s'.registers.acc = w) ∧
          (LawfulChannel C → a.inRange w = true)) := by
  obtain ⟨hend, hway⟩ := (invariant_ranged a image).of_calls (ranged_load hload hwrap) calls
  have h : s.Ranged a image := by
    rcases hs with rfl | hs
    · exact hend
    · exact hway s hs
  refine ⟨h.acc, h.memory, ?_, fun s' => step_output, ?_⟩
  · intro himage
    refine ⟨?_, ?_⟩
    · intro w hw
      obtain ⟨index, hindex⟩ := Array.getElem?_of_mem hw
      rcases h.memory index w hindex with hw | hw
      · exact hw
      · exact himage w (List.mem_of_getElem? hw)
    · intro w hw
      rcases h.cir w hw with hw | hw
      · exact hw
      · exact himage w hw
  · intro s' hinput
    obtain ⟨w, hread, hacc⟩ := h.step_input hinput
    exact ⟨w, hread, hacc, fun _ => LawfulChannel.contains_of_read hread⟩

theorem values_stay_in_range_added :
    ∃ m s s' : Machine Buffer,
      load .decimal {} (Buffer.ofLines ["7"]) [901, 103, 902, 5000] = .ok m ∧
      s = m.after [.runLimited 3] ∧ s.registers.acc = -987 ∧
      Architecture.decimal.inRange s.registers.acc = true ∧
      step m = .ok (.transfer .input) s' ∧
      ∃ w, Channel.readNumber (some Architecture.decimal.values) m.channel = .ok w s'.channel ∧
        s'.registers.acc = w := by
  have hrun : ∃ m s' : Machine Buffer,
      load .decimal {} (Buffer.ofLines ["7"]) [901, 103, 902, 5000] = .ok m ∧
      step m = .ok (.transfer .input) s' ∧ (m.after [.runLimited 3]).registers.acc = -987 :=
    ⟨_, _, rfl, rfl, by decide +kernel⟩
  obtain ⟨m, s', hload, hstep, hacc⟩ := hrun
  obtain ⟨hrange, -⟩ := values_stay_in_range hload rfl [.runLimited 3] (.inl rfl)
  obtain ⟨-, -, -, -, hinput⟩ := values_stay_in_range hload rfl [] (.inl rfl)
  obtain ⟨w, hread, hkeep, hlawful⟩ := hinput s' hstep
  exact ⟨m, _, s', hload, rfl, hacc, hrange, hstep, w, hread, hkeep (hlawful inferInstance)⟩

end Machine

end LittleMan
