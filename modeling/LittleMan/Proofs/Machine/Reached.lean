import Mathlib.Tactic.Common
import LittleMan.Proofs.Machine.Interchange

/-!
# Reached machines

The machines that come from a loaded one by calls, and by whatever is done to the channel between
them. None of it touches the architecture, the settings or the memory as it was loaded, so a reset
is as good as loading the image again.
-/

namespace LittleMan.Machine

variable {C : Type} {m m' : Machine C} {a : Architecture} {settings : Settings}
  {image : List Word}

/-! ## What stays as it was loaded -/

/-- Whether a machine has the architecture, the settings and the first memory that `load` gives. -/
structure LoadedFrom (m : Machine C) (a : Architecture) (settings : Settings) (image : List Word) :
    Prop where
  architecture : m.architecture = a
  settings : m.settings = settings
  initial : Memory.ofImage image a.memorySize = .ok m.initial

theorem loadedFrom_load {channel : C} (h : load a settings channel image = .ok m) :
    m.LoadedFrom a settings image := by
  unfold load at h
  cases hmemory : Memory.ofImage image a.memorySize with
  | error e => rw [hmemory] at h; cases h
  | ok memory =>
    rw [hmemory] at h
    cases h
    exact ⟨rfl, rfl, hmemory⟩

theorem LoadedFrom.load_eq (h : m.LoadedFrom a settings image) :
    load a settings m.channel image = .ok m.reset := by
  unfold load
  rw [h.initial]
  obtain ⟨rfl, rfl, -⟩ := h
  rfl

variable [Channel C]

theorem step_keeps {i : Instruction} (hs : step m = .ok i m') :
    m'.architecture = m.architecture ∧ m'.settings = m.settings ∧ m'.initial = m.initial := by
  obtain ⟨index, w, -, -, -, heffect⟩ := step_ok hs
  obtain ⟨acc, ip, memory, status, channel, rfl⟩ := heffect.frame
  exact ⟨rfl, rfl, rfl⟩

theorem invariant_loadedFrom : Invariant fun m : Machine C => m.LoadedFrom a settings image where
  step h hs := by
    obtain ⟨ha, hsettings, hinitial⟩ := step_keeps hs
    exact ⟨ha.trans h.architecture, hsettings.trans h.settings, hinitial ▸ h.initial⟩
  channel c h := { h with }
  reset h := { h with }
  halt h := { h with }
  setAcc w h := { h with }
  set h hs := by
    obtain ⟨index, -, -, rfl⟩ := set_eq_ok.mp hs
    exact { h with }
  jump h hs := by
    obtain ⟨index, -, rfl⟩ := jump_eq_ok.mp hs
    exact { h with }

/-! ## Reached machines -/

inductive Reached (a : Architecture) (settings : Settings) (image : List Word) : Machine C → Prop
  | load {m : Machine C} {channel : C} (h : Machine.load a settings channel image = .ok m) :
      Reached a settings image m
  | call {m : Machine C} (h : Reached a settings image m) (c : Call) :
      Reached a settings image (c.perform m).2
  | channel {m : Machine C} (h : Reached a settings image m) (c : C) :
      Reached a settings image { m with channel := c }

theorem Invariant.of_reached {P : Machine C → Prop} (h : Invariant P)
    (hload : ∀ channel m, load a settings channel image = .ok m → P m)
    (hm : Reached a settings image m) : P m := by
  induction hm with
  | load hm => exact hload _ _ hm
  | call _ c ih => exact h.of_perform ih c
  | channel _ c ih => exact h.channel c ih

theorem invariant_reached : Invariant fun m : Machine C => Reached a settings image m where
  step {m m' i} h hs := by
    have hcall := h.call .step
    simpa [Call.perform, hs] using hcall
  channel c h := h.channel c
  reset h := h.call .reset
  halt h := h.call .halt
  setAcc w h := h.call (.setAcc w)
  set {m m' address w} h hs := by
    have hcall := h.call (.set address w)
    simpa [Call.perform, hs] using hcall
  jump {m m' address} h hs := by
    have hcall := h.call (.jump address)
    simpa [Call.perform, hs] using hcall

theorem Reached.after (h : Reached a settings image m) (calls : List Call) :
    Reached a settings image (m.after calls) :=
  (invariant_reached.of_calls h calls).1

theorem invariant_sound : Invariant fun m : Machine C => ∃ n, m.Sound a n where
  step := by
    rintro m m' i ⟨n, h⟩ hs
    exact ⟨n + 1, h.of_step hs⟩
  channel := by
    rintro m c ⟨n, h⟩
    exact ⟨n, h.setChannel c⟩
  reset := by
    rintro m ⟨n, h⟩
    exact ⟨0, h.reset⟩
  halt := by
    rintro m ⟨n, h⟩
    exact ⟨n, h.halt⟩
  setAcc := by
    rintro m w ⟨n, h⟩
    exact ⟨n, h.setAcc w⟩
  set := by
    rintro m m' address w ⟨n, h⟩ hs
    obtain ⟨index, -, -, rfl⟩ := set_eq_ok.mp hs
    exact ⟨n, h.putCell index _⟩
  jump := by
    rintro m m' address ⟨n, h⟩ hs
    obtain ⟨index, hlocate, rfl⟩ := jump_eq_ok.mp hs
    exact ⟨n, h.moveTo (h.size ▸ Nat.le_of_lt (locate_lt h.pos hlocate))⟩

theorem Reached.sound (h : Reached a settings image m) : ∃ n, m.Sound a n :=
  invariant_sound.of_reached (fun _ _ hload => ⟨0, sound_load hload⟩) h

theorem Reached.loadedFrom (h : Reached a settings image m) : m.LoadedFrom a settings image :=
  invariant_loadedFrom.of_reached (fun _ _ => loadedFrom_load) h

/-- A reset machine is the one that loading the image again with the present channel gives. -/
theorem reset_reloads {s : Machine C} (h : Reached a settings image s) :
    load a settings s.channel image = .ok s.reset ∧
      ∀ fresh, load a settings s.channel image = .ok fresh → ∀ calls : List Call,
        s.after (.reset :: calls) = fresh.after calls ∧
          ∀ c : Call, c.respond (s.after (.reset :: calls)) = c.respond (fresh.after calls) := by
  have hload := h.loadedFrom.load_eq
  refine ⟨hload, ?_⟩
  intro fresh hfresh calls
  obtain rfl : s.reset = fresh := by
    rw [hload] at hfresh
    exact Except.ok.inj hfresh
  exact ⟨rfl, fun c => rfl⟩

theorem reset_reloads_rewritten :
    ∃ m s : Machine Buffer,
      load .decimal {} (Buffer.ofLines ["5", "x", "7"]) [901, 300, 901] = .ok m ∧
      s = m.after [.step, .reset, .runLimited 2, .set 2 0, .jump 99, .step, .step, .jump 250] ∧
      s.memory.cells[0]? = some 7 ∧ s.memory.cells[2]? = some 0 ∧
      s.registers = { acc := 7, ip := 100, cir := some 0 } ∧ s.status = .halted ∧
      s.channel = { rejected := #["x"] } ∧
      load .decimal {} s.channel [901, 300, 901] = .ok s.reset ∧
      ∀ fresh, load .decimal {} s.channel [901, 300, 901] = .ok fresh →
        s.after [.reset, .run] = fresh.after [.run] := by
  have hrun : ∃ m : Machine Buffer,
      load .decimal {} (Buffer.ofLines ["5", "x", "7"]) [901, 300, 901] = .ok m ∧
      let s := m.after [.step, .reset, .runLimited 2, .set 2 0, .jump 99, .step, .step, .jump 250]
      s.memory.cells[0]? = some 7 ∧ s.memory.cells[2]? = some 0 ∧
      s.registers = { acc := 7, ip := 100, cir := some 0 } ∧ s.status = .halted ∧
      s.channel = { rejected := #["x"] } :=
    ⟨_, rfl, by decide +kernel⟩
  obtain ⟨m, hload, hzero, htwo, hregisters, hstatus, hchannel⟩ := hrun
  obtain ⟨hreset, hlater⟩ := reset_reloads ((Reached.load hload).after
    [.step, .reset, .runLimited 2, .set 2 0, .jump 99, .step, .step, .jump 250])
  exact ⟨m, _, hload, rfl, hzero, htwo, hregisters, hstatus, hchannel, hreset,
    fun fresh hfresh => (hlater fresh hfresh [.run]).1⟩

end LittleMan.Machine
