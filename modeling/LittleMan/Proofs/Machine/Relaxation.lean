import Mathlib.Tactic.Common
import LittleMan.Proofs.Machine.Invariant
import LittleMan.Proofs.Machine.Runs

/-!
# Settings that lift restrictions

Two settings only ever lift a restriction: one lets addresses wrap instead of refusing those outside
memory, the other allows the instructions of extensions. A run that does not hit such a restriction
is the same with either of them switched on, and one that does is the same up to that step.
-/

namespace LittleMan

/-- The settings with address wrapping, extensions or both switched on as well. -/
def Settings.relax (wrapMemory extensions : Bool) (settings : Settings) : Settings :=
  { settings with
    wrapMemory := settings.wrapMemory || wrapMemory
    extensions := settings.extensions || extensions }

/-- Whether a fault comes from a restriction that a setting lifts. -/
def Fault.isRestriction : Fault → Bool
  | outOfBounds .. => true
  | extensionDisabled _ => true
  | _ => false

namespace Machine

variable {C : Type}

def relax (wrapMemory extensions : Bool) (m : Machine C) : Machine C :=
  { m with settings := m.settings.relax wrapMemory extensions }

def Unrestricted {α : Type} (r : EStateM.Result Fault (Machine C) α) : Prop :=
  ∀ f m', r = .error f m' → f.isRestriction = false

variable {m : Machine C} {wrap ext : Bool}

theorem load_relax {a : Architecture} {settings : Settings} {channel : C} {image : List Word} :
    load a (settings.relax wrap ext) channel image =
      (load a settings channel image).map (relax wrap ext) := by
  unfold load
  cases Memory.ofImage image a.memorySize <;> rfl

/-! ## The parts of a step -/

theorem locate_relax {n : Int} {access : Access}
    (h : ∀ f, m.locate n access = .error f → f.isRestriction = false) :
    (m.relax wrap ext).locate n access = m.locate n access := by
  have hadmits : m.Admits n := by
    by_contra hrefused
    have hf := h _ (locate_eq_error.mpr ⟨hrefused, rfl⟩)
    cases hf
  have hrelaxed : (m.relax wrap ext).Admits n := by
    refine hadmits.imp_left fun hwrap => ?_
    simp [relax, Settings.relax, hwrap]
  rw [locate_eq_ok.mpr ⟨hadmits, rfl⟩, locate_eq_ok.mpr ⟨hrelaxed, rfl⟩]
  rfl

theorem fetch_relax (h : ∀ f, m.fetch = .error f → f.isRestriction = false) :
    (m.relax wrap ext).fetch = m.fetch := by
  have hlocate : (m.relax wrap ext).locate m.registers.ip.toNat .instructionPointer =
      m.locate m.registers.ip.toNat .instructionPointer := by
    apply locate_relax
    intro f hf
    exact h f (fetch_eq_error.mpr (.inl hf))
  unfold fetch
  rw [show (m.relax wrap ext).registers = m.registers from rfl, hlocate]
  rfl

theorem compute_relax {n : UInt32} {g : Word → Word} (h : Unrestricted (compute n g m)) :
    compute n g (m.relax wrap ext) = mapState (relax wrap ext) (compute n g m) := by
  have hlocate : (m.relax wrap ext).locate n.toNat .read = m.locate n.toNat .read := by
    apply locate_relax
    intro f hf
    exact h f m (compute_eq_error.mpr ⟨rfl, get_eq_error.mpr (.inl hf)⟩)
  have hget : (m.relax wrap ext).get n.toNat = m.get n.toNat := by
    unfold get
    rw [hlocate]
    rfl
  unfold compute
  rw [hget]
  cases m.get n.toNat <;> rfl

theorem set_relax {n : Int} {w : Word} (h : Unrestricted (set n w m)) :
    set n w (m.relax wrap ext) = mapState (relax wrap ext) (set n w m) := by
  have hlocate : (m.relax wrap ext).locate n .write = m.locate n .write := by
    apply locate_relax
    intro f hf
    exact h f m (set_eq_error.mpr ⟨rfl, .inl hf⟩)
  have hwrite (k : Nat) : (m.relax wrap ext).memory.write k ((m.relax wrap ext).normalize w) =
      m.memory.write k (m.normalize w) := rfl
  unfold set
  rw [hlocate]
  cases m.locate n .write with
  | error f => rfl
  | ok k =>
    dsimp only
    rw [hwrite]
    cases m.memory.write k (m.normalize w) <;> rfl

theorem branch_relax {n : UInt32} {taken : Bool} (h : Unrestricted (branch n taken m)) :
    branch n taken (m.relax wrap ext) = mapState (relax wrap ext) (branch n taken m) := by
  cases taken with
  | false => rfl
  | true =>
    have hlocate : (m.relax wrap ext).locate n.toNat .jump = m.locate n.toNat .jump := by
      apply locate_relax
      intro f hf
      exact h f m (branch_eq_error.mpr ⟨rfl, rfl, hf⟩)
    simp only [branch, if_true, jump, hlocate]
    cases m.locate n.toNat .jump <;> rfl

theorem exchange_relax {α : Type} (act : EStateM Channel.Error C α) :
    exchange act (m.relax wrap ext) = mapState (relax wrap ext) (exchange act m) := by
  unfold exchange
  rw [show (m.relax wrap ext).channel = m.channel from rfl]
  cases act m.channel <;> rfl

variable [Channel C]

theorem transfer_relax {kind : Transfer} (h : Unrestricted (transfer kind m)) :
    transfer kind (m.relax wrap ext) = mapState (relax wrap ext) (transfer kind m) := by
  cases kind with
  | input =>
    simp only [transfer, exchange_relax,
      show (m.relax wrap ext).inputRange = m.inputRange from rfl]
    cases exchange (Channel.readNumber m.inputRange) m <;> rfl
  | output => exact exchange_relax _
  | outputChar =>
    -- An extension that is switched off would have been a restriction.
    have hextensions : m.settings.extensions = true := by
      by_contra hoff
      have hf := h _ m (outputChar_eq_error.mpr (.inl ⟨by simpa using hoff, rfl, rfl⟩))
      cases hf
    simp only [transfer, expectExtension, Settings.allows, hextensions, exchange_relax,
      show (m.relax wrap ext).settings.extensions = (m.settings.extensions || ext) from rfl,
      show (m.relax wrap ext).registers = m.registers from rfl, Bool.true_or, if_true]
  | unknown n => rfl

theorem execute_relax {i : Instruction} (h : Unrestricted (execute i m)) :
    execute i (m.relax wrap ext) = mapState (relax wrap ext) (execute i m) := by
  cases i with
  | halt n => rfl
  | add n | subtract n | load n => exact compute_relax h
  | store n => exact set_relax h
  | branch n | branchIfZero n | branchIfPositive n => exact branch_relax h
  | transfer kind => exact transfer_relax h
  | unknown o n => rfl

/-! ## Steps and runs -/

theorem cycle_relax (h : Unrestricted (cycle m)) :
    cycle (m.relax wrap ext) = mapState (relax wrap ext) (cycle m) := by
  have hfetch : (m.relax wrap ext).fetch = m.fetch :=
    fetch_relax fun f hf => h f m (cycle_eq_error.mpr (.inl ⟨hf, rfl⟩))
  unfold cycle
  rw [hfetch]
  cases hword : m.fetch with
  | error f => rfl
  | ok p =>
    obtain ⟨k, w⟩ := p
    have hexecute : Unrestricted (execute (Instruction.decode m.architecture w) (m.fetched k w)) :=
      fun f m' he => h f m' (cycle_eq_error.mpr (.inr ⟨k, w, hword, he⟩))
    dsimp only
    rw [show (m.relax wrap ext).architecture = m.architecture from rfl,
      show (m.relax wrap ext).fetched k w = (m.fetched k w).relax wrap ext from rfl,
      execute_relax hexecute]
    cases execute (Instruction.decode m.architecture w) (m.fetched k w) <;> rfl

theorem step_relax (h : Unrestricted (step m)) :
    step (m.relax wrap ext) = mapState (relax wrap ext) (step m) := by
  unfold step at h ⊢
  rw [show (m.relax wrap ext).status = m.status from rfl]
  split_ifs at h ⊢
  · have hcycle : Unrestricted (cycle m) := fun f m' hc => h f _ (by rw [hc])
    rw [cycle_relax hcycle]
    cases cycle m <;> rfl
  · rfl

theorem steps_relax {n : Nat} (h : Unrestricted (steps n m)) :
    steps n (m.relax wrap ext) = mapState (relax wrap ext) (steps n m) :=
  steps_mapState (fun _ => rfl) (fun _ => step_relax) h

theorem runLimited_relax {n : Nat} (h : Unrestricted (runLimited n m)) :
    runLimited n (m.relax wrap ext) = mapState (relax wrap ext) (runLimited n m) :=
  runLimited_mapState (fun _ => rfl) (fun _ => rfl) (fun _ => step_relax) h

/-- Relaxed settings lift restrictions and do nothing else: a run that does not fail at one is the
same, and one that does is the same up to there. -/
theorem relaxed_runs_agree (a : Architecture) (settings : Settings) (channel : C)
    (image : List Word) (wrap ext : Bool) :
    load a (settings.relax wrap ext) channel image =
      (load a settings channel image).map (relax wrap ext) ∧
    ∀ m, load a settings channel image = .ok m → ∀ n,
      ((∀ f m', runLimited n m = .error f m' → f.isRestriction = false) →
        runLimited n (m.relax wrap ext) = mapState (relax wrap ext) (runLimited n m)) ∧
      ∀ f m', runLimited n m = .error f m' → f.isRestriction = true →
        m'.cycles < n ∧
        (∃ s, steps m'.cycles m = .ok () s ∧ step s = .error f m') ∧
        ∀ k ≤ m'.cycles, ∃ s, steps k m = .ok () s ∧ s.cycles = k ∧
          steps k (m.relax wrap ext) = .ok () (s.relax wrap ext) := by
  refine ⟨load_relax, ?_⟩
  intro m hload n
  refine ⟨runLimited_relax, ?_⟩
  intro f m' hfails _
  have hzero := (sound_load hload).cycles
  obtain ⟨k, s, hk, hcycles, hsteps, hstop, hway⟩ := steps_stop (runFor_error hfails)
  obtain rfl : m'.cycles = k := by omega
  refine ⟨by omega, ⟨s, hsteps, hstop⟩, ?_⟩
  intro j hj
  obtain ⟨s', hs', hcount⟩ := hway j hj
  refine ⟨s', hs', by omega, ?_⟩
  rw [steps_relax (by simp [Unrestricted, hs']), hs']
  rfl

theorem relaxed_runs_agree_character :
    ∃ m m' : Machine Buffer,
      load .decimal { extensions := false } (Buffer.ofLines ["65"]) [901, 902, 922] = .ok m ∧
      runLimited 2 (m.relax true true) = mapState (relax true true) (runLimited 2 m) ∧
      runLimited 9 m = .error (.extensionDisabled .outputChar) m' ∧ m'.cycles = 2 ∧
      ∃ s, steps 2 m = .ok () s ∧ steps 2 (m.relax true true) = .ok () (s.relax true true) := by
  have hrun : ∃ m m₂ m' : Machine Buffer,
      load .decimal { extensions := false } (Buffer.ofLines ["65"]) [901, 902, 922] = .ok m ∧
      runLimited 2 m = .ok 2 m₂ ∧
      runLimited 9 m = .error (.extensionDisabled .outputChar) m' ∧ m'.cycles = 2 :=
    ⟨_, _, _, rfl, rfl, rfl, by decide +kernel⟩
  obtain ⟨m, m₂, m', hload, hshort, hlong, hcycles⟩ := hrun
  have hagree := (relaxed_runs_agree .decimal { extensions := false } (Buffer.ofLines ["65"])
    [901, 902, 922] true true).2 m hload
  obtain ⟨-, -, hway⟩ := (hagree 9).2 _ m' hlong rfl
  obtain ⟨s, hs, -, hs'⟩ := hway 2 (by omega)
  exact ⟨m, m', hload, (hagree 2).1 (by simp [hshort]), hlong, hcycles, s, hs, hs'⟩

end Machine

end LittleMan
