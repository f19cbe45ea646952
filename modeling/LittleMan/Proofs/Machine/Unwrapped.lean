import Mathlib.Tactic.Common
import LittleMan.Proofs.Machine.Reached
import LittleMan.Proofs.Machine.Values

/-!
# Wrapping that does not show

Value wrapping has a hand in three things: what is put in the accumulator, what is stored, and which
lines of input are taken. As long as the accumulator of a machine without it stays in range, none of
them comes out differently with it.
-/

namespace LittleMan.Machine

variable {C : Type} {m m' : Machine C} {w : Word}

def wrapping (m : Machine C) : Machine C :=
  { m with settings := { m.settings with wrapValues := true } }

/-- Whether an answer that is no fault leaves the accumulator in range. -/
def LeavesInRange {α : Type} (r : EStateM.Result Fault (Machine C) α) : Prop :=
  ∀ x m', r = .ok x m' → m'.architecture.inRange m'.registers.acc = true

theorem load_wrapping {a : Architecture} {settings : Settings} {channel : C} {image : List Word}
    (h : load a { settings with wrapValues := false } channel image = .ok m) :
    load a { settings with wrapValues := true } channel image = .ok m.wrapping := by
  unfold load at h ⊢
  cases hmemory : Memory.ofImage image a.memorySize with
  | error e => simp [hmemory, Except.map] at h
  | ok memory =>
    rw [hmemory] at h
    cases h
    rfl

/-! ## The parts of a step -/

theorem normalize_of_inRange (h : m.architecture.inRange w = true) : m.normalize w = w := by
  unfold normalize
  split_ifs
  · exact Architecture.wrap_of_inRange h
  · rfl

theorem setAcc_wrapping (hoff : m.settings.wrapValues = false)
    (h : m.architecture.inRange (m.setAcc w).registers.acc = true) :
    m.wrapping.setAcc w = (m.setAcc w).wrapping := by
  have hw : (m.setAcc w).registers.acc = w := by simp [setAcc, normalize, hoff]
  rw [hw] at h
  have hwrap : m.wrapping.normalize w = w := normalize_of_inRange h
  unfold setAcc
  rw [hwrap, normalize_of_inRange h]
  rfl

theorem compute_wrapping {n : UInt32} {g : Word → Word} (hoff : m.settings.wrapValues = false)
    (h : LeavesInRange (compute n g m)) :
    compute n g m.wrapping = mapState wrapping (compute n g m) := by
  unfold compute at h ⊢
  rw [show m.wrapping.get n.toNat = m.get n.toNat from rfl]
  cases hget : m.get n.toNat with
  | error f => rfl
  | ok w =>
    rw [hget] at h
    simp only [mapState, setAcc_wrapping hoff (h () _ rfl)]

theorem set_wrapping {n : Int} (hw : m.architecture.inRange w = true) :
    set n w m.wrapping = mapState wrapping (set n w m) := by
  have hnormal : m.wrapping.normalize w = w := normalize_of_inRange hw
  unfold set
  rw [show m.wrapping.locate n .write = m.locate n .write from rfl,
    show m.wrapping.memory = m.memory from rfl, hnormal, normalize_of_inRange hw]
  cases m.locate n .write with
  | error f => rfl
  | ok k =>
    dsimp only
    cases m.memory.write k w <;> rfl

theorem branch_wrapping {n : UInt32} {taken : Bool} :
    branch n taken m.wrapping = mapState wrapping (branch n taken m) := by
  unfold branch jump
  rw [show m.wrapping.locate n.toNat .jump = m.locate n.toNat .jump from rfl]
  cases m.locate n.toNat .jump <;> cases taken <;> rfl

theorem exchange_wrapping {α : Type} (act : EStateM Channel.Error C α) :
    exchange act m.wrapping = mapState wrapping (exchange act m) := by
  unfold exchange
  rw [show m.wrapping.channel = m.channel from rfl]
  cases act m.channel <;> rfl

/-! ## Machines on a buffer -/

variable {m m' : Machine Buffer}

theorem input_wrapping (hoff : m.settings.wrapValues = false)
    (h : LeavesInRange (transfer .input m)) :
    transfer .input m.wrapping = mapState wrapping (transfer .input m) := by
  have hnone : m.inputRange = none := by simp [inputRange, hoff]
  have hsome : m.wrapping.inputRange = some m.architecture.values := rfl
  have hleaves : ∀ w b, Channel.readNumber none m.channel = .ok w b →
      m.architecture.inRange (setAcc { m with channel := b } w).registers.acc = true := by
    intro w b hb
    exact h () _ (input_eq_ok.mpr ⟨w, b, hnone ▸ hb, rfl⟩)
  have hread : Channel.readNumber (some m.architecture.values) m.channel =
      Channel.readNumber none m.channel := by
    apply Buffer.readFrom_of_contains
    intro w b hb
    simpa [setAcc, normalize, hoff, Architecture.inRange] using hleaves w b hb
  simp only [transfer, exchange, hnone, hsome, show m.wrapping.channel = m.channel from rfl, hread]
  cases hb : Channel.readNumber none m.channel with
  | error e b => rfl
  | ok w b =>
    have hset := setAcc_wrapping (m := { m with channel := b }) hoff (hleaves w b hb)
    exact congrArg (EStateM.Result.ok ()) hset

theorem transfer_wrapping {kind : Transfer} (hoff : m.settings.wrapValues = false)
    (h : LeavesInRange (transfer kind m)) :
    transfer kind m.wrapping = mapState wrapping (transfer kind m) := by
  have hregisters : m.wrapping.registers = m.registers := rfl
  cases kind with
  | input => exact input_wrapping hoff h
  | output => simp only [transfer, exchange_wrapping, hregisters]
  | outputChar =>
    simp only [transfer, exchange_wrapping, hregisters,
      show m.wrapping.expectExtension .outputChar = m.expectExtension .outputChar from rfl]
    cases m.expectExtension .outputChar <;> rfl
  | unknown n => rfl

theorem execute_wrapping {i : Instruction} (hoff : m.settings.wrapValues = false)
    (hacc : m.architecture.inRange m.registers.acc = true) (h : LeavesInRange (execute i m)) :
    execute i m.wrapping = mapState wrapping (execute i m) := by
  cases i with
  | halt n | unknown o n => rfl
  | add n | subtract n | load n => exact compute_wrapping hoff h
  | store n => exact set_wrapping hacc
  | branch n | branchIfZero n | branchIfPositive n => exact branch_wrapping
  | transfer kind => exact transfer_wrapping hoff h

/-! ## Steps and runs -/

theorem cycle_wrapping (hoff : m.settings.wrapValues = false)
    (hacc : m.architecture.inRange m.registers.acc = true) (h : LeavesInRange (cycle m)) :
    cycle m.wrapping = mapState wrapping (cycle m) := by
  unfold cycle
  rw [show m.wrapping.fetch = m.fetch from rfl,
    show m.wrapping.architecture = m.architecture from rfl]
  cases hfetch : m.fetch with
  | error f => rfl
  | ok p =>
    obtain ⟨k, word⟩ := p
    have hexecute :
        LeavesInRange (execute (Instruction.decode m.architecture word) (m.fetched k word)) :=
      fun u m' he => h _ m' (cycle_eq_ok.mpr ⟨k, word, hfetch, rfl, he⟩)
    dsimp only
    rw [show m.wrapping.fetched k word = (m.fetched k word).wrapping from rfl,
      execute_wrapping (m := m.fetched k word) hoff hacc hexecute]
    cases execute (Instruction.decode m.architecture word) (m.fetched k word) <;> rfl

theorem step_wrapping (hoff : m.settings.wrapValues = false)
    (hacc : m.architecture.inRange m.registers.acc = true) (h : LeavesInRange (step m)) :
    step m.wrapping = mapState wrapping (step m) := by
  unfold step at h ⊢
  rw [show m.wrapping.status = m.status from rfl]
  split_ifs at h ⊢
  · have hcycle : LeavesInRange (cycle m) := fun i m' hc => h i m' (by rw [hc])
    rw [cycle_wrapping hoff hacc hcycle]
    cases cycle m <;> rfl
  · rfl

theorem run_keeps {s : Nat → Machine Buffer} {i : Nat → Instruction} {n : Nat}
    (hsteps : ∀ k < n, step (s k) = .ok (i k) (s (k + 1))) :
    ∀ k ≤ n, (s k).architecture = (s 0).architecture ∧ (s k).settings = (s 0).settings := by
  intro k
  induction k with
  | zero => exact fun _ => ⟨rfl, rfl⟩
  | succ k ih =>
    intro hk
    obtain ⟨harchitecture, hsettings⟩ := ih (by omega)
    obtain ⟨ha, hs, -⟩ := step_keeps (hsteps k hk)
    exact ⟨ha.trans harchitecture, hs.trans hsettings⟩

/-- As long as a machine that does not wrap keeps its accumulator in range, a machine that wraps
makes the same steps and is the same after each of them. -/
theorem wrapping_invisible_in_range {a : Architecture} (settings : Settings) {buffer : Buffer}
    {image : List Word} {s : Nat → Machine Buffer} {i : Nat → Instruction} {n : Nat}
    (hload : load a { settings with wrapValues := false } buffer image = .ok (s 0))
    (hsteps : ∀ k < n, step (s k) = .ok (i k) (s (k + 1)))
    (hrange : ∀ k < n, a.inRange (s (k + 1)).registers.acc = true) :
    load a { settings with wrapValues := true } buffer image = .ok (s 0).wrapping ∧
      (∀ k < n, step (s k).wrapping = .ok (i k) (s (k + 1)).wrapping) ∧
      ∀ f m', step (s n) = .error f m' → step (s n).wrapping = .error f m'.wrapping := by
  have hloaded := loadedFrom_load hload
  have hacc : ∀ k ≤ n, (s k).architecture.inRange (s k).registers.acc = true := by
    intro k hk
    rw [(run_keeps hsteps k hk).1, hloaded.architecture]
    cases k with
    | zero => exact (ranged_load (load_wrapping hload) rfl).acc
    | succ k => exact hrange k hk
  have hoff : ∀ k ≤ n, (s k).settings.wrapValues = false := by
    intro k hk
    rw [(run_keeps hsteps k hk).2, hloaded.settings]
  refine ⟨load_wrapping hload, ?_, ?_⟩
  · intro k hk
    rw [step_wrapping (hoff k (by omega)) (hacc k (by omega)) ?_, hsteps k hk]
    · rfl
    · rw [hsteps k hk]
      rintro _ _ ⟨⟩
      exact hacc (k + 1) hk
  · intro f m' hfails
    have hleaves : LeavesInRange (step (s n)) := by simp [LeavesInRange, hfails]
    rw [step_wrapping (hoff n (by omega)) (hacc n (by omega)) hleaves, hfails]
    rfl

theorem wrapping_invisible_in_range_sum :
    ∃ m₀ m₁ m₂ m₃ : Machine Buffer,
      load .decimal { wrapValues := false } (Buffer.ofLines ["x", "7", "y"])
        [901, 105, 901, 0, 0, 990] = .ok m₀ ∧
      step m₀ = .ok (.transfer .input) m₁ ∧ step m₁ = .ok (.add 5) m₂ ∧
      m₂.registers.acc = 997 ∧ step m₂ = .error (.channel .endOfInput) m₃ ∧
      m₃.channel.rejected = #["x", "y"] ∧
      load .decimal {} (Buffer.ofLines ["x", "7", "y"]) [901, 105, 901, 0, 0, 990] =
        .ok m₀.wrapping ∧
      step m₀.wrapping = .ok (.transfer .input) m₁.wrapping ∧
      step m₁.wrapping = .ok (.add 5) m₂.wrapping ∧
      step m₂.wrapping = .error (.channel .endOfInput) m₃.wrapping := by
  have hrun : ∃ m₀ m₁ m₂ m₃ : Machine Buffer,
      load .decimal { wrapValues := false } (Buffer.ofLines ["x", "7", "y"])
        [901, 105, 901, 0, 0, 990] = .ok m₀ ∧
      step m₀ = .ok (.transfer .input) m₁ ∧ step m₁ = .ok (.add 5) m₂ ∧
      step m₂ = .error (.channel .endOfInput) m₃ ∧
      m₁.registers.acc = 7 ∧ m₂.registers.acc = 997 ∧ m₃.channel.rejected = #["x", "y"] :=
    ⟨_, _, _, _, rfl, rfl, rfl, rfl, by decide +kernel⟩
  obtain ⟨m₀, m₁, m₂, m₃, hload, hfirst, hsecond, hthird, h₁, h₂, hrejected⟩ := hrun
  have hrange₁ : Architecture.decimal.inRange m₁.registers.acc = true := by rw [h₁]; decide
  have hrange₂ : Architecture.decimal.inRange m₂.registers.acc = true := by rw [h₂]; decide
  obtain ⟨hwrap, hsame, hfail⟩ := wrapping_invisible_in_range {} (n := 2)
    (s := fun | 0 => m₀ | 1 => m₁ | _ => m₂) (i := fun | 0 => .transfer .input | _ => .add 5)
    hload
    (by rintro (_ | _ | k) hk; exacts [hfirst, hsecond, by omega])
    (by rintro (_ | _ | k) hk; exacts [hrange₁, hrange₂, by omega])
  exact ⟨m₀, m₁, m₂, m₃, hload, hfirst, hsecond, h₂, hthird, hrejected, hwrap,
    hsame 0 (by omega), hsame 1 (by omega), hfail _ _ hthird⟩

end LittleMan.Machine
