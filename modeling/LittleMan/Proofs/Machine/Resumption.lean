import Mathlib.Tactic.Common
import LittleMan.Proofs.Channel.Buffer
import LittleMan.Proofs.Machine.Effect

/-!
# Machines that wait for input

A step that fails is never half done: all that it can leave behind is what the channel did with a
request that it refused. A machine on a buffer can therefore go on where its input ended. Once it
is fed more lines, it does what it would have done had they been there from the start.
-/

namespace LittleMan.Machine

/-! ## Failing steps -/

theorem step_error_frame {C : Type} [Channel C] {m m' : Machine C} {f : Fault}
    (h : step m = .error f m') : m' = { m with channel := m'.channel } := by
  obtain ⟨rfl, -⟩ | ⟨r, e, c, -, -, -, rfl⟩ := step_error h
  · rfl
  · rfl

/-- A step that fails leaves all of the machine but its channel as it was. A buffer only changes if
its input is at an end, and then by the lines that were passed over. -/
theorem step_error_unchanged :
    (∀ (C : Type) [Channel C] (m m' : Machine C) (f : Fault), step m = .error f m' →
      m' = { m with channel := m'.channel }) ∧
    ∀ (m m' : Machine Buffer) (f : Fault), step m = .error f m' →
      m'.channel =
        if f = .channel .endOfInput then
          { m.channel with pending := [], rejected := m.channel.rejected ++ m.channel.pending }
        else m.channel := by
  refine ⟨?_, ?_⟩
  · intro C _ m m' f h
    exact step_error_frame h
  · intro m m' f h
    obtain ⟨rfl, hf⟩ | ⟨r, e, c, -, hput, rfl, rfl⟩ := step_error h
    · rw [if_neg (hf .endOfInput)]
    · obtain ⟨rfl, hc⟩ | ⟨⟨code, rfl⟩, hc⟩ := Buffer.put_error hput
      · rw [if_pos rfl]
        exact hc
      · rw [if_neg nofun]
        exact hc

theorem step_error_unchanged_input :
    ∃ m m' : Machine Buffer,
      load .decimal {} (Buffer.ofLines ["x", "1000"]) [901] = .ok m ∧
      step m = .error (.channel .endOfInput) m' ∧
      m' = { m with channel := m'.channel } ∧
      m'.channel = { pending := [], rejected := #["x", "1000"] } := by
  have hstep : ∃ m m' : Machine Buffer,
      load .decimal {} (Buffer.ofLines ["x", "1000"]) [901] = .ok m ∧
        step m = .error (.channel .endOfInput) m' := ⟨_, _, rfl, rfl⟩
  obtain ⟨m, m', hload, hstep⟩ := hstep
  refine ⟨m, m', hload, hstep, step_error_unchanged.1 Buffer m m' _ hstep, ?_⟩
  have hchannel := step_error_unchanged.2 m m' _ hstep
  cases hload
  exact hchannel

/-! ## Steps in a row -/

section Steps

variable {C : Type} [Channel C]

theorem steps_succ (n : Nat) (m : Machine C) :
    steps (n + 1) m =
      if m.status = .running then
        match step m with
        | .ok _ m' => steps n m'
        | .error f m' => .error f m'
      else .ok () m := rfl

theorem steps_succ_of_ok {m m' : Machine C} {i : Instruction} (n : Nat) (h : step m = .ok i m') :
    steps (n + 1) m = steps n m' := by
  rw [steps_succ, if_pos (running_of_step h), h]

theorem steps_succ_congr {m m' : Machine C} (n : Nat) (hm : m.status = .running)
    (hm' : m'.status = .running) (h : step m = step m') : steps (n + 1) m = steps (n + 1) m' := by
  rw [steps_succ, steps_succ, if_pos hm, if_pos hm', h]

theorem steps_cycles {m m' : Machine C} {n : Nat} (h : steps n m = .ok () m') :
    m.cycles ≤ m'.cycles := by
  induction n generalizing m with
  | zero =>
    cases h
    exact Nat.le_refl _
  | succ n ih =>
    rw [steps_succ] at h
    split at h
    · split at h
      · rename_i hstep
        have hle := ih h
        rw [step_cycles hstep] at hle
        omega
      · cases h
    · cases h
      exact Nat.le_refl _

end Steps

/-! ## More input -/

def feed (lines : List String) (m : Machine Buffer) : Machine Buffer :=
  { m with channel := m.channel.feed lines }

theorem step_feed {m : Machine Buffer} (lines : List String)
    (h : ∀ m', step m ≠ .error (.channel .endOfInput) m') :
    step (m.feed lines) = mapState (feed lines) (step m) := by
  cases hr : m.request? with
  | none => exact step_mapChannel (Buffer.feed lines) hr
  | some r =>
    have hfed : (m.feed lines).request? = some r :=
      (request?_mapChannel (Buffer.feed lines) m).trans hr
    rw [step_of_request hr] at h ⊢
    have hput : ∀ b, r.put m.channel ≠ .error .endOfInput b := by
      intro b hb
      rw [hb] at h
      exact h _ rfl
    have hfeed : r.put (m.feed lines).channel =
        mapState (Buffer.feed lines) (r.put m.channel) := Buffer.put_feed lines hput
    rw [step_of_request hfed, hfeed]
    cases r.put m.channel with
    | ok x b => exact reply_mapChannel (Buffer.feed lines) m x b
    | error e b => rfl

theorem step_feed_of_ok {m m' : Machine Buffer} {i : Instruction} (lines : List String)
    (h : step m = .ok i m') : step (m.feed lines) = .ok i (m'.feed lines) := by
  have hne : ∀ m'', step m ≠ .error (.channel .endOfInput) m'' := by
    intro m'' h''
    rw [h] at h''
    cases h''
  rw [step_feed lines hne, h]
  rfl

/-- A step that was refused for lack of input is not lost: it comes to the same once there is more,
as if that had been there at once. -/
theorem step_feed_of_endOfInput {m m' : Machine Buffer} (lines : List String)
    (h : step m = .error (.channel .endOfInput) m') :
    step (m.feed lines) = step (m'.feed lines) := by
  obtain ⟨-, hf⟩ | ⟨r, e, b, hr, hput, he, rfl⟩ := step_error h
  · exact absurd rfl (hf .endOfInput)
  · cases he
    have hbefore : (m.feed lines).request? = some r :=
      (request?_mapChannel (Buffer.feed lines) m).trans hr
    have hafter : (feed lines { m with channel := b }).request? = some r := hr
    have hfeed :
        r.put (m.feed lines).channel = r.put (feed lines { m with channel := b }).channel :=
      Buffer.put_feed_of_endOfInput lines hput
    rw [step_of_request hbefore, step_of_request hafter, hfeed]
    rfl

/-! ## Runs -/

theorem steps_feed {m : Machine Buffer} {n : Nat} (lines : List String)
    (h : ∀ m', steps n m ≠ .error (.channel .endOfInput) m') :
    steps n (m.feed lines) = mapState (feed lines) (steps n m) := by
  induction n generalizing m with
  | zero => rfl
  | succ n ih =>
    have hstatus : (m.feed lines).status = m.status := rfl
    rw [steps_succ] at h
    rw [steps_succ, steps_succ, hstatus]
    split
    · rename_i hrunning
      rw [if_pos hrunning] at h
      have hstep : ∀ m', step m ≠ .error (.channel .endOfInput) m' := by
        intro m' hm'
        rw [hm'] at h
        exact h m' rfl
      rw [step_feed lines hstep]
      cases hm : step m with
      | ok i m' =>
        rw [hm] at h
        exact ih h
      | error f m' => rfl
    · rfl

/-- Where a run stops for lack of input: after some number of steps, and before one that is refused
for it. With more input the run goes on from there. -/
theorem steps_feed_of_endOfInput {m m' : Machine Buffer} {n : Nat}
    (h : steps n m = .error (.channel .endOfInput) m') :
    ∃ c s, c ≤ n ∧ steps c m = .ok () s ∧ step s = .error (.channel .endOfInput) m' ∧
      m'.cycles = m.cycles + c ∧
      ∀ lines, steps n (m.feed lines) = steps (n - c) (m'.feed lines) := by
  induction n generalizing m with
  | zero => cases h
  | succ n ih =>
    rw [steps_succ] at h
    split at h
    · rename_i hrunning
      cases hm : step m with
      | ok i m₁ =>
        rw [hm] at h
        obtain ⟨c, s, hc, hsteps, hstop, hcycles, hfeed⟩ := ih h
        refine ⟨c + 1, s, by omega, ?_, hstop, ?_, ?_⟩
        · rw [steps_succ_of_ok c hm, hsteps]
        · rw [hcycles, step_cycles hm]
          omega
        · intro lines
          rw [steps_succ_of_ok n (step_feed_of_ok lines hm), hfeed lines, Nat.add_sub_add_right]
      | error f m₁ =>
        -- The run stops here, and the refused step is the one that is made again.
        rw [hm] at h
        cases h
        have hframe := step_error_frame hm
        have hstatus : m'.status = .running := by rw [hframe]; exact hrunning
        refine ⟨0, m, by omega, rfl, hm, ?_, ?_⟩
        · rw [hframe]
          rfl
        · intro lines
          exact steps_succ_congr n hrunning hstatus (step_feed_of_endOfInput lines hm)
    · cases h

theorem runFor_eq {C : Type} [Channel C] (n : Nat) (m : Machine C) :
    runFor n m =
      match steps n m with
      | .ok () m' => .ok (m'.cycles - m.cycles) m'
      | .error f m' => .error f m' := rfl

theorem runFor_error {C : Type} [Channel C] {n : Nat} {m m' : Machine C} {f : Fault}
    (h : runFor n m = .error f m') : steps n m = .error f m' := by
  rw [runFor_eq] at h
  split at h
  · cases h
  · rename_i hsteps
    cases h
    exact hsteps

theorem runLimited_feed {m : Machine Buffer} {n : Nat} (lines : List String)
    (h : ∀ m', runLimited n m ≠ .error (.channel .endOfInput) m') :
    runLimited n (m.feed lines) = mapState (feed lines) (runLimited n m) := by
  unfold runLimited at h ⊢
  have hsteps : ∀ m', steps (min n (maxCycles - m.cycles)) m ≠
      .error (.channel .endOfInput) m' := by
    intro m' hm'
    rw [runFor_eq, hm'] at h
    exact h m' rfl
  have hcycles : (m.feed lines).cycles = m.cycles := rfl
  rw [hcycles, runFor_eq, runFor_eq, steps_feed lines hsteps, hcycles]
  cases steps (min n (maxCycles - m.cycles)) m with
  | ok u m' => rfl
  | error f m' => rfl

theorem runLimited_feed_of_endOfInput {m m' : Machine Buffer} {n : Nat}
    (h : runLimited n m = .error (.channel .endOfInput) m') :
    ∃ c s, c ≤ n ∧ steps c m = .ok () s ∧ step s = .error (.channel .endOfInput) m' ∧
      m'.cycles = m.cycles + c ∧
      ∀ lines, runLimited n (m.feed lines) =
        EStateM.map (c + ·) (runLimited (n - c)) (m'.feed lines) := by
  obtain ⟨c, s, hc, hsteps, hstop, hcycles, hfeed⟩ := steps_feed_of_endOfInput (runFor_error h)
  refine ⟨c, s, by omega, hsteps, hstop, hcycles, ?_⟩
  intro lines
  have hbefore : (m.feed lines).cycles = m.cycles := rfl
  have hafter : (m'.feed lines).cycles = m.cycles + c := hcycles
  -- The steps made so far count against both the limit and the room in the counter.
  have hbudget : min (n - c) (maxCycles - (m.cycles + c)) = min n (maxCycles - m.cycles) - c := by
    omega
  simp only [runLimited, EStateM.map, hbefore, hafter, hbudget, runFor_eq, hfeed]
  cases hrest : steps (min n (maxCycles - m.cycles) - c) (m'.feed lines) with
  | ok u m'' =>
    have hle : (m'.feed lines).cycles ≤ m''.cycles := steps_cycles hrest
    have hcount : m''.cycles - m.cycles = c + (m''.cycles - (m.cycles + c)) := by omega
    simp only [hcount]
  | error f m'' => rfl

theorem load_feed {a : Architecture} {settings : Settings} {image : List Word}
    {xs ys : List String} {m₁ m₂ : Machine Buffer}
    (h₁ : load a settings (Buffer.ofLines (xs ++ ys)) image = .ok m₁)
    (h₂ : load a settings (Buffer.ofLines xs) image = .ok m₂) :
    m₁ = m₂.feed ys ∧ m₂.cycles = 0 := by
  unfold load at h₁ h₂
  cases hmemory : Memory.ofImage image a.memorySize with
  | error e => rw [hmemory] at h₁; cases h₁
  | ok memory =>
    rw [hmemory] at h₁ h₂
    cases h₁
    cases h₂
    refine ⟨?_, rfl⟩
    simp only [feed, Buffer.feed_eq, Buffer.ofLines]

/-- A run that stops for lack of input loses nothing: fed with more lines, the machine ends as one
that had all of them from the start. -/
theorem runLimited_resume {a : Architecture} {settings : Settings} {image : List Word}
    {xs ys : List String} {m₁ m₂ : Machine Buffer} (n : Nat)
    (h₁ : load a settings (Buffer.ofLines (xs ++ ys)) image = .ok m₁)
    (h₂ : load a settings (Buffer.ofLines xs) image = .ok m₂) :
    (∀ m, runLimited n m₂ = .error (.channel .endOfInput) m →
      (∃ s, steps m.cycles m₂ = .ok () s ∧ s.cycles = m.cycles ∧
        step s = .error (.channel .endOfInput) m) ∧
      m.cycles ≤ n ∧
      runLimited n m₁ = EStateM.map (m.cycles + ·) (runLimited (n - m.cycles)) (m.feed ys)) ∧
    ((∀ m, runLimited n m₂ ≠ .error (.channel .endOfInput) m) →
      runLimited n m₁ = mapState (feed ys) (runLimited n m₂)) := by
  obtain ⟨rfl, hzero⟩ := load_feed h₁ h₂
  refine ⟨?_, runLimited_feed ys⟩
  intro m h
  obtain ⟨c, s, hc, hsteps, hstop, hcycles, hfeed⟩ := runLimited_feed_of_endOfInput h
  have hcount : m.cycles = c := by omega
  have hs : s.cycles = m.cycles := by rw [step_error_frame hstop]
  rw [hcount] at hs ⊢
  exact ⟨⟨s, hsteps, hs, hstop⟩, hc, hfeed ys⟩

theorem runLimited_resume_sum :
    ∃ m₁ m₂ m : Machine Buffer,
      load .decimal {} (Buffer.ofLines (["2"] ++ ["x", "3"])) [901, 306, 901, 106, 902] = .ok m₁ ∧
      load .decimal {} (Buffer.ofLines ["2"]) [901, 306, 901, 106, 902] = .ok m₂ ∧
      runLimited 9 m₂ = .error (.channel .endOfInput) m ∧
      runLimited 9 m₁ = EStateM.map (2 + ·) (runLimited 7) (m.feed ["x", "3"]) := by
  have hrun : ∃ m₁ m₂ m : Machine Buffer,
      load .decimal {} (Buffer.ofLines (["2"] ++ ["x", "3"])) [901, 306, 901, 106, 902] = .ok m₁ ∧
      load .decimal {} (Buffer.ofLines ["2"]) [901, 306, 901, 106, 902] = .ok m₂ ∧
      runLimited 9 m₂ = .error (.channel .endOfInput) m ∧ m.cycles = 2 :=
    ⟨_, _, _, rfl, rfl, rfl, by decide +kernel⟩
  obtain ⟨m₁, m₂, m, h₁, h₂, hstop, hcycles⟩ := hrun
  refine ⟨m₁, m₂, m, h₁, h₂, hstop, ?_⟩
  obtain ⟨-, -, hresume⟩ := (runLimited_resume 9 h₁ h₂).1 m hstop
  rw [hresume, hcycles]

end LittleMan.Machine
