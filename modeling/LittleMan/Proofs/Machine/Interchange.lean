import Mathlib.Tactic.Common
import LittleMan.Proofs.Channel.Transcript
import LittleMan.Proofs.Machine.History

/-!
# Consoles and buffers are interchangeable

A machine on a console and a machine on a buffer with the same lines to read answer all calls alike,
and are the same machine but for the channel. What the console shows is the transcript of the
buffer's machine, with its prompts and complaints.
-/

namespace LittleMan.Machine

/-! ## Answers -/

inductive Answer
  | done
  | instruction (i : Instruction)
  | count (n : Nat)
  | word (w : Word)
deriving DecidableEq

def Call.respond {C : Type} [Channel C] (m : Machine C) :
    Call → EStateM.Result Fault (Machine C) Answer
  | step => EStateM.map Answer.instruction Machine.step m
  | run => EStateM.map Answer.count Machine.run m
  | runLimited limit => EStateM.map Answer.count (Machine.runLimited limit) m
  | reset => .ok .done m.reset
  | halt => .ok .done m.halt
  | setAcc w => .ok .done (m.setAcc w)
  | get address =>
    match m.get address with
    | .ok w => .ok (.word w) m
    | .error f => .error f m
  | set address w => EStateM.map (fun _ => .done) (Machine.set address w) m
  | jump address => EStateM.map (fun _ => .done) (Machine.jump address) m

def Call.answer {C : Type} [Channel C] (m : Machine C) (c : Call) : Except Fault Answer :=
  match c.respond m with
  | .ok x _ => .ok x
  | .error f _ => .error f

theorem stateOf_map {ε σ α β : Type} (f : α → β) (act : EStateM ε σ α) (s : σ) :
    stateOf (EStateM.map f act s) = stateOf (act s) := by
  unfold EStateM.map
  cases act s <;> rfl

theorem map_mapState {ε σ τ α β : Type} {g : σ → τ} {f : α → β} {act : EStateM ε σ α}
    {act' : EStateM ε τ α} {s : σ} {t : τ} (h : act' t = mapState g (act s)) :
    EStateM.map f act' t = mapState g (EStateM.map f act s) := by
  unfold EStateM.map
  rw [h]
  cases act s <;> rfl

theorem stateOf_mapState {ε σ τ α : Type} (g : σ → τ) (r : EStateM.Result ε σ α) :
    stateOf (mapState g r) = g (stateOf r) := by
  cases r <;> rfl

theorem outcome_snd {C α : Type} (r : EStateM.Result Fault (Machine C) α) :
    (outcome r).2 = stateOf r := by
  cases r <;> rfl

theorem perform_snd {C : Type} [Channel C] (m : Machine C) (c : Call) :
    (c.perform m).2 = stateOf (c.respond m) := by
  cases c with
  | reset | halt | setAcc w => rfl
  | get address =>
    simp only [Call.perform, Call.respond]
    cases m.get address <;> rfl
  | step | run | runLimited limit | set address w | jump address =>
    simp only [Call.perform, Call.respond, outcome_snd, stateOf_map]

/-! ## Steps -/

/-- The turn of the next step, if that puts a request to the channel. -/
def turn? (m : Machine Buffer) : Option Turn := m.request?.map (Request.turn m.channel)

theorem reply_channel {C : Type} (m : Machine C) (x : Option Word) (c : C) :
    (stateOf (m.reply x c)).channel = c := by
  unfold reply
  cases m.fetch with
  | error f => rfl
  | ok p => cases x <;> rfl

theorem step_channel {C : Type} [Channel C] {m : Machine C} (h : m.request? = none) :
    (stateOf (step m)).channel = m.channel := by
  have hstep : step m = mapState (mapChannel fun _ => m.channel) (step m) :=
    step_mapChannel (fun _ => m.channel) h
  rw [hstep, stateOf_mapState]
  rfl

theorem channel_step {C : Type} [Channel C] (m : Machine C) :
    (stateOf (step m)).channel =
      match m.request? with
      | some r => stateOf (r.put m.channel)
      | none => m.channel := by
  cases hr : m.request? with
  | none => exact step_channel hr
  | some r =>
    rw [step_of_request hr]
    dsimp only
    cases r.put m.channel with
    | ok x c => exact reply_channel m x c
    | error e c => rfl

variable {m : Machine Buffer} {prompt : String}

theorem step_console (shown : String) (h : ∀ line ∈ m.channel.pending, '\n' ∉ line.toList) :
    step (m.mapChannel (Buffer.console prompt shown)) =
      mapState
        (mapChannel (Buffer.console prompt
          (shown ++ String.join (m.turn?.toList.map (Turn.shown prompt)))))
        (step m) := by
  unfold turn?
  cases hr : m.request? with
  | none => simpa using step_mapChannel (Buffer.console prompt shown) hr
  | some r =>
    have hr' : (m.mapChannel (Buffer.console prompt shown)).request? = some r := hr
    have hput : r.put (m.mapChannel (Buffer.console prompt shown)).channel = _ :=
      Console.put_console r prompt shown h
    rw [step_of_request hr, step_of_request hr', hput]
    simp only [Option.map_some, Option.toList_some, List.map_cons, List.map_nil, String.join_cons,
      String.join_nil, String.append_empty]
    cases r.put m.channel with
    | ok x b =>
      exact reply_mapChannel
        (Buffer.console prompt (shown ++ (r.turn m.channel).shown prompt)) m x b
    | error e b => rfl

theorem keeps_step (m : Machine Buffer) :
    m.channel.Keeps m.turn?.toList (stateOf (step m)).channel := by
  rw [channel_step, turn?]
  cases m.request? with
  | none => exact Buffer.keeps_nil _
  | some r => exact Buffer.keeps_put r m.channel

/-! ## Runs -/

def turns (n : Nat) (m : Machine Buffer) : List Turn := (m.stepped n).filterMap turn?

theorem turns_succ_of_ok {m' : Machine Buffer} {i : Instruction} (n : Nat) (h : step m = .ok i m') :
    m.turns (n + 1) = m.turn?.toList ++ m'.turns n := by
  unfold turns
  rw [stepped, if_pos (running_of_step h), h]
  cases hturn : m.turn? <;> simp [hturn]

theorem turns_succ_of_error {m' : Machine Buffer} {f : Fault} (n : Nat) (h : step m = .error f m') :
    m.turns (n + 1) = m.turn?.toList := by
  unfold turns
  rw [stepped]
  split
  · rw [h]
    cases hturn : m.turn? <;> simp [hturn]
  · rename_i hstopped
    simp [turn?, request?, hstopped]

theorem turns_of_stopped (n : Nat) (h : m.status ≠ .running) : m.turns n = [] := by
  cases n with
  | zero => rfl
  | succ n => simp [turns, stepped, h]

theorem turns_one (m : Machine Buffer) : m.turns 1 = m.turn?.toList := by
  cases h : step m with
  | ok i m' => simpa [turns, stepped] using turns_succ_of_ok 0 h
  | error f m' => exact turns_succ_of_error 0 h

theorem keeps_steps (n : Nat) (m : Machine Buffer) :
    m.channel.Keeps (m.turns n) (stateOf (steps n m)).channel := by
  induction n generalizing m with
  | zero => exact Buffer.keeps_nil _
  | succ n ih =>
    rw [steps_succ]
    split
    · have hstep := keeps_step m
      cases hm : step m with
      | ok i m' =>
        rw [hm] at hstep
        rw [turns_succ_of_ok n hm]
        exact hstep.trans (ih m')
      | error f m' =>
        rw [hm] at hstep
        rw [turns_succ_of_error n hm]
        exact hstep
    · rename_i hstopped
      rw [turns_of_stopped (n + 1) hstopped]
      exact Buffer.keeps_nil _

theorem steps_console (n : Nat) (shown : String)
    (h : ∀ line ∈ m.channel.pending, '\n' ∉ line.toList) :
    steps n (m.mapChannel (Buffer.console prompt shown)) =
      mapState
        (mapChannel (Buffer.console prompt
          (shown ++ String.join ((m.turns n).map (Turn.shown prompt)))))
        (steps n m) := by
  induction n generalizing m shown with
  | zero => simp [turns, stepped, steps, mapState]
  | succ n ih =>
    have hstatus : (m.mapChannel (Buffer.console prompt shown)).status = m.status := rfl
    rw [steps_succ, steps_succ, hstatus]
    split
    · have hpending := (keeps_step m).pending
      rw [step_console shown h]
      cases hm : step m with
      | ok i m' =>
        have h' : ∀ line ∈ m'.channel.pending, '\n' ∉ line.toList := by
          rw [hm] at hpending
          exact fun line hline => h line (hpending.mem hline)
        rw [turns_succ_of_ok n hm, List.map_append, String.join_append, ← String.append_assoc]
        exact ih _ h'
      | error f m' =>
        rw [turns_succ_of_error n hm]
        rfl
    · rename_i hstopped
      rw [turns_of_stopped (n + 1) hstopped]
      simp [mapState]

theorem stateOf_runFor {C : Type} [Channel C] (n : Nat) (m : Machine C) :
    stateOf (runFor n m) = stateOf (steps n m) := by
  rw [← outcome_snd, ← outcome_snd, outcome_runFor]

theorem runFor_console (n : Nat) (shown : String)
    (h : ∀ line ∈ m.channel.pending, '\n' ∉ line.toList) :
    runFor n (m.mapChannel (Buffer.console prompt shown)) =
      mapState
        (mapChannel (Buffer.console prompt
          (shown ++ String.join ((m.turns n).map (Turn.shown prompt)))))
        (runFor n m) := by
  rw [runFor_eq, runFor_eq, steps_console n shown h]
  cases steps n m <;> rfl

/-! ## Calls -/

theorem keeps_respond (c : Call) (m : Machine Buffer) :
    m.channel.Keeps (m.turns (c.budget m)) (stateOf (c.respond m)).channel := by
  cases c with
  | step =>
    simp only [Call.respond, Call.budget, stateOf_map, turns_one]
    exact keeps_step m
  | run =>
    simp only [Call.respond, Call.budget, stateOf_map, run, stateOf_runFor]
    exact keeps_steps _ m
  | runLimited limit =>
    simp only [Call.respond, Call.budget, stateOf_map, runLimited, stateOf_runFor]
    exact keeps_steps _ m
  | reset | halt | setAcc w => exact Buffer.keeps_nil _
  | get address =>
    simp only [Call.respond]
    cases m.get address <;> exact Buffer.keeps_nil _
  | set address w =>
    simp only [Call.respond, stateOf_map]
    cases hs : set address w m with
    | ok u m' =>
      obtain ⟨index, -, -, rfl⟩ := set_eq_ok.mp hs
      exact Buffer.keeps_nil _
    | error f m' =>
      obtain ⟨rfl, -⟩ := set_eq_error.mp hs
      exact Buffer.keeps_nil _
  | jump address =>
    simp only [Call.respond, stateOf_map]
    cases hs : jump address m with
    | ok u m' =>
      obtain ⟨index, -, rfl⟩ := jump_eq_ok.mp hs
      exact Buffer.keeps_nil _
    | error f m' =>
      obtain ⟨rfl, -⟩ := jump_eq_error.mp hs
      exact Buffer.keeps_nil _

theorem respond_console (c : Call) (shown : String)
    (h : ∀ line ∈ m.channel.pending, '\n' ∉ line.toList) :
    c.respond (m.mapChannel (Buffer.console prompt shown)) =
      mapState
        (mapChannel (Buffer.console prompt
          (shown ++ String.join ((m.turns (c.budget m)).map (Turn.shown prompt)))))
        (c.respond m) := by
  have hquiet : shown ++ String.join ((m.turns 0).map (Turn.shown prompt)) = shown := by
    simp [turns, stepped]
  cases c with
  | step =>
    simp only [Call.respond, Call.budget, turns_one]
    exact map_mapState (step_console shown h)
  | run => exact map_mapState (runFor_console _ shown h)
  | runLimited limit => exact map_mapState (runFor_console _ shown h)
  | reset | halt | setAcc w =>
    simp only [Call.respond, Call.budget, hquiet]
    rfl
  | get address =>
    have hget : (m.mapChannel (Buffer.console prompt shown)).get address = m.get address := rfl
    simp only [Call.respond, Call.budget, hquiet, hget]
    cases m.get address <;> rfl
  | set address w =>
    simp only [Call.respond, Call.budget, hquiet]
    exact map_mapState (set_mapChannel _ m address w)
  | jump address =>
    simp only [Call.respond, Call.budget, hquiet]
    exact map_mapState (jump_mapChannel _ m address)

theorem answer_console (c : Call) (shown : String)
    (h : ∀ line ∈ m.channel.pending, '\n' ∉ line.toList) :
    c.answer (m.mapChannel (Buffer.console prompt shown)) = c.answer m := by
  unfold Call.answer
  rw [respond_console c shown h]
  cases c.respond m <;> rfl

def transcript (m : Machine Buffer) (calls : List Call) : List Turn :=
  (m.history calls).filterMap turn?

theorem transcript_cons (m : Machine Buffer) (c : Call) (calls : List Call) :
    m.transcript (c :: calls) = m.turns (c.budget m) ++ (c.perform m).2.transcript calls := by
  simp only [transcript, history, List.filterMap_append, turns]

theorem keeps_after (m : Machine Buffer) (calls : List Call) :
    m.channel.Keeps (m.transcript calls) (m.after calls).channel := by
  induction calls generalizing m with
  | nil => exact Buffer.keeps_nil _
  | cons c calls ih =>
    rw [transcript_cons]
    apply Buffer.Keeps.trans _ (ih _)
    rw [perform_snd]
    exact keeps_respond c m

theorem after_console (calls : List Call) (shown : String)
    (h : ∀ line ∈ m.channel.pending, '\n' ∉ line.toList) :
    (m.mapChannel (Buffer.console prompt shown)).after calls =
      (m.after calls).mapChannel (Buffer.console prompt
        (shown ++ String.join ((m.transcript calls).map (Turn.shown prompt)))) := by
  induction calls generalizing m shown with
  | nil => simp [after, transcript, history]
  | cons c calls ih =>
    have h' : ∀ line ∈ (c.perform m).2.channel.pending, '\n' ∉ line.toList := by
      rw [perform_snd]
      exact fun line hline => h line ((keeps_respond c m).pending.mem hline)
    have hperform : (c.perform (m.mapChannel (Buffer.console prompt shown))).2 =
        (c.perform m).2.mapChannel (Buffer.console prompt
          (shown ++ String.join ((m.turns (c.budget m)).map (Turn.shown prompt)))) := by
      rw [perform_snd, perform_snd, respond_console c shown h, stateOf_mapState]
    rw [transcript_cons, List.map_append, String.join_append, ← String.append_assoc]
    simp only [after, List.foldl_cons]
    rw [hperform]
    exact ih _ h'

theorem load_mapChannel {C D : Type} (g : C → D) (a : Architecture) (settings : Settings)
    (channel : C) (image : List Word) :
    load a settings (g channel) image = (load a settings channel image).map (mapChannel g) := by
  unfold load
  cases Memory.ofImage image a.memorySize <;> rfl

theorem load_channel {C : Type} {a : Architecture} {settings : Settings} {channel : C}
    {image : List Word} {m : Machine C} (h : load a settings channel image = .ok m) :
    m.channel = channel := by
  unfold load at h
  cases hmemory : Memory.ofImage image a.memorySize with
  | error e => rw [hmemory] at h; cases h
  | ok memory =>
    rw [hmemory] at h
    cases h
    rfl

/-- A machine on a console answers as one on a buffer with the same lines, and the console has shown
the turns that the buffer's transcript tells. -/
theorem console_mirrors_buffer (a : Architecture) (settings : Settings) (image : List Word)
    (prompt : String) {lines : List String} (hlines : ∀ line ∈ lines, '\n' ∉ line.toList) :
    let console : Console := { unread := Console.bytesOf lines, prompt }
    load a settings console image =
      (load a settings (Buffer.ofLines lines) image).map (mapChannel fun _ => console) ∧
    ∀ (mb : Machine Buffer) (mc : Machine Console),
      load a settings (Buffer.ofLines lines) image = .ok mb →
      load a settings console image = .ok mc → ∀ calls : List Call,
        (∀ c : Call, c.answer (mc.after calls) = c.answer (mb.after calls)) ∧
        mc.after calls = (mb.after calls).mapChannel (fun b =>
          { unread := Console.bytesOf b.pending
            written := (String.join ((mb.transcript calls).map (Turn.shown prompt))).toUTF8
            prompt
            midLine := b.midLine }) ∧
        (mb.after calls).channel.output = String.join ((mb.transcript calls).map Turn.output) ∧
        (mb.after calls).channel.rejected.toList = (mb.transcript calls).flatMap Turn.refused := by
  intro console
  refine ⟨load_mapChannel (fun _ => console) a settings (Buffer.ofLines lines) image, ?_⟩
  intro mb mc hmb hmc calls
  have hchannel : mb.channel = Buffer.ofLines lines := load_channel hmb
  obtain rfl : mc = mb.mapChannel (Buffer.console prompt "") := by
    have hstart : (Buffer.ofLines lines).console prompt "" = console := rfl
    rw [← hstart, load_mapChannel, hmb] at hmc
    exact (Except.ok.inj hmc).symm
  have hpending : ∀ line ∈ mb.channel.pending, '\n' ∉ line.toList := by
    rw [hchannel]
    exact hlines
  have hkeeps := keeps_after mb calls
  rw [after_console calls "" hpending, String.empty_append]
  refine ⟨?_, rfl, ?_, ?_⟩
  · intro c
    exact answer_console c _ fun line hline => hpending line (hkeeps.pending.mem hline)
  · simpa [hchannel, Buffer.ofLines] using hkeeps.output
  · simpa [hchannel, Buffer.ofLines] using hkeeps.rejected

theorem console_mirrors_buffer_complaints :
    ∃ (mb : Machine Buffer) (mc : Machine Console),
      (∀ line ∈ ["x", " 1000", "", "7\r"], '\n' ∉ line.toList) ∧
      load .decimal {} (Buffer.ofLines ["x", " 1000", "", "7\r"]) [901, 902, 901] = .ok mb ∧
      load .decimal {} { unread := Console.bytesOf ["x", " 1000", "", "7\r"] } [901, 902, 901] =
        .ok mc ∧
      Call.step.answer (mc.after [.runLimited 9]) = .error (.channel .endOfInput) ∧
      (mb.after [.runLimited 9]).channel.output = "7\n" ∧
      (mc.after [.runLimited 9]).channel.written =
        (">? Input must be an integer\n>? Input out of range\n>? Input must be an integer\n" ++
          ">? 7\n>? ").toUTF8 := by
  have hrun : ∃ (mb : Machine Buffer) (mc : Machine Console),
      load .decimal {} (Buffer.ofLines ["x", " 1000", "", "7\r"]) [901, 902, 901] = .ok mb ∧
      load .decimal {} { unread := Console.bytesOf ["x", " 1000", "", "7\r"] } [901, 902, 901] =
        .ok mc ∧
      mb.transcript [.runLimited 9] =
        [.asked [("x", .notAnInteger), (" 1000", .outOfRange), ("", .notAnInteger)],
          .printed "7\n", .asked []] ∧
      Call.step.answer (mb.after [.runLimited 9]) = .error (.channel .endOfInput) :=
    ⟨_, _, rfl, rfl, by decide +kernel, by decide +kernel⟩
  obtain ⟨mb, mc, hmb, hmc, htranscript, hanswer⟩ := hrun
  have hlines : ∀ line ∈ ["x", " 1000", "", "7\r"], '\n' ∉ line.toList := by decide +kernel
  obtain ⟨hall, hafter, houtput, -⟩ := (console_mirrors_buffer .decimal {} [901, 902, 901]
    Console.defaultPrompt hlines).2 mb mc hmb hmc [.runLimited 9]
  rw [htranscript] at hafter houtput
  refine ⟨mb, mc, hlines, hmb, hmc, (hall .step).trans hanswer, ?_, ?_⟩
  · rw [houtput]
    decide +kernel
  · rw [hafter]
    exact congrArg String.toUTF8 (by decide +kernel)

end LittleMan.Machine
