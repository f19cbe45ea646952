import Mathlib.Tactic.Common
import LittleMan.Proofs.Machine.Exact

/-!
# What a step asks of the channel

A step puts at most one request to the channel of its machine. Which one it is depends on the
machine without its channel, and so does all that the step does with the answer. A step without a
request does not look at the channel at all.
-/

namespace LittleMan

inductive Request
  | readNumber (range : Option Range)
  | writeNumber (w : Word)
  | writeChar (code : Word)
deriving DecidableEq

/-- Put a request to a channel. The answer is the number, if there was one to read. -/
def Request.put {C : Type} [Channel C] : Request → EStateM Channel.Error C (Option Word)
  | readNumber range => EStateM.map some (Channel.readNumber range)
  | writeNumber w => EStateM.map (fun _ => none) (Channel.writeNumber w)
  | writeChar code => EStateM.map (fun _ => none) (Channel.writeChar code)

namespace Machine

variable {C D : Type}

/-! ## Machines with another channel -/

def mapChannel (g : C → D) (m : Machine C) : Machine D where
  architecture := m.architecture
  settings := m.settings
  registers := m.registers
  memory := m.memory
  initial := m.initial
  status := m.status
  cycles := m.cycles
  last := m.last
  channel := g m.channel

/-- What a run answers, with `g` applied to the state it ends in. -/
def mapState {ε σ τ α : Type} (g : σ → τ) : EStateM.Result ε σ α → EStateM.Result ε τ α
  | .ok x s => .ok x (g s)
  | .error e s => .error e (g s)

/-! ## Requests -/

def requestOf (m : Machine C) : Instruction → Option Request
  | .transfer .input => some (.readNumber m.inputRange)
  | .transfer .output => some (.writeNumber m.registers.acc)
  | .transfer .outputChar =>
    if m.settings.allows .outputChar then some (.writeChar m.registers.acc) else none
  | _ => none

def request? (m : Machine C) : Option Request :=
  if m.status = .running then
    match m.fetch with
    | .ok (_, w) => m.requestOf (Instruction.decode m.architecture w)
    | .error _ => none
  else none

/-- The machine with the number that its channel answered with, if there is one. -/
def receive (m : Machine C) : Option Word → Machine C
  | some w => m.setAcc w
  | none => m

/-- What a step comes to when its request is answered with `x` and leaves the channel `c`. -/
def reply (m : Machine C) (x : Option Word) (c : C) :
    EStateM.Result Fault (Machine C) Instruction :=
  match m.fetch with
  | .ok (index, w) =>
    .ok (Instruction.decode m.architecture w)
      (receive { m.fetched index w with channel := c } x)
  | .error f => .error f { m with channel := c }

theorem request?_mapChannel (g : C → D) (m : Machine C) :
    (m.mapChannel g).request? = m.request? := rfl

theorem request?_eq_some {m : Machine C} {r : Request} :
    m.request? = some r ↔ m.status = .running ∧ ∃ k w, m.fetch = .ok (k, w) ∧
      m.requestOf (Instruction.decode m.architecture w) = some r := by
  unfold request?
  rcases m.fetch with f | ⟨k, w⟩ <;> simp

theorem extensions_of_requestOf {m : Machine C} (h : m.requestOf (.transfer .outputChar) = none) :
    m.settings.extensions = false := by
  by_contra hon
  have hallowed : m.settings.allows .outputChar = true := eq_true_of_ne_false hon
  rw [requestOf, if_pos hallowed] at h
  cases h

theorem reply_of_request {m : Machine C} {r : Request} (h : m.request? = some r) :
    ∃ k w, m.fetch = .ok (k, w) ∧ ∀ x c, m.reply x c =
      .ok (Instruction.decode m.architecture w) (receive { m.fetched k w with channel := c } x) := by
  obtain ⟨-, k, w, hfetch, -⟩ := request?_eq_some.mp h
  exact ⟨k, w, hfetch, fun x c => by rw [reply, hfetch]⟩

theorem reply_mapChannel (g : C → D) (m : Machine C) (x : Option Word) (c : C) :
    (m.mapChannel g).reply x (g c) = mapState (mapChannel g) (m.reply x c) := by
  have hfetch : (m.mapChannel g).fetch = m.fetch := rfl
  unfold reply
  rw [hfetch]
  cases m.fetch with
  | error f => rfl
  | ok p => cases x <;> rfl

/-! ## The parts of an instruction -/

theorem compute_mapChannel (g : C → D) (m : Machine C) (n : UInt32) (f : Word → Word) :
    compute n f (m.mapChannel g) = mapState (mapChannel g) (compute n f m) := by
  have hget : (m.mapChannel g).get n.toNat = m.get n.toNat := rfl
  unfold compute
  rw [hget]
  cases m.get n.toNat <;> rfl

theorem set_mapChannel (g : C → D) (m : Machine C) (n : Int) (w : Word) :
    set n w (m.mapChannel g) = mapState (mapChannel g) (set n w m) := by
  have hlocate : (m.mapChannel g).locate n .write = m.locate n .write := rfl
  have hwrite (k : Nat) : (m.mapChannel g).memory.write k ((m.mapChannel g).normalize w) =
      m.memory.write k (m.normalize w) := rfl
  unfold set
  rw [hlocate]
  cases m.locate n .write with
  | error f => rfl
  | ok k =>
    dsimp only
    rw [hwrite]
    cases m.memory.write k (m.normalize w) <;> rfl

theorem jump_mapChannel (g : C → D) (m : Machine C) (n : Int) :
    jump n (m.mapChannel g) = mapState (mapChannel g) (jump n m) := by
  have hlocate : (m.mapChannel g).locate n .jump = m.locate n .jump := rfl
  unfold jump
  rw [hlocate]
  cases m.locate n .jump <;> rfl

theorem branch_mapChannel (g : C → D) (m : Machine C) (n : UInt32) (taken : Bool) :
    branch n taken (m.mapChannel g) = mapState (mapChannel g) (branch n taken m) := by
  cases taken with
  | false => rfl
  | true => exact jump_mapChannel g m n.toNat

theorem get_ne_channel {m : Machine C} {address : Int} {f : Fault} (h : m.get address = .error f)
    (e : Channel.Error) : f ≠ .channel e := by
  rw [get_eq_error] at h
  simp only [locate_eq_error, cell_eq_error] at h
  obtain ⟨-, rfl⟩ | ⟨k, -, -, rfl⟩ := h <;> simp

theorem fetch_ne_channel {m : Machine C} {f : Fault} (h : m.fetch = .error f)
    (e : Channel.Error) : f ≠ .channel e := by
  rw [fetch_eq_error] at h
  simp only [locate_eq_error, cell_eq_error] at h
  obtain ⟨-, rfl⟩ | ⟨k, -, -, rfl⟩ := h <;> simp

theorem set_ne_channel {m m' : Machine C} {address : Int} {w : Word} {f : Fault}
    (h : set address w m = .error f m') (e : Channel.Error) : f ≠ .channel e := by
  simp only [set_eq_error, locate_eq_error] at h
  obtain ⟨-, ⟨-, rfl⟩ | ⟨k, -, -, rfl⟩⟩ := h <;> simp

/-! ## Executing -/

variable [Channel C] [Channel D]

theorem execute_of_request {m : Machine C} {i : Instruction} {r : Request}
    (h : m.requestOf i = some r) :
    execute i m =
      match r.put m.channel with
      | .ok x c => .ok () (receive { m with channel := c } x)
      | .error e c => .error (.channel e) { m with channel := c } := by
  unfold requestOf at h
  split at h
  · obtain rfl := Option.some.inj h
    simp only [execute, transfer, exchange, Request.put, EStateM.map]
    cases Channel.readNumber m.inputRange m.channel <;> rfl
  · obtain rfl := Option.some.inj h
    simp only [execute, transfer, exchange, Request.put, EStateM.map]
    cases Channel.writeNumber m.registers.acc m.channel <;> rfl
  · split at h
    · rename_i hallowed
      obtain rfl := Option.some.inj h
      simp only [execute, transfer, expectExtension, hallowed, exchange, Request.put, EStateM.map]
      cases Channel.writeChar m.registers.acc m.channel <;> rfl
    · cases h
  · cases h

theorem execute_mapChannel (g : C → D) {m : Machine C} {i : Instruction}
    (h : m.requestOf i = none) :
    execute i (m.mapChannel g) = mapState (mapChannel g) (execute i m) := by
  cases i with
  | halt n => rfl
  | add n | subtract n | load n => exact compute_mapChannel g m n _
  | store n => exact set_mapChannel g m n.toNat _
  | branch n | branchIfZero n | branchIfPositive n => exact branch_mapChannel g m n _
  | transfer kind =>
    cases kind with
    | input | output => cases h
    | outputChar =>
      have hoff := extensions_of_requestOf h
      have hfails : transfer .outputChar m = .error (.extensionDisabled .outputChar) m :=
        outputChar_eq_error.mpr (.inl ⟨hoff, rfl, rfl⟩)
      have hfails' : transfer .outputChar (m.mapChannel g) =
          .error (.extensionDisabled .outputChar) (m.mapChannel g) :=
        outputChar_eq_error.mpr (.inl ⟨hoff, rfl, rfl⟩)
      simp only [execute, hfails, hfails']
      rfl
    | unknown n => rfl
  | unknown o n => rfl

theorem execute_error {m m' : Machine C} {i : Instruction} {fault : Fault}
    (h : m.requestOf i = none) (he : execute i m = .error fault m') :
    m' = m ∧ ∀ e, fault ≠ .channel e := by
  cases i with
  | halt n => cases he
  | add n | subtract n | load n =>
    obtain ⟨rfl, hget⟩ := compute_eq_error.mp he
    exact ⟨rfl, get_ne_channel hget⟩
  | store n => exact ⟨(set_eq_error.mp he).1, set_ne_channel he⟩
  | branch n | branchIfZero n | branchIfPositive n =>
    obtain ⟨-, rfl, hlocate⟩ := branch_eq_error.mp he
    obtain ⟨-, rfl⟩ := locate_eq_error.mp hlocate
    exact ⟨rfl, nofun⟩
  | transfer kind =>
    cases kind with
    | input | output => cases h
    | outputChar =>
      have hoff := extensions_of_requestOf h
      obtain ⟨-, rfl, rfl⟩ | ⟨hon, -⟩ := outputChar_eq_error.mp he
      · exact ⟨rfl, nofun⟩
      · simp [hoff] at hon
    | unknown n =>
      cases he
      exact ⟨rfl, nofun⟩
  | unknown o n =>
    cases he
    exact ⟨rfl, nofun⟩

/-! ## Steps -/

theorem step_of_request {m : Machine C} {r : Request} (h : m.request? = some r) :
    step m =
      match r.put m.channel with
      | .ok x c => m.reply x c
      | .error e c => .error (.channel e) { m with channel := c } := by
  obtain ⟨hrunning, k, w, hfetch, hr⟩ := request?_eq_some.mp h
  have hexecute := execute_of_request (m := m.fetched k w) hr
  rw [show (m.fetched k w).channel = m.channel from rfl] at hexecute
  cases hput : r.put m.channel with
  | ok x c =>
    rw [hput] at hexecute
    simp only [reply, hfetch]
    exact step_eq_ok.mpr ⟨hrunning, k, w, hfetch, rfl, hexecute⟩
  | error e c =>
    rw [hput] at hexecute
    exact step_eq_error.mpr (.inr ⟨hrunning, .inr ⟨k, w, _, hfetch, hexecute, rfl⟩⟩)

theorem cycle_mapChannel (g : C → D) {m : Machine C} (hrunning : m.status = .running)
    (h : m.request? = none) : cycle (m.mapChannel g) = mapState (mapChannel g) (cycle m) := by
  have hfetch' : (m.mapChannel g).fetch = m.fetch := rfl
  unfold request? at h
  rw [if_pos hrunning] at h
  unfold cycle
  rw [hfetch']
  cases hfetch : m.fetch with
  | error f => rfl
  | ok p =>
    obtain ⟨k, w⟩ := p
    rw [hfetch] at h
    have hexecute := execute_mapChannel (m := m.fetched k w) g h
    dsimp only
    rw [show (m.mapChannel g).architecture = m.architecture from rfl,
      show (m.mapChannel g).fetched k w = (m.fetched k w).mapChannel g from rfl, hexecute]
    cases execute (Instruction.decode m.architecture w) (m.fetched k w) <;> rfl

theorem step_mapChannel (g : C → D) {m : Machine C} (h : m.request? = none) :
    step (m.mapChannel g) = mapState (mapChannel g) (step m) := by
  have hstatus : (m.mapChannel g).status = m.status := rfl
  unfold step
  rw [hstatus]
  split
  · rename_i hrunning
    rw [cycle_mapChannel g hrunning h]
    cases cycle m <;> rfl
  · rfl

/-- What a failing step leaves behind: the machine as it was, but for what the channel made of a
request that it refused. -/
theorem step_error {m m' : Machine C} {fault : Fault} (h : step m = .error fault m') :
    (m' = m ∧ ∀ e, fault ≠ .channel e) ∨
      ∃ r e c, m.request? = some r ∧ r.put m.channel = .error e c ∧ fault = .channel e ∧
        m' = { m with channel := c } := by
  cases hr : m.request? with
  | some r =>
    right
    obtain ⟨k, w, -, hreply⟩ := reply_of_request hr
    rw [step_of_request hr] at h
    cases hput : r.put m.channel with
    | ok x c =>
      rw [hput] at h
      simp only [hreply] at h
      cases h
    | error e c =>
      rw [hput] at h
      cases h
      exact ⟨r, e, c, rfl, hput, rfl, rfl⟩
  | none =>
    left
    obtain ⟨-, rfl, rfl⟩ | ⟨hrunning, ⟨hfetch, rfl⟩ | ⟨k, w, m₁, hfetch, hexecute, rfl⟩⟩ :=
      step_eq_error.mp h
    · exact ⟨rfl, nofun⟩
    · exact ⟨rfl, fetch_ne_channel hfetch⟩
    · have hnone : m.requestOf (Instruction.decode m.architecture w) = none := by
        simpa [request?, hrunning, hfetch] using hr
      obtain ⟨rfl, hf⟩ := execute_error (m := m.fetched k w) hnone hexecute
      exact ⟨rfl, hf⟩

end Machine

end LittleMan
