import Mathlib.Tactic.Common
import LittleMan.Proofs.Assembly.Meaning
import LittleMan.Proofs.Encoding
import LittleMan.Proofs.Machine.Reached

/-!
# When a step fails

The next step of a machine on a buffer fails for one of ten reasons. Each is a condition on the
status, the settings, the word that is fetched, the accumulator or the lines of the buffer, and all
of them are told before anything is executed.
-/

namespace LittleMan.Machine

/-! ## Reasons -/

/-- Whether the next step gets as far as to look at a word with this opcode and operand. Behind the
last cell that is the word of the first one, if addresses wrap. -/
def Fetches {C : Type} (s : Machine C) (opcode : Int64) (operand : UInt32) : Prop :=
  s.status = .running ∧
    (s.registers.ip.toNat = s.architecture.memorySize → s.settings.wrapMemory = true) ∧
    ∃ w, s.memory.cells[if s.registers.ip.toNat = s.architecture.memorySize then 0
        else s.registers.ip.toNat]? = some w ∧
      s.architecture.opcode w = opcode ∧ s.architecture.operand w = operand

def Outside {C : Type} (s : Machine C) (address : UInt32) : Prop :=
  s.settings.wrapMemory = false ∧ s.architecture.memorySize ≤ address.toNat

/-- Whether the machine takes a line of input: it is a number, and one in range if values wrap. -/
def Takes {C : Type} (s : Machine C) (line : String) : Prop :=
  ∃ w, Word.read? (Text.trim line.toList) = some w ∧
    (s.settings.wrapValues = true → s.architecture.inRange w = true)

instance {C : Type} (s : Machine C) (line : String) : Decidable (s.Takes line) :=
  match h : Word.read? (Text.trim line.toList) with
  | none => .isFalse (by simp [Takes, h])
  | some w =>
    decidable_of_iff (s.settings.wrapValues = true → s.architecture.inRange w = true)
      (by simp [Takes, h])

/-- The faults that the next step fails with, and when. -/
inductive Refuses (s : Machine Buffer) : Fault → Prop
  | halted (h : s.status = .halted) : Refuses s (.notRunning .halted)
  | behindLast (h : s.status = .running)
      (hip : s.registers.ip.toNat = s.architecture.memorySize)
      (hwrap : s.settings.wrapMemory = false) :
      Refuses s (.outOfBounds .instructionPointer s.architecture.memorySize
        s.architecture.memorySize)
  | opcode {o : Int64} {n : UInt32} (h : s.Fetches o n) (ho : o ∉ [0, 1, 2, 3, 5, 6, 7, 8, 9]) :
      Refuses s (.unknownOpcode o n)
  | operand {n : UInt32} (h : s.Fetches 9 n) (hn : n ∉ [1, 2, 22]) :
      Refuses s (.unknownOperand 9 n)
  | extension (h : s.Fetches 9 22) (hextensions : s.settings.extensions = false) :
      Refuses s (.extensionDisabled .outputChar)
  | read {o : Int64} {n : UInt32} (h : s.Fetches o n) (ho : o ∈ [1, 2, 5]) (hn : s.Outside n) :
      Refuses s (.outOfBounds .read n.toNat s.architecture.memorySize)
  | write {n : UInt32} (h : s.Fetches 3 n) (hn : s.Outside n) :
      Refuses s (.outOfBounds .write n.toNat s.architecture.memorySize)
  | jump {o : Int64} {n : UInt32} (h : s.Fetches o n)
      (ho : o = 6 ∨ o = 7 ∧ s.registers.acc = 0 ∨ o = 8 ∧ 0 ≤ s.registers.acc)
      (hn : s.Outside n) :
      Refuses s (.outOfBounds .jump n.toNat s.architecture.memorySize)
  | input (h : s.Fetches 9 1) (hlines : ∀ line ∈ s.channel.pending, ¬ s.Takes line) :
      Refuses s (.channel .endOfInput)
  | character (h : s.Fetches 9 22) (hextensions : s.settings.extensions = true)
      (hacc : ∀ c : Char, s.registers.acc.toInt ≠ c.toNat) :
      Refuses s (.channel (.invalidChar s.registers.acc))

variable {s s' : Machine Buffer} {a : Architecture} {f : Fault} {o : Int64} {n : UInt32} {k : Nat}

/-! ## Parts -/

theorem Sound.size_eq (h : s.Sound a k) : s.memory.size = s.architecture.memorySize := by
  rw [h.size, h.architecture]

theorem Sound.locate_fails_iff (h : s.Sound a k) {access : Access} :
    s.locate n.toNat access = .error f ↔
      s.Outside n ∧ f = .outOfBounds access n.toNat s.architecture.memorySize := by
  rw [locate_eq_error, admits_natCast, h.size_eq, not_or]
  simp [Outside]

theorem Sound.fetches_iff (h : s.Sound a k) :
    s.Fetches o n ↔ s.status = .running ∧ ∃ index w, s.fetch = .ok (index, w) ∧
      s.architecture.opcode w = o ∧ s.architecture.operand w = n := by
  have hle := h.ip
  rw [← h.size] at hle
  unfold Fetches
  simp only [← h.size_eq, fetch_eq_ok, locate_eq_ok, admits_natCast, indexOf_natCast, and_assoc,
    exists_and_left, exists_eq_left]
  by_cases hip : s.registers.ip.toNat = s.memory.size
  · simp [hip]
  · have hlt : s.registers.ip.toNat < s.memory.size := by omega
    simp [hip, hlt, Nat.mod_eq_of_lt hlt]

theorem fetches_load {settings : Settings} {channel : Buffer} {image : List Word} {w : Word}
    (h : load a settings channel image = .ok s) (hw : image[0]? = some w) :
    s.Fetches (a.opcode w) (a.operand w) := by
  have hsize : (0 : Nat) ≠ a.memorySize := by cases a <;> decide
  unfold load Memory.ofImage Memory.load at h
  split_ifs at h
  · cases h
    have hlength : 0 < image.length := (List.getElem?_eq_some_iff.mp hw).1
    refine ⟨rfl, fun hip => absurd hip hsize, w, ?_, rfl, rfl⟩
    simp [List.getElem?_append_left hlength, hw]
  · cases h

theorem takes_iff {line : String} :
    s.Takes line ↔ ∃ w, Channel.accept s.inputRange line.toList = .ok w := by
  unfold Takes inputRange
  simp only [Channel.accept_eq_ok]
  cases s.settings.wrapValues <;> simp [Architecture.inRange]

theorem input_fails_iff :
    (∃ s', transfer .input s = .error f s') ↔
      f = .channel .endOfInput ∧ ∀ line ∈ s.channel.pending, ¬ s.Takes line := by
  have hread : Channel.readNumber s.inputRange s.channel =
      Buffer.readFrom s.inputRange s.channel s.channel.pending := rfl
  have hlines : (∀ line ∈ s.channel.pending, ¬ s.Takes line) ↔
      ∃ b, Buffer.readFrom s.inputRange s.channel s.channel.pending = .error .endOfInput b := by
    simp only [takes_iff, not_exists, Buffer.readFrom_fails_iff, ne_eq]
  simp only [input_eq_error, exchange_eq_error, hread, hlines]
  constructor
  · rintro ⟨s', e, b, hfails, rfl, -⟩
    obtain ⟨rfl, -⟩ := Buffer.readFrom_error hfails
    exact ⟨rfl, b, hfails⟩
  · rintro ⟨rfl, b, hfails⟩
    exact ⟨_, _, b, hfails, rfl, rfl⟩

theorem writeChar_eq_error :
    exchange (Channel.writeChar s.registers.acc) s = .error f s' ↔
      (∀ c : Char, s.registers.acc.toInt ≠ c.toNat) ∧
        f = .channel (.invalidChar s.registers.acc) ∧ s' = s := by
  have hwrite : Channel.writeChar s.registers.acc s.channel =
      Buffer.writeChar s.registers.acc s.channel := rfl
  rw [exchange_eq_error, hwrite, ← Channel.character?_eq_none]
  unfold Buffer.writeChar
  cases Channel.character? s.registers.acc with
  | some c => simp
  | none => simp

/-! ## From faults to reasons -/

section Faults

variable {index : Nat} {w : Word}

theorem Sound.refuses_of_compute {g : Word → Word} (h : s.Sound a k) (hf : s.Fetches o n)
    (ho : o ∈ [1, 2, 5]) (hact : compute n g (s.fetched index w) = .error f s') : s.Refuses f := by
  obtain ⟨-, hget⟩ := compute_eq_error.mp hact
  obtain ⟨hn, rfl⟩ := h.locate_fails_iff.mp ((get_eq_error_of_pos h.pos).mp hget)
  exact .read hf ho hn

theorem Sound.refuses_of_branch {taken : Bool} (h : s.Sound a k) (hf : s.Fetches o n)
    (ho : taken = true → o = 6 ∨ o = 7 ∧ s.registers.acc = 0 ∨ o = 8 ∧ 0 ≤ s.registers.acc)
    (hact : branch n taken (s.fetched index w) = .error f s') : s.Refuses f := by
  obtain ⟨htaken, -, hlocate⟩ := branch_eq_error.mp hact
  obtain ⟨hn, rfl⟩ := h.locate_fails_iff.mp hlocate
  exact .jump hf (ho htaken) hn

theorem refuses_of_transfer (hf : s.Fetches 9 n)
    (hact : transfer (.ofOperand n) (s.fetched index w) = .error f s') : s.Refuses f := by
  by_cases hn : n ∈ [1, 2, 22]
  · simp only [List.mem_cons, List.not_mem_nil, or_false] at hn
    rcases hn with rfl | rfl | rfl
    · obtain ⟨rfl, hlines⟩ := input_fails_iff.mp ⟨s', hact⟩
      exact .input hf hlines
    · cases hact
    · obtain ⟨hextensions, rfl, -⟩ | ⟨hextensions, hact⟩ := outputChar_eq_error.mp hact
      · exact .extension hf hextensions
      · obtain ⟨hacc, rfl, -⟩ := writeChar_eq_error.mp hact
        exact .character hf hextensions hacc
  · rw [Transfer.ofOperand_of_not_mem hn] at hact
    cases hact
    exact .operand hf hn

theorem Sound.refuses_of_execute (h : s.Sound a k) (hf : s.Fetches o n)
    (he : execute (Instruction.ofParts o n) (s.fetched index w) = .error f s') : s.Refuses f := by
  by_cases ho : o ∈ [0, 1, 2, 3, 5, 6, 7, 8, 9]
  · simp only [List.mem_cons, List.not_mem_nil, or_false] at ho
    rcases ho with rfl | rfl | rfl | rfl | rfl | rfl | rfl | rfl | rfl
    · cases he
    · exact h.refuses_of_compute hf (by decide) he
    · exact h.refuses_of_compute hf (by decide) he
    · obtain ⟨-, hlocate⟩ := (set_eq_error_of_pos (m := s.fetched index w) h.pos).mp he
      obtain ⟨hn, rfl⟩ := h.locate_fails_iff.mp hlocate
      exact .write hf hn
    · exact h.refuses_of_compute hf (by decide) he
    · exact h.refuses_of_branch hf (fun _ => .inl rfl) he
    · exact h.refuses_of_branch hf (fun hzero => .inr (.inl ⟨rfl, beq_iff_eq.mp hzero⟩)) he
    · exact h.refuses_of_branch hf (fun hpos => .inr (.inr ⟨rfl, of_decide_eq_true hpos⟩)) he
    · exact refuses_of_transfer hf he
  · rw [Instruction.ofParts_of_not_mem ho] at he
    cases he
    exact .opcode hf ho

end Faults

theorem Sound.refuses_of_step (h : s.Sound a k) (hs : step s = .error f s') : s.Refuses f := by
  obtain ⟨hhalted, rfl, -⟩ | ⟨hrunning, ⟨hfetch, -⟩ | ⟨index, w, s₁, hfetch, hexecute, -⟩⟩ :=
    step_eq_error.mp hs
  · exact .halted hhalted
  · obtain ⟨hrefused, rfl⟩ := locate_eq_error.mp ((fetch_eq_error_of_pos h.pos).mp hfetch)
    rw [admits_natCast, not_or] at hrefused
    have hip : s.registers.ip.toNat = s.memory.size := by
      have hle := h.ip
      rw [← h.size] at hle
      omega
    rw [hip, h.size_eq]
    exact .behindLast hrunning (hip.trans h.size_eq) (by simpa using hrefused.1)
  · exact h.refuses_of_execute (h.fetches_iff.mpr ⟨hrunning, index, w, hfetch, rfl, rfl⟩) hexecute

/-! ## From reasons to faults -/

theorem Sound.step_of_fetches (h : s.Sound a k) (hf : s.Fetches o n)
    (he : ∀ index w, ∃ s₁, execute (Instruction.ofParts o n) (s.fetched index w) = .error f s₁) :
    ∃ s', step s = .error f s' := by
  obtain ⟨hrunning, index, w, hfetch, rfl, rfl⟩ := h.fetches_iff.mp hf
  obtain ⟨s₁, hexecute⟩ := he index w
  exact ⟨_, step_eq_error.mpr (.inr ⟨hrunning, .inr ⟨index, w, s₁, hfetch, hexecute, rfl⟩⟩)⟩

theorem Sound.step_of_refuses (h : s.Sound a k) (hf : s.Refuses f) :
    ∃ s', step s = .error f s' := by
  cases hf with
  | halted hhalted => exact ⟨s, step_eq_error.mpr (.inl ⟨hhalted, rfl, rfl⟩)⟩
  | behindLast hrunning hip hwrap =>
    have hlocate : s.locate s.registers.ip.toNat .instructionPointer =
        .error (.outOfBounds .instructionPointer s.architecture.memorySize
          s.architecture.memorySize) := by
      rw [locate_eq_error, admits_natCast, hip, h.size_eq]
      simp [hwrap]
    have hfetch := (fetch_eq_error_of_pos h.pos).mpr hlocate
    exact ⟨s, step_eq_error.mpr (.inr ⟨hrunning, .inl ⟨hfetch, rfl⟩⟩)⟩
  | opcode hf ho =>
    refine h.step_of_fetches hf fun index w => ⟨s.fetched index w, ?_⟩
    rw [Instruction.ofParts_of_not_mem ho]
    rfl
  | operand hf hn =>
    refine h.step_of_fetches hf fun index w => ⟨s.fetched index w, ?_⟩
    show transfer (.ofOperand _) _ = _
    rw [Transfer.ofOperand_of_not_mem hn]
    rfl
  | extension hf hextensions =>
    exact h.step_of_fetches hf fun index w =>
      ⟨_, outputChar_eq_error.mpr (.inl ⟨hextensions, rfl, rfl⟩)⟩
  | read hf ho hn =>
    have hget := (get_eq_error_of_pos h.pos).mpr (h.locate_fails_iff.mpr ⟨hn, rfl⟩)
    simp only [List.mem_cons, List.not_mem_nil, or_false] at ho
    rcases ho with rfl | rfl | rfl
    all_goals
      exact h.step_of_fetches hf fun index w => ⟨_, compute_eq_error.mpr ⟨rfl, hget⟩⟩
  | write hf hn =>
    have hlocate : s.locate _ .write = .error _ := h.locate_fails_iff.mpr ⟨hn, rfl⟩
    exact h.step_of_fetches hf fun index w =>
      ⟨_, (set_eq_error_of_pos (m := s.fetched index w) h.pos).mpr ⟨rfl, hlocate⟩⟩
  | jump hf ho hn =>
    have hlocate : s.locate _ .jump = .error _ := h.locate_fails_iff.mpr ⟨hn, rfl⟩
    rcases ho with rfl | ⟨rfl, hzero⟩ | ⟨rfl, hpositive⟩
    · exact h.step_of_fetches hf fun index w => ⟨_, branch_eq_error.mpr ⟨rfl, rfl, hlocate⟩⟩
    · exact h.step_of_fetches hf fun index w =>
        ⟨_, branch_eq_error.mpr ⟨beq_iff_eq.mpr hzero, rfl, hlocate⟩⟩
    · exact h.step_of_fetches hf fun index w =>
        ⟨_, branch_eq_error.mpr ⟨decide_eq_true hpositive, rfl, hlocate⟩⟩
  | input hf hlines =>
    exact h.step_of_fetches hf fun index w =>
      input_fails_iff (s := s.fetched index w) |>.mpr ⟨rfl, hlines⟩
  | character hf hextensions hacc =>
    exact h.step_of_fetches hf fun index w =>
      ⟨_, outputChar_eq_error.mpr
        (.inr ⟨hextensions, writeChar_eq_error.mpr ⟨hacc, rfl, rfl⟩⟩)⟩

/-! ## Decimal machines -/

theorem not_outside_of_decimal (ha : s.architecture = .decimal) (hf : s.Fetches o n) :
    ¬ s.Outside n := by
  obtain ⟨-, -, w, -, -, rfl⟩ := hf
  rintro ⟨-, hle⟩
  have hlt := s.architecture.operand_lt w
  rw [ha] at hle hlt
  simp only [Architecture.memorySize, Architecture.operandLimit] at hle hlt
  omega

/-- A step fails with a fault exactly if there is a reason for it. On the decimal machine only the
instruction pointer is ever out of bounds. -/
theorem step_fails_exactly {settings : Settings} {image : List Word}
    (h : Reached a settings image s) :
    (∀ f, (∃ s', step s = .error f s') ↔ s.Refuses f) ∧
      ((∃ i s', step s = .ok i s') ↔ ∀ f, ¬ s.Refuses f) ∧
      (a = .decimal → ∀ access address size s',
        step s = .error (.outOfBounds access address size) s' → access = .instructionPointer) := by
  obtain ⟨k, hsound⟩ := h.sound
  have hiff (f : Fault) : (∃ s', step s = .error f s') ↔ s.Refuses f := by
    constructor
    · rintro ⟨s', hs⟩
      exact hsound.refuses_of_step hs
    · exact hsound.step_of_refuses
  refine ⟨hiff, ?_, ?_⟩
  · simp only [← hiff]
    cases hs : step s with
    | ok i s' => simp
    | error f s' => simp
  · rintro rfl access address size s' hs
    have ha := hsound.architecture
    cases hsound.refuses_of_step hs with
    | behindLast => rfl
    | read hf ho hn => exact absurd hn (not_outside_of_decimal ha hf)
    | write hf hn => exact absurd hn (not_outside_of_decimal ha hf)
    | jump hf ho hn => exact absurd hn (not_outside_of_decimal ha hf)

theorem step_fails_exactly_reasons :
    (∃ s s' : Machine Buffer, Reached .decimal {} [901] s ∧ s.registers.ip = 100 ∧
      step s = .error (.outOfBounds .instructionPointer 100 100) s') ∧
    (∃ s s' : Machine Buffer, Reached .decimal {} [901] s ∧
      s.channel.pending = ["x", "1000"] ∧ step s = .error (.channel .endOfInput) s') ∧
    ∃ s s' : Machine Buffer, Reached .binary {} [134283264] s ∧
      step s = .error (.outOfBounds .read 65536 65536) s' := by
  refine ⟨?_, ?_, ?_⟩
  · have hrun : ∃ m : Machine Buffer, load .decimal {} (Buffer.ofLines []) [901] = .ok m ∧
        let s := m.after [.set 99 598, .jump 99, .step]
        s.status = .running ∧ s.registers.ip = 100 ∧ s.architecture = .decimal ∧
          s.settings.wrapMemory = false := ⟨_, rfl, by decide +kernel⟩
    obtain ⟨m, hload, hrunning, hip, ha, hwrap⟩ := hrun
    have hreached := (Reached.load hload).after [.set 99 598, .jump 99, .step]
    have hrefuses := Refuses.behindLast hrunning (by rw [hip, ha]; rfl) hwrap
    rw [ha] at hrefuses
    obtain ⟨s', hs'⟩ := ((step_fails_exactly hreached).1 _).mpr hrefuses
    exact ⟨_, s', hreached, hip, hs'⟩
  · have hrun : ∃ m : Machine Buffer,
        load .decimal {} (Buffer.ofLines ["x", "1000"]) [901] = .ok m ∧
        m.channel.pending = ["x", "1000"] ∧ ∀ line ∈ m.channel.pending, ¬ m.Takes line :=
      ⟨_, rfl, rfl, by decide +kernel⟩
    obtain ⟨m, hload, hpending, hlines⟩ := hrun
    have hrefuses := Refuses.input (fetches_load hload rfl) hlines
    obtain ⟨s', hs'⟩ := ((step_fails_exactly (.load hload)).1 _).mpr hrefuses
    exact ⟨m, s', .load hload, hpending, hs'⟩
  · obtain ⟨m, hload⟩ : ∃ m, load .binary {} (Buffer.ofLines []) [134283264] = .ok m :=
      Assembly.load_of_length_le _ _ (by decide)
    obtain ⟨ha, hsettings, -⟩ := loadedFrom_load hload
    have houtside : m.Outside 65536 := ⟨by rw [hsettings], by rw [ha]; decide⟩
    have hrefuses := Refuses.read (fetches_load hload rfl) (by decide) houtside
    rw [ha] at hrefuses
    obtain ⟨s', hs'⟩ := ((step_fails_exactly (.load hload)).1 _).mpr hrefuses
    exact ⟨m, s', .load hload, hs'⟩

end LittleMan.Machine
