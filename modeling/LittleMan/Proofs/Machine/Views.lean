import Mathlib.Logic.Function.Basic
import Mathlib.Tactic.Common
import LittleMan.Proofs.Machine.Transition
import LittleMan.Proofs.Wrapping

/-!
# Programs step by step

What a program works with is its view: the accumulator, the place it is at, the cells and the
channel. As long as no address is out of bounds and no value has to be wrapped, a step changes the
view by a simple rule for each instruction. Chains of such rules are runs of the machine.
-/

namespace LittleMan

def Settings.Keeps (settings : Settings) (a : Architecture) (w : Word) : Prop :=
  settings.wrapValues = true → a.inRange w = true

def Settings.inputRange (settings : Settings) (a : Architecture) : Option Range :=
  if settings.wrapValues then some a.values else none

/-- What a program works with. -/
structure View (C : Type) where
  acc : Word
  ip : Nat
  cells : Nat → Word
  channel : C

namespace View

variable {C : Type}

def Fetches (a : Architecture) (v : View C) (i : Instruction) : Prop :=
  v.ip < a.memorySize ∧ Instruction.decode a (v.cells v.ip) = i

variable [Channel C]

/-- What a step makes of a view. -/
inductive Next (a : Architecture) (settings : Settings) : View C → View C → Prop
  | load {v : View C} {n : Nat} {w : Word} (h : v.Fetches a (.load (.ofNat n)))
    (hn : n < a.memorySize) (hcell : v.cells n = w) (hw : settings.Keeps a w) :
    Next a settings v { v with acc := w, ip := v.ip + 1 }
  | add {v : View C} {n : Nat} {w : Word} (h : v.Fetches a (.add (.ofNat n)))
    (hn : n < a.memorySize) (hcell : v.cells n = w) (hw : settings.Keeps a (v.acc + w)) :
    Next a settings v { v with acc := v.acc + w, ip := v.ip + 1 }
  | subtract {v : View C} {n : Nat} {w : Word} (h : v.Fetches a (.subtract (.ofNat n)))
    (hn : n < a.memorySize) (hcell : v.cells n = w) (hw : settings.Keeps a (v.acc - w)) :
    Next a settings v { v with acc := v.acc - w, ip := v.ip + 1 }
  | store {v : View C} {n : Nat} (h : v.Fetches a (.store (.ofNat n))) (hn : n < a.memorySize)
    (hw : settings.Keeps a v.acc) :
    Next a settings v { v with cells := Function.update v.cells n v.acc, ip := v.ip + 1 }
  | branch {v : View C} {n : Nat} (h : v.Fetches a (.branch (.ofNat n))) (hn : n < a.memorySize) :
    Next a settings v { v with ip := n }
  | branchIfZero {v : View C} {n : Nat} (h : v.Fetches a (.branchIfZero (.ofNat n)))
    (hn : n < a.memorySize) :
    Next a settings v { v with ip := if v.acc = 0 then n else v.ip + 1 }
  | branchIfPositive {v : View C} {n : Nat} (h : v.Fetches a (.branchIfPositive (.ofNat n)))
    (hn : n < a.memorySize) :
    Next a settings v { v with ip := if 0 ≤ v.acc then n else v.ip + 1 }
  | input {v : View C} {w : Word} {c : C} (h : v.Fetches a (.transfer .input))
    (hread : Channel.readNumber (settings.inputRange a) v.channel = .ok w c)
    (hw : settings.Keeps a w) :
    Next a settings v { v with acc := w, channel := c, ip := v.ip + 1 }
  | output {v : View C} {c : C} (h : v.Fetches a (.transfer .output))
    (hwrite : Channel.writeNumber v.acc v.channel = .ok () c) :
    Next a settings v { v with channel := c, ip := v.ip + 1 }

/-- At most so many steps lead from one view to the other. -/
inductive Leads (a : Architecture) (settings : Settings) : Nat → View C → View C → Prop
  | refl (n : Nat) (v : View C) : Leads a settings n v v
  | next {n : Nat} {v v₁ v' : View C} (h : Next a settings v v₁)
    (hrest : Leads a settings n v₁ v') : Leads a settings (n + 1) v v'

variable {a : Architecture} {settings : Settings} {v v₁ v' : View C} {n k : Nat}

namespace Next

theorem zero (h : v.Fetches a (.branchIfZero (.ofNat n))) (hn : n < a.memorySize)
    (hzero : v.acc = 0) : Next a settings v { v with ip := n } := by
  simpa only [if_pos hzero] using branchIfZero h hn

theorem nonzero (h : v.Fetches a (.branchIfZero (.ofNat n))) (hn : n < a.memorySize)
    (hzero : v.acc ≠ 0) : Next a settings v { v with ip := v.ip + 1 } := by
  simpa only [if_neg hzero] using branchIfZero h hn

theorem positive (h : v.Fetches a (.branchIfPositive (.ofNat n))) (hn : n < a.memorySize)
    (hpositive : 0 ≤ v.acc) : Next a settings v { v with ip := n } := by
  simpa only [if_pos hpositive] using branchIfPositive h hn

theorem negative (h : v.Fetches a (.branchIfPositive (.ofNat n))) (hn : n < a.memorySize)
    (hpositive : ¬ 0 ≤ v.acc) : Next a settings v { v with ip := v.ip + 1 } := by
  simpa only [if_neg hpositive] using branchIfPositive h hn

end Next

theorem Leads.mono (h : Leads a settings n v v') (hle : n ≤ k) : Leads a settings k v v' := by
  induction h generalizing k with
  | refl => exact .refl k _
  | next h _ ih =>
    obtain ⟨k, rfl⟩ := Nat.exists_eq_succ_of_ne_zero (n := k) (by omega)
    exact .next h (ih (by omega))

theorem Leads.trans (h : Leads a settings n v v₁) (h' : Leads a settings k v₁ v') :
    Leads a settings (n + k) v v' := by
  induction h with
  | refl n v => exact h'.mono (Nat.le_add_left k n)
  | next hnext _ ih =>
    rw [Nat.add_right_comm]
    exact .next hnext (ih h')

end View

namespace Machine

variable {C : Type} {m m₁ : Machine C} {a : Architecture} {settings : Settings} {v v' : View C}
  {w : Word} {n : Nat}

/-- The machine is running, and a program on it works with this view. -/
structure Shows (m : Machine C) (a : Architecture) (settings : Settings) (v : View C) : Prop where
  architecture : m.architecture = a
  settings : m.settings = settings
  running : m.status = .running
  size : m.memory.size = a.memorySize
  acc : m.registers.acc = v.acc
  ip : m.registers.ip.toNat = v.ip
  cells : ∀ k < a.memorySize, m.memory.cells[k]? = some (v.cells k)
  channel : m.channel = v.channel

theorem shows_load {channel : C} {image : List Word}
    (h : load a settings channel image = .ok m) :
    m.Shows a settings { acc := 0, ip := 0, cells := fun k => image.getD k 0, channel } := by
  have hsize := (sound_load h).size
  unfold load Memory.ofImage Memory.load at h
  split_ifs at h with hfits
  · cases h
    refine ⟨rfl, rfl, rfl, hsize, rfl, rfl, ?_, rfl⟩
    intro k hk
    simp only [Memory.zeros, Memory.size, Array.size_replicate] at hfits ⊢
    rw [List.getElem?_toArray, List.getD_eq_getElem?_getD, List.getElem?_append]
    split_ifs with himage
    · rw [List.getElem?_eq_getElem himage]
      rfl
    · -- Behind the image there are zeros.
      rw [List.getElem?_replicate, if_pos (by omega), List.getElem?_eq_none (by omega)]
      rfl
  · cases h

/-! ## Parts of a step -/

namespace Shows

theorem normalize (h : m.Shows a settings v) (hw : settings.Keeps a w) : m.normalize w = w := by
  unfold Machine.normalize
  rw [h.settings, h.architecture]
  split_ifs with hwrap
  · exact Architecture.wrap_of_inRange (hw hwrap)
  · rfl

theorem setAcc (h : m.Shows a settings v) (hw : settings.Keeps a w) :
    (m.setAcc w).Shows a settings { v with acc := w } :=
  { h with acc := h.normalize hw }

theorem setChannel (h : m.Shows a settings v) (c : C) :
    Shows { m with channel := c } a settings { v with channel := c } :=
  { h with channel := rfl }

theorem putCell (h : m.Shows a settings v) (hn : n < a.memorySize) (w : Word) :
    (m.putCell n w).Shows a settings { v with cells := Function.update v.cells n w } := by
  refine { h with size := ?_, cells := ?_ }
  · simpa [Machine.putCell] using h.size
  · intro k hk
    rw [cells_putCell (h.size ▸ hn)]
    simp only [Function.update_apply]
    split_ifs
    · rfl
    · exact h.cells k hk

theorem locate (h : m.Shows a settings v) (hn : n < a.memorySize) (access : Access) :
    m.locate n access = .ok n := by
  rw [locate_eq_ok, admits_natCast, indexOf_natCast, h.size]
  exact ⟨.inr hn, (Nat.mod_eq_of_lt hn).symm⟩

theorem get (h : m.Shows a settings v) (hn : n < a.memorySize) : m.get n = .ok (v.cells n) :=
  get_eq_ok.mpr ⟨n, h.locate hn .read, h.cells n hn⟩

theorem toNat_ofNat (hn : n < a.memorySize) : (UInt32.ofNat n).toNat = n := by
  have hsize : a.memorySize ≤ 65536 := by cases a <;> decide
  exact UInt32.toNat_ofNat_of_lt' (by rw [show UInt32.size = 2 ^ 32 from rfl]; omega)

theorem compute (h : m.Shows a settings v) (hn : n < a.memorySize) (f : Word → Word) :
    compute (.ofNat n) f m = .ok () (m.setAcc (f (v.cells n))) :=
  compute_eq_ok.mpr ⟨v.cells n, by rw [toNat_ofNat hn]; exact h.get hn, rfl⟩

theorem moveTo (h : m.Shows a settings v) (hn : n < a.memorySize) :
    (m.moveTo n).Shows a settings { v with ip := n } :=
  { h with ip := toNat_ofNat_of_le (Nat.le_of_lt hn) }

theorem branch (h : m.Shows a settings v) (hn : n < a.memorySize) (taken : Bool) :
    branch (.ofNat n) taken m = .ok () (if taken then m.moveTo n else m) := by
  rw [branch_eq_ok, toNat_ofNat hn]
  cases taken with
  | false => exact .inr ⟨rfl, rfl⟩
  | true => exact .inl ⟨rfl, n, h.locate hn .jump, rfl⟩

theorem fetched (h : m.Shows a settings v) (hip : v.ip < a.memorySize) :
    (m.fetched v.ip (v.cells v.ip)).Shows a settings { v with ip := v.ip + 1 } := by
  refine { h with ip := toNat_ip_fetched ?_ _ }
  have hsize : a.memorySize ≤ 65536 := by cases a <;> decide
  rw [show UInt64.size = 2 ^ 64 from rfl]
  omega

theorem inputRange (h : m.Shows a settings v) : m.inputRange = settings.inputRange a := by
  unfold Machine.inputRange Settings.inputRange
  rw [h.settings, h.architecture]

variable [Channel C]

theorem step (h : m.Shows a settings v) {i : Instruction} (hi : v.Fetches a i)
    (hx : execute i (m.fetched v.ip (v.cells v.ip)) = .ok () m₁) : step m = .ok i m₁ := by
  obtain ⟨hip, rfl⟩ := hi
  have hfetch : m.fetch = .ok (v.ip, v.cells v.ip) := by
    rw [fetch_eq_ok, h.ip]
    exact ⟨h.locate hip _, h.cells v.ip hip⟩
  exact step_eq_ok.mpr ⟨h.running, _, _, hfetch, by rw [h.architecture], hx⟩

theorem next (h : m.Shows a settings v) (hnext : View.Next a settings v v') :
    ∃ i m', Machine.step m = .ok i m' ∧ m'.Shows a settings v' := by
  cases hnext with
  | load hi hn hcell hw =>
    subst hcell
    have h' := h.fetched hi.1
    exact ⟨_, _, h.step hi (h'.compute hn id), h'.setAcc hw⟩
  | add hi hn hcell hw =>
    subst hcell
    have h' := h.fetched hi.1
    rw [← h'.acc] at hw ⊢
    exact ⟨_, _, h.step hi (h'.compute hn _), h'.setAcc hw⟩
  | subtract hi hn hcell hw =>
    subst hcell
    have h' := h.fetched hi.1
    rw [← h'.acc] at hw ⊢
    exact ⟨_, _, h.step hi (h'.compute hn _), h'.setAcc hw⟩
  | @store n hi hn hw =>
    have h' := h.fetched hi.1
    have hx : execute (.store (.ofNat n)) (m.fetched v.ip (v.cells v.ip)) =
        .ok () ((m.fetched v.ip (v.cells v.ip)).putCell n v.acc) := by
      refine set_eq_ok.mpr ⟨n, h'.size ▸ hn, ?_, ?_⟩
      · rw [toNat_ofNat hn]
        exact h'.locate hn .write
      · rw [h'.acc, h'.normalize hw]
    exact ⟨_, _, h.step hi hx, h'.putCell hn _⟩
  | branch hi hn =>
    have h' := h.fetched hi.1
    exact ⟨_, _, h.step hi (h'.branch hn true), h'.moveTo hn⟩
  | @branchIfZero n hi hn =>
    have h' := h.fetched hi.1
    refine ⟨_, _, h.step hi (h'.branch hn _), ?_⟩
    rw [h'.acc]
    by_cases hzero : v.acc = 0
    · simpa [hzero] using h'.moveTo hn
    · simpa [hzero] using h'
  | @branchIfPositive n hi hn =>
    have h' := h.fetched hi.1
    refine ⟨_, _, h.step hi (h'.branch hn _), ?_⟩
    rw [h'.acc]
    by_cases hpositive : 0 ≤ v.acc
    · simpa [hpositive] using h'.moveTo hn
    · simpa [hpositive] using h'
  | @input w c hi hread hw =>
    have h' := h.fetched hi.1
    rw [← h'.inputRange, ← h'.channel] at hread
    exact ⟨_, _, h.step hi (input_eq_ok.mpr ⟨w, c, hread, rfl⟩), (h'.setChannel c).setAcc hw⟩
  | @output c hi hwrite =>
    have h' := h.fetched hi.1
    rw [← h'.acc, ← h'.channel] at hwrite
    exact ⟨_, _, h.step hi (exchange_eq_ok.mpr ⟨c, hwrite, rfl⟩), h'.setChannel c⟩

theorem leads (h : m.Shows a settings v) (hleads : View.Leads a settings n v v') :
    ∃ k ≤ n, ∃ m', steps k m = .ok () m' ∧ m'.Shows a settings v' := by
  induction hleads generalizing m with
  | refl => exact ⟨0, Nat.zero_le _, m, rfl, h⟩
  | next hnext _ ih =>
    obtain ⟨i, m₁, hs, h₁⟩ := h.next hnext
    obtain ⟨k, hk, m', hsteps, h'⟩ := ih h₁
    exact ⟨k + 1, by omega, m', (steps_succ_of_ok k hs).trans hsteps, h'⟩

/-- A program that gets to a halt ends there, with the cells and the channel it has then. -/
theorem run_of_leads {operand : UInt32} (h : m.Shows a settings v)
    (hleads : View.Leads a settings n v v') (hhalt : v'.Fetches a (.halt operand))
    (hroom : m.cycles + n < maxCycles) :
    ∃ count m', run m = .ok count m' ∧ m'.status = .halted ∧ m'.channel = v'.channel ∧
      ∀ k < a.memorySize, m'.memory.cells[k]? = some (v'.cells k) := by
  obtain ⟨k, hk, m₁, hsteps, h₁⟩ := h.leads hleads
  have h₂ := h₁.fetched hhalt.1
  have hstep : Machine.step m₁ = .ok (.halt operand) (m₁.fetched v'.ip (v'.cells v'.ip)).halt :=
    h₁.step hhalt rfl
  have hend := steps_add k 1 m
  rw [hsteps] at hend
  simp only [steps_succ_of_ok 0 hstep] at hend
  have hall := steps_of_le_of_halted hend rfl (k := maxCycles + 1 - m.cycles) (by omega)
  exact ⟨_, _, runFor_eq_ok.mpr ⟨hall, rfl⟩, rfl, h₂.channel, h₂.cells⟩

end Shows

end Machine

end LittleMan
