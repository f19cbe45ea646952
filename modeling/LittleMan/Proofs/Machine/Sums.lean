import Mathlib.Data.Int.ModEq
import Mathlib.Tactic.Common
import LittleMan.Proofs.Machine.Transition
import LittleMan.Proofs.Machine.Values

/-!
# Sums on a machine that wraps

A row of additions and subtractions wraps at each step, and the sum of the words themselves does not
wrap at all. Both differ by a multiple of the period, however many steps there are: wrapping forgets
periods and nothing else. Whether the two are equal is another matter on the decimal machine, where
-999 and 999 are a period apart and both in range.
-/

namespace LittleMan

def Instruction.isSum : Instruction → Bool
  | add _ | subtract _ => true
  | _ => false

theorem Architecture.eq_signExtend {w : Word} {x : Int} (hw : binary.inRange w = true)
    (hx : w.toInt ≡ x [ZMOD binary.period]) :
    w.toBitVec = (BitVec.ofInt 32 x).signExtend 64 := by
  have hrange : -2147483648 ≤ w.toInt ∧ w.toInt ≤ 2147483647 := Range.contains_iff.mp hw
  have hsame : x.bmod (2 ^ 32) = w.toInt.bmod (2 ^ 32) := by
    rw [← Int.emod_bmod (x := x), ← Int.emod_bmod (x := w.toInt)]
    exact congrArg (Int.bmod · (2 ^ 32)) hx.symm
  apply BitVec.eq_of_toInt_eq
  rw [Int64.toInt_toBitVec, BitVec.toInt_signExtend_of_le (by omega), BitVec.toInt_ofInt, hsame,
    Int.bmod_eq_of_le_mul_two (by omega) (by omega)]

namespace Machine

variable {C : Type}

def operandWord (m : Machine C) (i : Instruction) : Word :=
  (m.get i.operand.toNat).toOption.getD 0

/-- What an instruction adds to the accumulator, if nothing wraps. -/
def term (m : Machine C) : Instruction → Int
  | .add n => (m.operandWord (.add n)).toInt
  | .subtract n => -(m.operandWord (.subtract n)).toInt
  | _ => 0

def total (m : Machine C) (is : List Instruction) : Int :=
  m.registers.acc.toInt + (is.map m.term).sum

variable {m m₁ m' : Machine C} {i : Instruction} {is : List Instruction} {a : Architecture}
  {settings : Settings} {image : List Word}

theorem get_congr (hmemory : m₁.memory = m.memory) (hsettings : m₁.settings = m.settings) :
    m₁.get = m.get := by
  have hlocate : m₁.locate = m.locate := by
    unfold locate
    rw [hmemory, hsettings]
  have hcell : m₁.cell = m.cell := by
    unfold cell
    rw [hmemory]
  unfold get
  rw [hlocate, hcell]

theorem operandWord_congr (hget : m₁.get = m.get) : m₁.operandWord = m.operandWord := by
  unfold operandWord
  rw [hget]

theorem term_congr (hget : m₁.get = m.get) : m₁.term = m.term := by
  unfold term
  rw [operandWord_congr hget]

theorem abs_term_le {bound : Int} (hlo : -bound ≤ (m.operandWord i).toInt)
    (hhi : (m.operandWord i).toInt ≤ bound) (hbound : 0 ≤ bound) :
    -bound ≤ m.term i ∧ m.term i ≤ bound := by
  cases i <;> simp only [term] <;> omega

/-- A sum of words forgets multiples of `2 ^ 64`, which the period of the binary machine divides.
Sums of decimal values are far from the ends of a word. -/
theorem toInt_ofInt_modEq (hacc : a.inRange m.registers.acc = true)
    (hword : a = .binary ∨ a.inRange (m.operandWord i) = true) :
    (Int64.ofInt (m.registers.acc.toInt + m.term i)).toInt ≡
      m.registers.acc.toInt + m.term i [ZMOD a.period] := by
  cases a with
  | binary =>
    have hwide : (Int64.ofInt (m.registers.acc.toInt + m.term i)).toInt ≡
        m.registers.acc.toInt + m.term i [ZMOD Int64.size] := by
      rw [Int64.toInt_ofInt]
      exact Int.bmod_emod
    exact hwide.of_dvd (by decide)
  | decimal =>
    have hword : Architecture.decimal.inRange (m.operandWord i) = true := by simpa using hword
    have hfits : -999 ≤ m.registers.acc.toInt ∧ m.registers.acc.toInt ≤ 999 :=
      Range.contains_iff.mp hacc
    have hbounds : -999 ≤ (m.operandWord i).toInt ∧ (m.operandWord i).toInt ≤ 999 :=
      Range.contains_iff.mp hword
    have hterm := abs_term_le hbounds.1 hbounds.2 (by omega)
    rw [Int64.toInt_ofInt_of_le (by omega) (by omega)]

/-! ## One step -/

variable [Channel C]

theorem step_sum (hs : step m = .ok i m₁) (hi : i.isSum = true) :
    m.get i.operand.toNat = .ok (m.operandWord i) ∧
      m₁.registers.acc = m.normalize (Int64.ofInt (m.registers.acc.toInt + m.term i)) ∧
      m₁.memory = m.memory := by
  obtain ⟨-, k, w, -, -, hexecute⟩ := step_eq_ok.mp hs
  obtain ⟨next, hfetched, -⟩ := transition_of_execute hexecute
  have ht := hfetched.of_fetched
  cases i with
  | add n =>
    obtain ⟨x, hget, hacc⟩ := ht.acc
    have hx : m.operandWord (.add n) = x := by
      simp [operandWord, Instruction.operand, hget, Except.toOption]
    refine ⟨by rw [hx]; exact hget, ?_, ht.memory⟩
    rw [term, hx, Int64.ofInt_add, Int64.ofInt_toInt, Int64.ofInt_toInt]
    exact hacc
  | subtract n =>
    obtain ⟨x, hget, hacc⟩ := ht.acc
    have hx : m.operandWord (.subtract n) = x := by
      simp [operandWord, Instruction.operand, hget, Except.toOption]
    refine ⟨by rw [hx]; exact hget, ?_, ht.memory⟩
    rw [term, hx, ← Int.sub_eq_add_neg, Int64.ofInt_sub, Int64.ofInt_toInt, Int64.ofInt_toInt]
    exact hacc
  | _ => simp [Instruction.isSum] at hi

theorem get_step_sum (hs : step m = .ok i m₁) (hi : i.isSum = true) : m₁.get = m.get :=
  get_congr (step_sum hs hi).2.2 (step_keeps hs).2.1

theorem total_cons (hs : step m = .ok i m₁) (hi : i.isSum = true) (is : List Instruction) :
    m.total (i :: is) = m.registers.acc.toInt + m.term i + (is.map m₁.term).sum := by
  rw [total, List.map_cons, List.sum_cons, term_congr (get_step_sum hs hi), Int.add_assoc]

theorem Reached.ranged (h : Reached a settings image m) (hwrap : settings.wrapValues = true) :
    m.Ranged a image :=
  (invariant_ranged a image).of_reached (fun _ _ hload => ranged_load hload hwrap) h

theorem Reached.normalize (h : Reached a settings image m) (hwrap : settings.wrapValues = true)
    (w : Word) : m.normalize w = a.wrap w := by
  obtain ⟨harchitecture, hsettings, -⟩ := h.loadedFrom
  rw [Machine.normalize, hsettings, hwrap, harchitecture, if_pos rfl]

theorem step_sum_modEq (h : Reached a settings image m) (hwrap : settings.wrapValues = true)
    (hs : step m = .ok i m₁) (hi : i.isSum = true)
    (hword : a = .binary ∨ a.inRange (m.operandWord i) = true) :
    m₁.registers.acc.toInt ≡ m.registers.acc.toInt + m.term i [ZMOD a.period] := by
  obtain ⟨-, hacc, -⟩ := step_sum hs hi
  rw [hacc, h.normalize hwrap]
  exact (a.wrap_modEq _).trans (toInt_ofInt_modEq (h.ranged hwrap).acc hword)

theorem step_sum_exact (h : Reached a settings image m) (hwrap : settings.wrapValues = true)
    (hs : step m = .ok i m₁) (hi : i.isSum = true)
    (hlo : a.values.least.toInt ≤ m.registers.acc.toInt + m.term i)
    (hhi : m.registers.acc.toInt + m.term i ≤ a.values.greatest.toInt) :
    m₁.registers.acc.toInt = m.registers.acc.toInt + m.term i := by
  obtain ⟨-, hacc, -⟩ := step_sum hs hi
  have hleast := a.values.least.le_toInt
  have hgreatest := a.values.greatest.toInt_lt
  have hword : (Int64.ofInt (m.registers.acc.toInt + m.term i)).toInt =
      m.registers.acc.toInt + m.term i :=
    Int64.toInt_ofInt_of_le (by omega) (by omega)
  have hin : a.inRange (Int64.ofInt (m.registers.acc.toInt + m.term i)) = true := by
    rw [Architecture.inRange, Range.contains_iff, hword]
    exact ⟨hlo, hhi⟩
  rw [hacc, h.normalize hwrap, Architecture.wrap_of_inRange hin, hword]

/-! ## Many steps -/

/-- The steps from `m` to `m'` all succeed, and these are their instructions. -/
inductive Executes : Machine C → List Instruction → Machine C → Prop
  | nil (m : Machine C) : Executes m [] m
  | cons {m m₁ m' : Machine C} {i : Instruction} {is : List Instruction}
    (hs : step m = .ok i m₁) (h : Executes m₁ is m') : Executes m (i :: is) m'

theorem Executes.reached (hrun : Executes m is m') (h : Reached a settings image m) :
    Reached a settings image m' := by
  induction hrun with
  | nil => exact h
  | cons hs _ ih => exact ih (invariant_reached.step h hs)

theorem Executes.words (hrun : Executes m is m') (hsums : ∀ i ∈ is, i.isSum = true) :
    m'.memory = m.memory ∧ ∀ i ∈ is, m.get i.operand.toNat = .ok (m.operandWord i) := by
  induction hrun with
  | nil => simp
  | cons hs _ ih =>
    rw [List.forall_mem_cons] at hsums
    obtain ⟨hget, -, hmemory⟩ := step_sum hs hsums.1
    obtain ⟨hmemory', hwords⟩ := ih hsums.2
    have hsame := get_step_sum hs hsums.1
    rw [operandWord_congr hsame, hsame] at hwords
    exact ⟨hmemory'.trans hmemory, List.forall_mem_cons.mpr ⟨hget, hwords⟩⟩

theorem Executes.modEq_total (hrun : Executes m is m') (h : Reached a settings image m)
    (hwrap : settings.wrapValues = true) (hsums : ∀ i ∈ is, i.isSum = true)
    (hwords : a = .binary ∨ ∀ i ∈ is, a.inRange (m.operandWord i) = true) :
    m'.registers.acc.toInt ≡ m.total is [ZMOD a.period] := by
  induction hrun with
  | nil => simp [total]
  | @cons m m₁ m' i is hs _ ih =>
    simp only [List.forall_mem_cons] at hsums hwords
    have hfirst := step_sum_modEq h hwrap hs hsums.1 (hwords.imp_right And.left)
    have hrest := ih (invariant_reached.step h hs) hsums.2
      (by rw [operandWord_congr (get_step_sum hs hsums.1)]; exact hwords.imp_right And.right)
    rw [total_cons hs hsums.1]
    exact hrest.trans (hfirst.add_right _)

theorem Executes.eq_total (hrun : Executes m is m') (h : Reached a settings image m)
    (hwrap : settings.wrapValues = true) (hsums : ∀ i ∈ is, i.isSum = true)
    (hrange : ∀ k ≤ is.length, a.values.least.toInt ≤ m.total (is.take k) ∧
      m.total (is.take k) ≤ a.values.greatest.toInt) :
    m'.registers.acc.toInt = m.total is := by
  induction hrun with
  | nil => simp [total]
  | @cons m m₁ m' i is hs _ ih =>
    rw [List.forall_mem_cons] at hsums
    have hone := hrange 1 (by simp)
    simp only [List.take_succ_cons, List.take_zero, total, List.map_cons, List.map_nil,
      List.sum_cons, List.sum_nil, Int.add_zero] at hone
    have hfirst := step_sum_exact h hwrap hs hsums.1 hone.1 hone.2
    -- The sums of the rest are those of the whole row but the first.
    have hshift : ∀ js : List Instruction, m.total (i :: js) = m₁.total js := by
      intro js
      rw [total_cons hs hsums.1, total, hfirst]
    rw [hshift]
    apply ih (invariant_reached.step h hs) hsums.2
    intro k hk
    have hpart := hrange (k + 1) (by simpa using hk)
    rwa [List.take_succ_cons, hshift] at hpart

/-- However many additions and subtractions there are, the accumulator ends up congruent to the
exact sum, and equal to it if no partial sum leaves the range. -/
theorem sums_exact_modulo_period (h : Reached a settings image m)
    (hwrap : settings.wrapValues = true) (hrun : Executes m is m')
    (hsums : ∀ i ∈ is, i.isSum = true) :
    m'.memory = m.memory ∧
    (∀ i ∈ is, m.get i.operand.toNat = .ok (m.operandWord i)) ∧
    (a = .binary →
      m'.registers.acc.toBitVec = (BitVec.ofInt 32 (m.total is)).signExtend 64 ∧
      ∀ n, is = [.add n, .subtract n] → m'.registers.acc = m.registers.acc) ∧
    (a = .decimal →
      (∀ i ∈ is, -999 ≤ (m.operandWord i).toInt ∧ (m.operandWord i).toInt ≤ 999) →
      (-999 ≤ m'.registers.acc.toInt ∧ m'.registers.acc.toInt ≤ 999) ∧
      m'.registers.acc.toInt ≡ m.total is [ZMOD 1998] ∧
      ((∀ k ≤ is.length, -999 ≤ m.total (is.take k) ∧ m.total (is.take k) ≤ 999) →
        m'.registers.acc.toInt = m.total is)) := by
  obtain ⟨hmemory, hwords⟩ := hrun.words hsums
  have hend := ((hrun.reached h).ranged hwrap).acc
  refine ⟨hmemory, hwords, ?_, ?_⟩
  · rintro rfl
    have hbits := Architecture.eq_signExtend hend (hrun.modEq_total h hwrap hsums (.inl rfl))
    refine ⟨hbits, ?_⟩
    rintro n rfl
    have hstart := (h.ranged hwrap).acc
    have hback : m.total [.add n, .subtract n] = m.registers.acc.toInt := by
      simp [total, term, operandWord, Instruction.operand]
    rw [hback, ← Architecture.eq_signExtend hstart (Int.ModEq.refl _)] at hbits
    exact Int64.toBitVec_inj.mp hbits
  · rintro rfl hcells
    have hin : ∀ i ∈ is, Architecture.decimal.inRange (m.operandWord i) = true := by
      intro i hi
      exact Range.contains_iff.mpr (hcells i hi)
    exact ⟨Range.contains_iff.mp hend, hrun.modEq_total h hwrap hsums (.inr hin),
      fun hpartial => hrun.eq_total h hwrap hsums hpartial⟩

theorem sums_exact_modulo_period_round :
    ∃ m m' : Machine Buffer,
      Reached .decimal {} [105, 106, 205, 0, 0, 999, 999] m ∧
      Executes m [.add 5, .add 6, .subtract 5] m' ∧ m.total [.add 5, .add 6, .subtract 5] = 999 ∧
      m'.registers.acc = -999 ∧ m'.registers.acc.toInt ≡ 999 [ZMOD 1998] := by
  have hrun : ∃ m m₁ m₂ m' : Machine Buffer,
      load .decimal {} {} [105, 106, 205, 0, 0, 999, 999] = .ok m ∧
      step m = .ok (.add 5) m₁ ∧ step m₁ = .ok (.add 6) m₂ ∧ step m₂ = .ok (.subtract 5) m' ∧
      m.total [.add 5, .add 6, .subtract 5] = 999 ∧ m'.registers.acc = -999 ∧
      (m.operandWord (.add 5)).toInt = 999 ∧ (m.operandWord (.add 6)).toInt = 999 ∧
      (m.operandWord (.subtract 5)).toInt = 999 :=
    ⟨_, _, _, _, rfl, rfl, rfl, rfl, by decide +kernel⟩
  obtain ⟨m, m₁, m₂, m', hload, hone, htwo, hthree, htotal, hacc, hwords⟩ := hrun
  have hexecutes : Executes m [.add 5, .add 6, .subtract 5] m' :=
    .cons hone (.cons htwo (.cons hthree (.nil m')))
  obtain ⟨-, -, -, hdecimal⟩ :=
    sums_exact_modulo_period (Reached.load hload) rfl hexecutes (by decide)
  obtain ⟨-, hmod, -⟩ := hdecimal rfl (by simp [hwords])
  rw [htotal] at hmod
  exact ⟨m, m', .load hload, hexecutes, htotal, hacc, hmod⟩

end Machine

end LittleMan
