import Mathlib.Algebra.Group.Int.Defs
import Mathlib.Algebra.Group.Nat.Defs
import Mathlib.Tactic.Common
import LittleMan.Instruction

/-!
# Words and their parts

The opcode and the operand of a word are its quotient and its remainder by the number of operands,
and the word is put together again from them. So no word is lost by decoding it, and an instruction
comes back from its word exactly if it could have come from one.
-/

namespace LittleMan

namespace Architecture

/-! ## Opcodes and operands -/

theorem operandLimit_pos (a : Architecture) : 0 < a.operandLimit := by
  cases a <;> decide

theorem operandLimit_le (a : Architecture) : a.operandLimit ≤ 2 ^ 27 := by
  cases a <;> decide

theorem toInt_opcode (a : Architecture) (w : Word) :
    (a.opcode w).toInt = w.toInt / a.operandLimit := by
  have hl := w.le_toInt
  have hu := w.toInt_lt
  unfold opcode
  apply Int64.toInt_ofInt_of_le
  · cases a <;> simp only [operandLimit] <;> omega
  · cases a <;> simp only [operandLimit] <;> omega

theorem toNat_operand (a : Architecture) (w : Word) :
    ((a.operand w).toNat : Int) = w.toInt % a.operandLimit := by
  have hpos := a.operandLimit_pos
  have hle := a.operandLimit_le
  have hlo : 0 ≤ w.toInt % a.operandLimit := Int.emod_nonneg _ (by omega)
  have hhi : w.toInt % a.operandLimit < a.operandLimit := Int.emod_lt_of_pos _ (by omega)
  unfold operand
  rw [UInt32.toNat_ofNat_of_lt' (by rw [show UInt32.size = 2 ^ 32 from rfl]; omega)]
  exact Int.toNat_of_nonneg hlo

theorem operand_lt (a : Architecture) (w : Word) : (a.operand w).toNat < a.operandLimit := by
  have hpos := a.operandLimit_pos
  have h := a.toNat_operand w
  have hhi : w.toInt % a.operandLimit < a.operandLimit := Int.emod_lt_of_pos _ (by omega)
  omega

theorem compose_opcode_operand (a : Architecture) (w : Word) :
    a.compose (a.opcode w) (a.operand w) = w := by
  unfold compose
  rw [toInt_opcode, toNat_operand, Int.mul_comm, Int.mul_ediv_add_emod, Int64.ofInt_toInt]

theorem toInt_compose {a : Architecture} {o : Int64} {n : UInt32}
    (hl : -2 ^ 63 ≤ o.toInt * a.operandLimit + n.toNat)
    (hu : o.toInt * a.operandLimit + n.toNat < 2 ^ 63) :
    (a.compose o n).toInt = o.toInt * a.operandLimit + n.toNat := by
  unfold compose
  exact Int64.toInt_ofInt_of_le hl hu

theorem split_compose {a : Architecture} {o : Int64} {n : UInt32}
    (hl : -2 ^ 63 ≤ o.toInt * a.operandLimit + n.toNat)
    (hu : o.toInt * a.operandLimit + n.toNat < 2 ^ 63) (hn : n.toNat < a.operandLimit) :
    a.opcode (a.compose o n) = o ∧ a.operand (a.compose o n) = n := by
  have hpos := a.operandLimit_pos
  have hn' : (n.toNat : Int) < a.operandLimit := by omega
  have hword := toInt_compose hl hu
  constructor
  · apply Int64.toInt_inj.mp
    rw [toInt_opcode, hword, Int.add_comm, Int.add_mul_ediv_right _ _ (by omega),
      Int.ediv_eq_zero_of_lt (by omega) hn', Int.zero_add]
  · have h := a.toNat_operand (a.compose o n)
    rw [hword, Int.add_comm, Int.add_mul_emod_self_right, Int.emod_eq_of_lt (by omega) hn'] at h
    apply UInt32.toNat_inj.mp
    omega

end Architecture

/-! ## Instructions -/

theorem Transfer.operand_ofOperand (n : UInt32) : (Transfer.ofOperand n).operand = n := by
  unfold ofOperand
  split_ifs with h1 h2 h3
  · rw [h1]; rfl
  · rw [h2]; rfl
  · rw [h3]; rfl
  · rfl

theorem Transfer.ofOperand_of_not_mem {n : UInt32} (hn : n ∉ [1, 2, 22]) :
    ofOperand n = unknown n := by
  simp only [List.mem_cons, List.not_mem_nil, or_false, not_or] at hn
  simp [ofOperand, hn]

namespace Instruction

theorem ofParts_of_not_mem {o : Int64} (ho : o ∉ [0, 1, 2, 3, 5, 6, 7, 8, 9]) (n : UInt32) :
    ofParts o n = unknown o n := by
  simp only [List.mem_cons, List.not_mem_nil, or_false, not_or] at ho
  simp [ofParts, ho]

theorem opcode_ofParts (o : Int64) (n : UInt32) : (ofParts o n).opcode = o := by
  unfold ofParts
  split_ifs <;> simp_all [opcode]

theorem operand_ofParts (o : Int64) (n : UInt32) : (ofParts o n).operand = n := by
  unfold ofParts
  split_ifs <;> simp [operand, Transfer.operand_ofOperand]

theorem encode_decode (a : Architecture) (w : Word) : (decode a w).encode a = w := by
  unfold encode decode
  rw [opcode_ofParts, operand_ofParts, a.compose_opcode_operand]

theorem operand_decode_lt (a : Architecture) (w : Word) :
    (decode a w).operand.toNat < a.operandLimit := by
  unfold decode
  rw [operand_ofParts]
  exact a.operand_lt w

/-! ## Well-formed instructions -/

/-- Neither the opcode in its place nor its sum with the operand is too large for a word. -/
def Fits (a : Architecture) (i : Instruction) : Prop :=
  (-2 ^ 63 ≤ i.opcode.toInt * a.operandLimit ∧ i.opcode.toInt * a.operandLimit < 2 ^ 63) ∧
    -2 ^ 63 ≤ i.opcode.toInt * a.operandLimit + i.operand.toNat ∧
    i.opcode.toInt * a.operandLimit + i.operand.toNat < 2 ^ 63

instance (a : Architecture) (i : Instruction) : Decidable (i.Fits a) :=
  inferInstanceAs (Decidable (_ ∧ _))

/-- Whether an instruction passes for one without a meaning although its parts have one. -/
def isDisguised : Instruction → Bool
  | transfer (.unknown n) => n ∈ [1, 2, 22]
  | unknown o _ => o ∈ [0, 1, 2, 3, 5, 6, 7, 8, 9]
  | _ => false

/-- The operand does not spill over, and the constructor is the one that belongs to the parts. -/
def WellFormed (a : Architecture) (i : Instruction) : Prop :=
  i.operand.toNat < a.operandLimit ∧ i.isDisguised = false

instance (a : Architecture) (i : Instruction) : Decidable (i.WellFormed a) :=
  inferInstanceAs (Decidable (_ ∧ _))

theorem fits_decode_iff (a : Architecture) (w : Word) :
    (decode a w).Fits a ↔ (a = .decimal → -9223372036854775800 ≤ w.toInt) := by
  have hl := w.le_toInt
  have hu := w.toInt_lt
  unfold Fits decode
  rw [opcode_ofParts, operand_ofParts, a.toInt_opcode, a.toNat_operand]
  cases a with
  | decimal =>
    simp only [Architecture.operandLimit, true_imp_iff]
    omega
  | binary =>
    -- The least word is a multiple of the number of operands here.
    simp only [Architecture.operandLimit, reduceCtorEq, false_imp_iff, iff_true]
    omega

theorem ofParts_eq_self {i : Instruction} (h : i.isDisguised = false) :
    ofParts i.opcode i.operand = i := by
  cases i with
  | transfer kind =>
    cases kind with
    | unknown n =>
      have hn : ¬ n = 1 ∧ ¬ n = 2 ∧ ¬ n = 22 := by simpa [isDisguised] using h
      simp [ofParts, opcode, operand, Transfer.operand, Transfer.ofOperand, hn]
    | input | output | outputChar => rfl
  | unknown o n =>
    simp only [isDisguised, List.mem_cons, List.not_mem_nil, or_false, decide_eq_false_iff_not,
      not_or] at h
    simp [ofParts, opcode, operand, h]
  | halt n | add n | subtract n | store n | load n => rfl
  | branch n | branchIfZero n | branchIfPositive n => rfl

theorem isDisguised_ofOperand (n : UInt32) : (transfer (.ofOperand n)).isDisguised = false := by
  unfold Transfer.ofOperand
  split_ifs with h1 h2 h3
  · rfl
  · rfl
  · rfl
  · simp [isDisguised, h1, h2, h3]

theorem isDisguised_ofParts (o : Int64) (n : UInt32) : (ofParts o n).isDisguised = false := by
  by_cases h : o ∈ [0, 1, 2, 3, 5, 6, 7, 8, 9]
  · simp only [List.mem_cons, List.not_mem_nil, or_false] at h
    rcases h with rfl | rfl | rfl | rfl | rfl | rfl | rfl | rfl | rfl
    any_goals rfl
    exact isDisguised_ofOperand n
  · rw [ofParts_of_not_mem h]
    simpa [isDisguised] using h

theorem wellFormed_decode (a : Architecture) (w : Word) : (decode a w).WellFormed a :=
  ⟨operand_decode_lt a w, isDisguised_ofParts _ _⟩

theorem decode_encode {a : Architecture} {i : Instruction} (hf : i.Fits a) (h : i.WellFormed a) :
    decode a (i.encode a) = i := by
  obtain ⟨hoperand, hdisguised⟩ := h
  obtain ⟨ho, hn⟩ := Architecture.split_compose hf.2.1 hf.2.2 hoperand
  unfold decode encode
  rw [ho, hn, ofParts_eq_self hdisguised]

/-- From a word to an instruction and back is the way home, and from an instruction to a word and
back is for the well-formed ones. -/
theorem decode_encode_inverse (a : Architecture) :
    (∀ w, (decode a w).encode a = w ∧
      ((decode a w).Fits a ↔ (a = .decimal → -9223372036854775800 ≤ w.toInt))) ∧
    (∀ i : Instruction, i.Fits a → (decode a (i.encode a) = i ↔ i.WellFormed a)) ∧
    Function.Injective (decode a) ∧
    ∀ w, (decode a w).WellFormed a := by
  refine ⟨?_, ?_, ?_, wellFormed_decode a⟩
  · intro w
    exact ⟨encode_decode a w, fits_decode_iff a w⟩
  · intro i hf
    constructor
    · intro h
      rw [← h]
      exact wellFormed_decode a _
    · exact decode_encode hf
  · exact Function.LeftInverse.injective (g := encode a) (encode_decode a)

theorem decode_encode_inverse_edges :
    decode .binary ((unknown (-68719476736) 134217727).encode .binary) =
        unknown (-68719476736) 134217727 ∧
      decode .decimal ((transfer (.unknown 22)).encode .decimal) ≠ transfer (.unknown 22) ∧
      decode .decimal ((halt 100).encode .decimal) ≠ halt 100 ∧
      ¬ (decode .decimal Int64.minValue).Fits .decimal := by
  refine ⟨?_, ?_, ?_, ?_⟩
  · exact ((decode_encode_inverse .binary).2.1 _ (by decide)).mpr (by decide)
  · exact mt ((decode_encode_inverse .decimal).2.1 _ (by decide)).mp (by decide)
  · exact mt ((decode_encode_inverse .decimal).2.1 _ (by decide)).mp (by decide)
  · exact mt ((decode_encode_inverse .decimal).1 Int64.minValue).2.mp (by decide)

end Instruction

/-! ## Items -/

theorem Item.encode_guess (a : Architecture) (w : Word) : (Item.guess a w).encode a = w := by
  unfold Item.guess
  dsimp only
  split
  · exact Instruction.encode_decode a w
  · rfl

end LittleMan
