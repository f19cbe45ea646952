import Mathlib.Tactic.Common
import LittleMan.Listing
import LittleMan.Proofs.Assembly.Meaning

/-!
# When guesses are right

A word is taken for code if it looks like an instruction in a usual form. The words of assembled
code do, all but those of a halt with an operand; the words of data should not. There is no other
way to be wrong about a program.
-/

namespace LittleMan

/-- Whether `w` is the word of an instruction in a usual form. -/
def Architecture.LooksLikeCode (a : Architecture) (w : Word) : Prop :=
  w = 0 ∨ a.opcode w ∈ [1, 2, 3, 5, 6, 7, 8] ∨ a.opcode w = 9 ∧ a.operand w ∈ [1, 2, 22]

instance (a : Architecture) (w : Word) : Decidable (a.LooksLikeCode w) :=
  inferInstanceAs (Decidable (_ ∨ _))

/-! ## Usual forms -/

namespace Architecture

variable {a : Architecture} {w : Word}

theorem eq_zero_iff (a : Architecture) : w = 0 ↔ a.opcode w = 0 ∧ a.operand w = 0 := by
  constructor
  · rintro rfl
    cases a <;> exact ⟨rfl, rfl⟩
  · rintro ⟨ho, hn⟩
    rw [← a.compose_opcode_operand w, ho, hn]
    cases a <;> rfl

theorem opcode_eq_iff {o : Int64} : a.opcode w = o ↔ w.toInt / a.operandLimit = o.toInt := by
  rw [← Int64.toInt_inj, toInt_opcode]

theorem operand_eq_iff {n : UInt32} :
    a.operand w = n ↔ w.toInt % a.operandLimit = (n.toNat : Int) := by
  rw [← UInt32.toNat_inj, ← toNat_operand, Int.natCast_inj]

theorem looksLikeCode_decimal :
    decimal.LooksLikeCode w ↔ w.toInt = 0 ∨ (100 ≤ w.toInt ∧ w.toInt ≤ 399) ∨
      (500 ≤ w.toInt ∧ w.toInt ≤ 899) ∨ w.toInt ∈ [901, 902, 922] := by
  have hzero : w = 0 ↔ w.toInt = 0 := Int64.toInt_inj.symm
  simp only [LooksLikeCode, hzero, List.mem_cons, List.not_mem_nil, or_false, opcode_eq_iff,
    operand_eq_iff, operandLimit, Int64.reduceToInt, UInt32.reduceToNat]
  omega

end Architecture

namespace Instruction

theorem isCanonical_transfer (n : UInt32) :
    (transfer (.ofOperand n)).isCanonical = true ↔ n ∈ [1, 2, 22] := by
  by_cases h : n ∈ [1, 2, 22]
  · simp only [h, iff_true]
    simp only [List.mem_cons, List.not_mem_nil, or_false] at h
    rcases h with rfl | rfl | rfl <;> rfl
  · rw [Transfer.ofOperand_of_not_mem h]
    simpa [isCanonical, isKnown, Transfer.isKnown] using h

theorem isCanonical_ofParts (o : Int64) (n : UInt32) :
    (ofParts o n).isCanonical = true ↔
      o = 0 ∧ n = 0 ∨ o ∈ [1, 2, 3, 5, 6, 7, 8] ∨ o = 9 ∧ n ∈ [1, 2, 22] := by
  by_cases hhalt : o = 0
  · subst hhalt
    simp [ofParts, isCanonical, isKnown, usualOperands, operand]
  by_cases htransfer : o = 9
  · subst htransfer
    have hparts : ofParts 9 n = transfer (.ofOperand n) := rfl
    rw [hparts, isCanonical_transfer]
    simp
  by_cases ho : o ∈ [1, 2, 3, 5, 6, 7, 8]
  · simp only [ho, true_or, or_true, iff_true]
    simp only [List.mem_cons, List.not_mem_nil, or_false] at ho
    rcases ho with rfl | rfl | rfl | rfl | rfl | rfl | rfl <;> rfl
  · have hunknown : o ∉ [0, 1, 2, 3, 5, 6, 7, 8, 9] := by
      simp only [List.mem_cons, List.not_mem_nil, or_false, not_or] at ho ⊢
      tauto
    rw [ofParts_of_not_mem hunknown]
    simp only [isCanonical, isKnown, hhalt, htransfer, ho]
    simp

theorem isCanonical_decode (a : Architecture) (w : Word) :
    (decode a w).isCanonical = true ↔ a.LooksLikeCode w := by
  have hzero : w = 0 ↔ a.opcode w = 0 ∧ a.operand w = 0 := a.eq_zero_iff
  rw [decode, isCanonical_ofParts, Architecture.LooksLikeCode, hzero]

theorem isCanonical_of_isKnown {i : Instruction} (h : i.isKnown = true) :
    i.isCanonical = true ↔ ∀ n, i = halt n → n = 0 := by
  cases i with
  | halt n => simp [isCanonical, isKnown, usualOperands, operand]
  | transfer kind =>
    cases kind with
    | unknown n => cases h
    | input | output | outputChar =>
      constructor
      · intro _ n hn
        cases hn
      · intro _
        rfl
  | unknown o n => cases h
  | _ => simp [isCanonical, isKnown, usualOperands]

end Instruction

/-! ## Guesses -/

namespace Item

variable {a : Architecture}

theorem guess_encode_code {i : Instruction} (h : Instruction.decode a (i.encode a) = i) :
    guess a ((code i).encode a) = code i ↔ i.isCanonical = true := by
  simp only [guess, encode, h]
  split_ifs with hc <;> simp [hc]

theorem guess_encode_data (v : Word) :
    guess a ((data v).encode a) = data v ↔ ¬ a.LooksLikeCode v := by
  rw [← Instruction.isCanonical_decode]
  simp only [guess, encode]
  split_ifs with hc <;> simp [hc]

end Item

namespace Assembly

variable {a : Architecture} {settings : Settings} {source : String} {program : Program}

theorem Assembled.guess_code {lines : List (List String)} (h : Assembled a settings lines program)
    {i : Instruction} (hi : .code i ∈ program.items) :
    Item.guess a ((Item.code i).encode a) = .code i ↔ ∀ n, i = .halt n → n = 0 := by
  obtain ⟨e, hmakes⟩ := exists_of_forall₂ h.items.flip hi
  obtain ⟨hdecode, hknown, -⟩ := Entry.Makes.code hmakes
  rw [Item.guess_encode_code hdecode, Instruction.isCanonical_of_isKnown hknown]

theorem items_image_eq_iff (himage : program.image = program.items.map (Item.encode a)) :
    Listing.items a program.image = program.items ↔
      ∀ item ∈ program.items, Item.guess a (item.encode a) = item := by
  conv_lhs => rw [himage, Listing.items, List.map_map]; rhs; rw [← List.map_id program.items]
  exact List.map_inj_left

/-- The items of an assembled program are guessed from its image exactly if
no halt has an operand and no data looks like code. -/
theorem guesses_right_iff (h : assemble a settings source = .ok program) :
    (Listing.items a program.image = program.items ↔
      (∀ n, .code (.halt n) ∈ program.items → n = 0) ∧
        ∀ v, .data v ∈ program.items → ¬ a.LooksLikeCode v) ∧
    ∀ v, Architecture.decimal.LooksLikeCode v ↔
      v.toInt = 0 ∨ (100 ≤ v.toInt ∧ v.toInt ≤ 399) ∨ (500 ≤ v.toInt ∧ v.toInt ≤ 899) ∨
        v.toInt ∈ [901, 902, 922] := by
  refine ⟨?_, fun v => Architecture.looksLikeCode_decimal⟩
  have houtcome := assemble_outcome a settings source
  rw [h] at houtcome
  rw [items_image_eq_iff houtcome.image]
  constructor
  · intro hright
    refine ⟨?_, ?_⟩
    · intro n hn
      exact (houtcome.guess_code hn).mp (hright _ hn) n rfl
    · intro v hv
      exact (Item.guess_encode_data v).mp (hright _ hv)
  · rintro ⟨hhalt, hdata⟩ item hitem
    cases item with
    | code i =>
      rw [houtcome.guess_code hitem]
      rintro n rfl
      exact hhalt n hitem
    | data v => exact (Item.guess_encode_data v).mpr (hdata v hitem)

theorem guesses_right_iff_small :
    (∃ program, assemble .decimal {} "LDA x\nHLT\nx DAT 99\nDAT -7\nDAT 400" = .ok program ∧
      Listing.items .decimal program.image = program.items) ∧
    ∃ program, assemble .decimal {} "HLT\nDAT 0" = .ok program ∧
      Listing.items .decimal program.image ≠ program.items := by
  have hsmall : (assemble .decimal {} "LDA x\nHLT\nx DAT 99\nDAT -7\nDAT 400").toOption.map
      Program.items =
        some [.code (.load 2), .code (.halt 0), .data 99, .data (-7), .data 400] := by
    decide +kernel
  have hzero : (assemble .decimal {} "HLT\nDAT 0").toOption.map Program.items =
      some [.code (.halt 0), .data 0] := by
    decide +kernel
  constructor
  · cases hok : assemble .decimal {} "LDA x\nHLT\nx DAT 99\nDAT -7\nDAT 400" with
    | error e => rw [hok] at hsmall; cases hsmall
    | ok program =>
      rw [hok] at hsmall
      refine ⟨program, rfl, (guesses_right_iff hok).1.mpr ?_⟩
      rw [Option.some.inj hsmall]
      refine ⟨by simp, ?_⟩
      intro v hv
      obtain rfl | rfl | rfl : v = 99 ∨ v = -7 ∨ v = 400 := by simpa using hv
      all_goals decide
  · cases hok : assemble .decimal {} "HLT\nDAT 0" with
    | error e => rw [hok] at hzero; cases hzero
    | ok program =>
      rw [hok] at hzero
      refine ⟨program, rfl, mt (guesses_right_iff hok).1.mp ?_⟩
      rw [Option.some.inj hzero]
      rintro ⟨-, hdata⟩
      exact hdata 0 (by simp) (.inl rfl)

end Assembly

end LittleMan
