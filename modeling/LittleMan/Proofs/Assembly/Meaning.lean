import Mathlib.Tactic.Common
import LittleMan.Error
import LittleMan.Proofs.Encoding
import LittleMan.Proofs.Assembly.Outcome
import LittleMan.Proofs.Wrapping

/-!
# What assembled programs mean

Each entry makes one cell of the program. A data entry puts its value there, and any other entry a
word that decodes to the instruction it is written as, with the value as its operand. No value gets
lost on the way: an operand that does not fit makes no program.
-/

namespace LittleMan

/-! ## Instructions -/

namespace Instruction

variable {a : Architecture} {i : Instruction}

theorem opcode_of_isKnown (h : i.isKnown = true) : 0 ≤ i.opcode.toInt ∧ i.opcode.toInt ≤ 9 := by
  cases i with
  | unknown => cases h
  | _ => simp only [opcode]; decide

theorem wellFormed_of_isKnown (h : i.isKnown = true) (hn : i.operand.toNat < a.operandLimit) :
    i.WellFormed a := by
  refine ⟨hn, ?_⟩
  cases i with
  | transfer kind =>
    cases kind with
    | unknown => cases h
    | _ => rfl
  | unknown => cases h
  | _ => rfl

theorem fits_of_isKnown (h : i.isKnown = true) (hn : i.operand.toNat < a.operandLimit) :
    i.Fits a := by
  obtain ⟨hl, hu⟩ := opcode_of_isKnown h
  unfold Fits
  cases a <;> simp only [Architecture.operandLimit] at hn ⊢ <;> omega

theorem inRange_encode (h : i.isKnown = true) (hn : i.operand.toNat < a.operandLimit) :
    a.inRange (i.encode a) = true := by
  obtain ⟨hl, hu⟩ := opcode_of_isKnown h
  obtain ⟨-, hfits⟩ := fits_of_isKnown h hn
  have hword := Architecture.toInt_compose hfits.1 hfits.2
  rw [Architecture.inRange, Range.contains_iff, encode, hword]
  cases a with
  | decimal =>
    have hleast : Architecture.decimal.values.least.toInt = -999 := by decide
    have hgreatest : Architecture.decimal.values.greatest.toInt = 999 := by decide
    rw [hleast, hgreatest]
    simp only [Architecture.operandLimit] at hn ⊢
    omega
  | binary =>
    have hleast : Architecture.binary.values.least.toInt = -2147483648 := by decide
    have hgreatest : Architecture.binary.values.greatest.toInt = 2147483647 := by decide
    rw [hleast, hgreatest]
    simp only [Architecture.operandLimit] at hn ⊢
    omega

end Instruction

namespace Operation

theorem mnemonic_instruction (op : Operation) (n : UInt32) :
    (op.instruction n).mnemonic = some op.name := by
  cases op <;> rfl

theorem isKnown_instruction (op : Operation) (n : UInt32) :
    (op.instruction n).isKnown = true := by
  cases op <;> rfl

theorem operand_instruction {op : Operation} (h : op.isTransfer = false) (n : UInt32) :
    (op.instruction n).operand = n := by
  cases op with
  | input | output | outputChar => cases h
  | _ => rfl

theorem operand_instruction_lt (op : Operation) {n : UInt32} {a : Architecture}
    (hn : n.toNat < a.operandLimit) : (op.instruction n).operand.toNat < a.operandLimit := by
  cases op with
  | input | output | outputChar =>
    cases a <;> simp [instruction, Instruction.operand, Transfer.operand, Architecture.operandLimit]
  | _ => exact hn

end Operation

namespace Assembly

/-! ## Items -/

/-- The item and the word that a mnemonic makes of a value. Transfers have no use for the value, and
what the word of an instruction is, decoding tells. -/
def Realizes : Mnemonic → Word → Item → Word → Prop
  | .data, v, item, w => item = .data v ∧ w = v
  | .code op, v, item, _ => ∃ i, item = .code i ∧ i.mnemonic = some op.name ∧
      (op ∈ [.input, .output, .outputChar] ∨ (i.operand.toNat : Int) = v.toInt)

variable {a : Architecture} {settings : Settings}

theorem encodeOperand_ok {op : Operation} {v : Option Word} {n : UInt32}
    (h : Draft.encodeOperand a op v = .ok n) :
    n.toNat < a.operandLimit ∧ (op.isTransfer = true ∨ (n.toNat : Int) = (v.getD 0).toInt) := by
  have hpos := a.operandLimit_pos
  have hle := a.operandLimit_le
  cases v with
  | none =>
    simp only [Draft.encodeOperand] at h
    split_ifs at h
    cases h
    exact ⟨hpos, .inr rfl⟩
  | some w =>
    simp only [Draft.encodeOperand, Draft.operandField?] at h
    split_ifs at h with htransfer hw
    · cases h
      exact ⟨hpos, .inl htransfer⟩
    · cases h
      have hn : (UInt32.ofNat w.toInt.toNat).toNat = w.toInt.toNat := by
        apply UInt32.toNat_ofNat_of_lt'
        change w.toInt.toNat < 2 ^ 32
        omega
      rw [hn, Option.getD_some]
      exact ⟨by omega, .inr (by omega)⟩

theorem exists_of_makeItem {op : Operation} {v : Option Word} {item : Item}
    (h : Draft.makeItem a settings (.code op) v = .ok item) :
    ∃ n, item = .code (op.instruction n) ∧ n.toNat < a.operandLimit ∧
      (op.isTransfer = true ∨ (n.toNat : Int) = (v.getD 0).toInt) ∧
      ¬ (op = .outputChar ∧ settings.extensions = false) := by
  rw [Draft.makeItem_code] at h
  split at h
  · cases h
  · rename_i hfree
    cases hfield : Draft.encodeOperand a op v with
    | error f => rw [hfield] at h; cases h
    | ok n =>
      rw [hfield] at h
      cases h
      obtain ⟨hn, hvalue⟩ := encodeOperand_ok hfield
      refine ⟨n, rfl, hn, hvalue, ?_⟩
      rintro ⟨hop, hoff⟩
      rw [blocked_iff.mpr ⟨hop, hoff, rfl⟩] at hfree
      cases hfree

theorem realizes_of_makeItem {m : Mnemonic} {v : Option Word} {item : Item}
    (h : Draft.makeItem a settings m v = .ok item) :
    Realizes m (v.getD 0) item (item.encode a) := by
  cases m with
  | data =>
    cases h
    exact ⟨rfl, rfl⟩
  | code op =>
    obtain ⟨n, rfl, -, hvalue, -⟩ := exists_of_makeItem h
    refine ⟨_, rfl, op.mnemonic_instruction n, ?_⟩
    cases htransfer : op.isTransfer with
    | true => exact .inl (isTransfer_iff.mp htransfer)
    | false =>
      rw [Operation.operand_instruction htransfer]
      rw [htransfer] at hvalue
      exact .inr (by simpa using hvalue)

/-! ## Values -/

/-- What an operand stands for among lines of these words, or zero if there is none. -/
inductive Valued (lines : List (List String)) : Option Operand → Word → Prop
  | absent : Valued lines none 0
  | number (v : Word) : Valued lines (some (.number v)) v
  | label {name : String} {i : Nat} {v : Word} (hi : Declares lines i name)
    (hv : v.toInt = (lines.take i).countP bears) : Valued lines (some (.label name)) v

variable {lines : List (List String)}

theorem isSome_entryOf? (hl : WellFormed lines) {words : List String} (hw : words ∈ lines)
    (hb : bears words = true) (line : Nat) : (entryOf? line words).isSome = true := by
  unfold entryOf?
  rw [Option.isSome_map]
  match words with
  | [word] => exact hb
  | [first, second] =>
    cases hfirst : isMnemonic first with
    | true =>
      rw [opcodeWord, if_pos hfirst]
      exact hfirst
    | false =>
      have hsecond : isMnemonic second = true := by
        simpa [hfirst] using hl.two first second hw
      rw [opcodeWord, if_neg (by simp [hfirst])]
      exact hsecond
  | [label, opcode, operand] => exact hl.three label opcode operand hw
  | _ :: _ :: _ :: _ :: _ =>
    have hshort := hl.short _ hw
    simp only [List.length_cons] at hshort
    omega

theorem length_entriesOf (hl : WellFormed lines) :
    (entriesOf lines).length = lines.countP bears := by
  rw [← length_entriesFrom 1, entriesOf, List.reduceOption_length_eq_iff]
  intro entry hentry
  obtain ⟨⟨words, line⟩, hmem, rfl⟩ := List.mem_map.mp hentry
  obtain ⟨hzip, hbears⟩ := List.mem_filter.mp hmem
  exact isSome_entryOf? hl (List.fst_mem_of_mem_zipIdx hzip) hbears line

theorem valued_of_denotes (hl : WellFormed lines) (hsize : (entriesOf lines).length < 2 ^ 63)
    {x : Option Operand} {v : Option Word} (h : Option.Rel (Operand.Denotes lines) x v) :
    Valued lines x (v.getD 0) := by
  cases h with
  | none => exact .absent
  | some hx =>
    cases hx with
    | number => exact .number _
    | @label i name hi =>
      have hle := (List.take_sublist i lines).countP_le (p := bears)
      rw [length_entriesOf hl] at hsize
      exact .label hi (Int64.toInt_ofNat_of_lt (by omega))

theorem Entry.Makes.code {e : Entry} {i : Instruction} (h : e.Makes a settings lines (.code i)) :
    Instruction.decode a (i.encode a) = i ∧ i.isKnown = true ∧ a.inRange (i.encode a) = true ∧
      (settings.extensions = false → i ≠ .transfer .outputChar) := by
  obtain ⟨v, -, hmake⟩ := h
  cases hop : e.mnemonic with
  | data => rw [hop] at hmake; cases hmake
  | code op =>
    rw [hop] at hmake
    obtain ⟨n, hitem, hn, -, hfree⟩ := exists_of_makeItem hmake
    cases hitem
    have hknown := op.isKnown_instruction n
    have hoperand := op.operand_instruction_lt hn
    refine ⟨?_, hknown, Instruction.inRange_encode hknown hoperand, ?_⟩
    · apply Instruction.decode_encode
      · exact Instruction.fits_of_isKnown hknown hoperand
      · exact Instruction.wellFormed_of_isKnown hknown hoperand
    · intro hoff hchar
      cases op with
      | outputChar => exact hfree ⟨rfl, hoff⟩
      | _ => cases hchar

/-! ## Programs -/

theorem Assembled.length_lt {program : Program} (h : Assembled a settings lines program) :
    (entriesOf lines).length < 2 ^ 63 := by
  have hmemory : a.memorySize ≤ 65536 := by cases a <;> decide
  have hlength := h.items.length_eq
  have hsize := h.size
  rw [List.length_append] at hlength
  omega

theorem load_of_length_le {C : Type} {image : List Word} (settings : Settings) (channel : C)
    (h : image.length ≤ a.memorySize) : ∃ m, Machine.load a settings channel image = .ok m := by
  have hsize : image.length ≤ (Memory.zeros a.memorySize).size := by
    simpa [Memory.zeros, Memory.size] using h
  unfold Machine.load Memory.ofImage Memory.load
  rw [if_pos hsize]
  exact ⟨_, rfl⟩

/-- Each entry makes the item and the word of its mnemonic and the value of its operand, and the
word of an instruction decodes to it. -/
theorem assemble_meaning (a : Architecture) (settings : Settings) (source : String) :
    let lines := linesOf source
    let entries := entriesOf lines ++ Draft.trailing settings (lines.length + 1)
    (∀ program, assemble a settings source = .ok program →
      (program.items.length = program.image.length ∧ program.image.length ≤ a.memorySize ∧
        program.items.length = entries.length) ∧
      (∀ (k : Nat) (e : Entry), entries[k]? = some e → ∃ v item w, Valued lines e.operand v ∧
        program.items[k]? = some item ∧ program.image[k]? = some w ∧
        Realizes e.mnemonic v item w) ∧
      ∀ (k : Nat) (i : Instruction), program.items[k]? = some (.code i) →
        ∃ w, program.image[k]? = some w ∧ Instruction.decode a w = i ∧ i.isKnown = true ∧
          a.inRange w = true ∧ (settings.extensions = false → i ≠ .transfer .outputChar)) ∧
    ∀ (C : Type) (channel : C) (e : LittleMan.Error),
      Machine.loadSource a settings channel source = .error e ↔
        ∃ f, assemble a settings source = .error f ∧ e = .assembly f := by
  intro lines entries
  have houtcome := assemble_outcome a settings source
  constructor
  · intro program hok
    rw [hok] at houtcome
    have hsmall := houtcome.length_lt
    obtain ⟨hl, hitems, himage, hsize⟩ := houtcome
    refine ⟨⟨?_, ?_, hitems.length_eq.symm⟩, ?_, ?_⟩
    · rw [himage, List.length_map]
    · rw [himage, List.length_map]
      exact hsize
    · intro k e he
      obtain ⟨item, hitem, v, hv, hmake⟩ := getElem?_of_forall₂ hitems he
      refine ⟨v.getD 0, item, item.encode a, valued_of_denotes hl hsmall hv, hitem, ?_,
        realizes_of_makeItem hmake⟩
      rw [himage, List.getElem?_map, hitem, Option.map_some]
    · intro k i hi
      obtain ⟨e, -, hmakes⟩ := getElem?_of_forall₂ hitems.flip hi
      refine ⟨i.encode a, ?_, Entry.Makes.code hmakes⟩
      rw [himage, List.getElem?_map, hi, Option.map_some, Item.encode]
  · intro C channel e
    unfold Machine.loadSource
    cases hend : assemble a settings source with
    | error f => simp [eq_comm]
    | ok program =>
      rw [hend] at houtcome
      have hfits : program.image.length ≤ a.memorySize := by
        rw [houtcome.image, List.length_map]
        exact houtcome.size
      obtain ⟨m, hm⟩ := load_of_length_le settings channel hfits
      simp [hm, Except.mapError]

theorem assemble_meaning_leftover :
    ∃ program, assemble .decimal { extensions := false } "LDA x\nOUT x\nBRA end\nx DAT -7\nend:" =
        .ok program ∧
      program.items = [.code (.load 3), .code (.transfer .output), .code (.branch 4), .data (-7)] ∧
      ∃ w, program.image[2]? = some w ∧ Instruction.decode .decimal w = .branch 4 := by
  have hrun : (assemble .decimal { extensions := false }
      "LDA x\nOUT x\nBRA end\nx DAT -7\nend:").toOption.map Program.items =
        some [.code (.load 3), .code (.transfer .output), .code (.branch 4), .data (-7)] := by
    decide +kernel
  cases hok : assemble .decimal { extensions := false } "LDA x\nOUT x\nBRA end\nx DAT -7\nend:" with
  | error e => rw [hok] at hrun; cases hrun
  | ok program =>
    rw [hok] at hrun
    have hitems := Option.some.inj hrun
    obtain ⟨hmeaning, -⟩ := assemble_meaning .decimal { extensions := false }
      "LDA x\nOUT x\nBRA end\nx DAT -7\nend:"
    obtain ⟨-, -, hcode⟩ := hmeaning program hok
    obtain ⟨w, hw, hdecode, -⟩ := hcode 2 (.branch 4) (by rw [hitems]; rfl)
    exact ⟨program, rfl, hitems, w, hw, hdecode⟩

end Assembly

end LittleMan
