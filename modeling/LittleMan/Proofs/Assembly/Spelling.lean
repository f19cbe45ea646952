import Mathlib.Data.List.Forall2
import Mathlib.Tactic.Common
import LittleMan.Instruction
import LittleMan.Proofs.Assembly.Stages
import LittleMan.Proofs.Encoding
import LittleMan.Proofs.Text.Line
import LittleMan.Proofs.Text.Numeral

/-!
# How items are spelled

An item that has a mnemonic is written as that mnemonic and perhaps a number. The assembler makes
the item again from these words, on whatever line they stand.
-/

namespace LittleMan

/-- An item that has a mnemonic, and an operand that can be written behind it. -/
def Item.Writable (a : Architecture) : Item → Prop
  | code i => i.mnemonic.isSome ∧ i.operand.toNat < a.operandLimit
  | data _ => True

instance (a : Architecture) : (item : Item) → Decidable (item.Writable a)
  | .code _ => inferInstanceAs (Decidable (_ ∧ _))
  | .data _ => inferInstanceAs (Decidable True)

theorem Instruction.isSome_mnemonic {i : Instruction} (h : i.isKnown) : i.mnemonic.isSome := by
  cases i with
  | transfer kind => cases kind <;> first | rfl | cases h
  | unknown o n => cases h
  | _ => rfl

theorem Item.writable_guess (a : Architecture) (w : Word) : (guess a w).Writable a := by
  unfold guess
  dsimp only
  split
  · rename_i hc
    exact ⟨Instruction.isSome_mnemonic (Bool.and_eq_true_iff.mp hc).1,
      Instruction.operand_decode_lt a w⟩
  · trivial

namespace Assembly

/-! ## Items as they are written -/

def spelling (m : Mnemonic) : Option Word → String
  | none => m.name
  | some w => m.name ++ " " ++ w.text

theorem operandField?_ofNat {a : Architecture} {n : UInt32} (h : n.toNat < a.operandLimit) :
    Draft.operandField? a (Int64.ofNat n.toNat) = some n := by
  have hle := a.operandLimit_le
  have hn : (Int64.ofNat n.toNat).toInt = n.toNat := Int64.toInt_ofNat_of_lt (by omega)
  unfold Draft.operandField?
  rw [hn, if_pos (by omega)]
  simp

theorem makeItem_number {a : Architecture} {settings : Settings} {op : Operation} {n : UInt32}
    (ht : op.isTransfer = false) (h : n.toNat < a.operandLimit) :
    Draft.makeItem a settings (.code op) (some (Int64.ofNat n.toNat)) =
      .ok (.code (op.instruction n)) := by
  have hx : op.extension = none := by cases op <;> first | rfl | cases ht
  simp only [Draft.makeItem_code, Draft.encodeOperand, hx, ht, operandField?_ofNat h]
  rfl

theorem makeItem_alone {a : Architecture} {settings : Settings} {op : Operation}
    (hr : op.requiresOperand = false) (he : settings.extensions) :
    Draft.makeItem a settings (.code op) none = .ok (.code (op.instruction 0)) := by
  have hx : op.extension.filter (!settings.allows ·) = none := by
    cases op <;> simp [Operation.extension, Settings.allows, he]
  simp only [Draft.makeItem_code, Draft.encodeOperand, hx, hr]
  rfl

theorem spelling_number {a : Architecture} {settings : Settings} {n : UInt32} (op : Operation)
    (hi : (op.instruction n).hidesOperand = false) (h : n.toNat < a.operandLimit) :
    ∃ m v, (op.instruction n).text = spelling m v ∧
      Draft.makeItem a settings m v = .ok (.code (op.instruction n)) := by
  have hle := a.operandLimit_le
  have ht : op.isTransfer = false := by cases op <;> first | rfl | cases hi
  have htext : Word.text (Int64.ofNat n.toNat) = Numeral.ofNat n.toNat :=
    Word.text_ofNat (by omega)
  have hname : (op.instruction n).mnemonic = some op.name := by cases op <;> rfl
  have hoperand : (op.instruction n).operand = n := by cases op <;> first | rfl | cases ht
  refine ⟨.code op, some (Int64.ofNat n.toNat), ?_, makeItem_number ht h⟩
  simp [Instruction.text, hname, hi, hoperand, spelling, htext, Mnemonic.name]

theorem spelling_instruction {a : Architecture} {settings : Settings} {i : Instruction}
    (hm : i.mnemonic.isSome) (h : i.operand.toNat < a.operandLimit) (he : settings.extensions) :
    ∃ m v, i.text = spelling m v ∧ Draft.makeItem a settings m v = .ok (.code i) := by
  cases i with
  | halt n =>
    by_cases hn : n = 0
    · subst hn
      exact ⟨.code .halt, none, rfl, makeItem_alone rfl he⟩
    · exact spelling_number .halt (by simpa [Operation.instruction, Instruction.hidesOperand]) h
  | add n => exact spelling_number .add rfl h
  | subtract n => exact spelling_number .subtract rfl h
  | store n => exact spelling_number .store rfl h
  | load n => exact spelling_number .load rfl h
  | branch n => exact spelling_number .branch rfl h
  | branchIfZero n => exact spelling_number .branchIfZero rfl h
  | branchIfPositive n => exact spelling_number .branchIfPositive rfl h
  | transfer kind =>
    cases kind with
    | input => exact ⟨.code .input, none, rfl, makeItem_alone rfl he⟩
    | output => exact ⟨.code .output, none, rfl, makeItem_alone rfl he⟩
    | outputChar => exact ⟨.code .outputChar, none, rfl, makeItem_alone rfl he⟩
    | unknown n => cases hm
  | unknown o n => cases hm

theorem spelling_item {a : Architecture} {settings : Settings} {item : Item} (h : item.Writable a)
    (he : settings.extensions) :
    ∃ m v, item.text = spelling m v ∧ Draft.makeItem a settings m v = .ok item := by
  cases item with
  | code i => exact spelling_instruction h.1 h.2 he
  | data w =>
    refine ⟨.data, some w, ?_, rfl⟩
    show "DAT " ++ w.text = "DAT" ++ " " ++ w.text
    rfl

/-! ## The words and characters of a spelling -/

theorem plain_name {m : Mnemonic} {c : Char} (h : c ∈ m.name.toList) : Text.Plain c := by
  have hall : m.name.toList.all (fun c => decide (Text.Plain c)) = true := by
    cases m with
    | data => decide
    | code op => cases op <;> decide
  exact of_decide_eq_true (List.all_eq_true.mp hall c h)

theorem words_spelling (m : Mnemonic) (v : Option Word) :
    Text.words (spelling m v).toList = m.name.toList :: (v.map fun w => w.text.toList).toList := by
  have hname : Text.words m.name.toList = [m.name.toList] := by
    apply Text.words_singleton
    · cases m with
      | data => decide
      | code op => cases op <;> decide
    · exact fun c hc => (plain_name hc).isBlank
  cases v with
  | none => exact hname
  | some w =>
    have hw : Text.words w.text.toList = [w.text.toList] :=
      Text.words_singleton _ w.toList_text_ne_nil fun c hc => (Numeral.plain_ofInt hc).isBlank
    have hlist : (spelling m (some w)).toList = m.name.toList ++ ' ' :: w.text.toList := by
      simp [spelling]
    rw [hlist, Text.words_append_blank _ _ ' ' (by decide), hname, hw]
    rfl

theorem not_mem_spelling {m : Mnemonic} {v : Option Word} {c : Char} (hc : ¬ Text.Plain c)
    (hb : c ≠ ' ') : c ∉ (spelling m v).toList := by
  have hname : c ∉ m.name.toList := fun h => hc (plain_name h)
  cases v with
  | none => exact hname
  | some w =>
    have hw : c ∉ w.text.toList := fun h => hc (Numeral.plain_ofInt h)
    simp [spelling, hname, hw, hb]

theorem not_mem_text {a : Architecture} {item : Item} {c : Char} (h : item.Writable a)
    (hc : ¬ Text.Plain c) (hb : c ≠ ' ') : c ∉ item.text.toList := by
  obtain ⟨m, v, htext, -⟩ := spelling_item h (show ({} : Settings).extensions from rfl)
  rw [htext]
  exact not_mem_spelling hc hb

/-! ## Lines that spell items -/

def Spells (a : Architecture) (settings : Settings) (words : List String) (item : Item) : Prop :=
  ∃ m v, words = m.name :: (v.map Word.text).toList ∧ Draft.makeItem a settings m v = .ok item

theorem spells_words {a : Architecture} {settings : Settings} {item : Item} (h : item.Writable a)
    (he : settings.extensions) :
    Spells a settings ((Text.words item.text.toList).map String.ofList) item := by
  obtain ⟨m, v, htext, hitem⟩ := spelling_item h he
  refine ⟨m, v, ?_, hitem⟩
  rw [htext, words_spelling]
  cases v <;> simp

theorem ofWord?_name (m : Mnemonic) : Mnemonic.ofWord? m.name = some m := by
  cases m with
  | data => rfl
  | code op => cases op <;> rfl

theorem parseLine_spelling {line : Nat} {text : List Char} {m : Mnemonic} {v : Option Word}
    {d : Draft} (h : wordsOf text = m.name :: (v.map Word.text).toList) (hq : d.queued = []) :
    Draft.parseLine line text d =
      .ok () { d with entries := d.entries.push ⟨line, m, v.map .number, []⟩ } := by
  have hm : isMnemonic m.name := by simp [isMnemonic, ofWord?_name]
  unfold Draft.parseLine
  rw [h]
  cases v with
  | none =>
    simp only [Option.map_none, Option.toList_none, Statement.ofWords, hm, if_true]
    simp only [Draft.addStatement, ofWord?_name]
    exact Draft.addEntry_of_nil hq
  | some w =>
    have hw : Operand.ofWord w.text = .number w := by
      unfold Operand.ofWord
      rw [Word.read?_text]
    simp only [Option.map_some, Option.toList_some, Statement.ofWords, hm, if_true]
    simp only [Draft.addStatement, ofWord?_name, Option.map_some, hw]
    exact Draft.addEntry_of_nil hq

theorem parseLine_spells {a : Architecture} {text : List Char} {item : Item} {d : Draft}
    (line : Nat) (h : Spells a d.settings (wordsOf text) item) (hq : d.queued = []) :
    ∃ e, Draft.parseLine line text d = .ok () { d with entries := d.entries.push e } ∧
      Draft.generateEntry a d.settings e = .ok item := by
  obtain ⟨m, v, hwords, hitem⟩ := h
  refine ⟨_, parseLine_spelling hwords hq, ?_⟩
  have hvalue : Draft.operandValue (v.map Operand.number) = .ok v := by cases v <;> rfl
  unfold Draft.generateEntry
  rw [hvalue]
  show (Draft.makeItem a d.settings m v).mapError _ = _
  rw [hitem]
  rfl

theorem parseLines_spells {a : Architecture} {texts : List (List Char)} {items : List Item}
    {d : Draft} (line : Nat)
    (h : List.Forall₂ (fun text item => Spells a d.settings (wordsOf text) item) texts items)
    (hq : d.queued = []) :
    ∃ es : List Entry,
      Draft.parseLines line texts d = .ok () { d with entries := d.entries ++ es } ∧
      es.mapM (Draft.generateEntry a d.settings) = .ok items := by
  induction texts generalizing line items d with
  | nil =>
    cases h
    exact ⟨[], by simp [Draft.parseLines]; rfl, rfl⟩
  | cons text texts ih =>
    cases h with
    | cons hfirst hrest =>
      obtain ⟨e, hline, hitem⟩ := parseLine_spells line hfirst hq
      obtain ⟨es, hlines, hitems⟩ :=
        @ih _ { d with entries := d.entries.push e } (line + 1) hrest hq
      refine ⟨e :: es, ?_, ?_⟩
      · rw [Draft.parseLines_cons_of_ok hline, hlines]
        simp
      · rw [List.mapM_cons, hitem]
        dsimp only at hitems
        simp [hitems]
        rfl

end Assembly

end LittleMan
