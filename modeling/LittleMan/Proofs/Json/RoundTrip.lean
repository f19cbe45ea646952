import Mathlib.Tactic.Common
import LittleMan.Json.Codec
import LittleMan.Proofs.Json.Printing

/-!
# The library's values through JSON

Instructions, items, registers and memories are read back from their JSON texts. The numbers among
them are written in full, and the limits of their types are those they are read with.
-/

namespace LittleMan

open Json (Value Printable)

/-! ## Numbers -/

theorem Json.Value.word?_integer (w : Word) : word? (.integer w.toInt) = some w :=
  Word.ofInt?_toInt w

theorem Json.Value.uint32?_integer (n : UInt32) : uint32? (.integer n.toNat) = some n := by
  have hn : (0 : Int) ≤ n.toNat ∧ (n.toNat : Int) < UInt32.size :=
    ⟨Int.natCast_nonneg _, Int.ofNat_lt.mpr n.toNat_lt⟩
  rw [uint32?, if_pos hn, Int.toNat_natCast, UInt32.ofNat_toNat]

theorem Json.Value.uint64?_integer (n : UInt64) : uint64? (.integer n.toNat) = some n := by
  have hn : (0 : Int) ≤ n.toNat ∧ (n.toNat : Int) < UInt64.size :=
    ⟨Int.natCast_nonneg _, Int.ofNat_lt.mpr n.toNat_lt⟩
  rw [uint64?, if_pos hn, Int.toNat_natCast, UInt64.ofNat_toNat]

open Json.Value (word?_integer uint32?_integer uint64?_integer)

/-! ## Shapes -/

theorem Json.printable_singleton (name : String) {v : Value} (h : Printable v) :
    Printable (.object [(name, v)]) := by
  apply Printable.object
  · simp [Json.Quoted.isText]
  · simpa using h

/-! ## Instructions -/

theorem Transfer.ofJson?_toJson (t : Transfer) : ofJson? t.toJson = some t := by
  cases t with
  | input | output | outputChar => rfl
  | unknown n => simp [ofJson?, toJson, Value.choice?, uint32?_integer]

theorem Transfer.printable_toJson (t : Transfer) : Printable t.toJson := by
  cases t with
  | input | output | outputChar => exact .string _
  | unknown n => exact Json.printable_singleton _ (.integer _)

theorem Instruction.ofJson?_toJson (i : Instruction) : ofJson? i.toJson = some i := by
  cases i with
  | transfer kind => simp [ofJson?, toJson, Value.choice?, Transfer.ofJson?_toJson]
  | unknown opcode n =>
    have hfields : ∀ v w : Value, Value.fields? ["opcode", "operand"]
        (.object [("opcode", v), ("operand", w)]) = some [some v, some w] := fun _ _ => rfl
    simp [ofJson?, toJson, Value.choice?, parts?, hfields, word?_integer, uint32?_integer]
  | _ n => simp [ofJson?, toJson, Value.choice?, uint32?_integer]

theorem Instruction.printable_toJson (i : Instruction) : Printable i.toJson := by
  cases i with
  | transfer kind => exact Json.printable_singleton _ kind.printable_toJson
  | unknown opcode n =>
    apply Json.printable_singleton
    apply Printable.object
    · simp [Json.Quoted.isText]
    · simp [Printable.integer]
  | _ n => exact Json.printable_singleton _ (.integer _)

theorem Item.ofJson?_toJson (i : Item) : ofJson? i.toJson = some i := by
  cases i with
  | code i => simp [ofJson?, toJson, Value.choice?, Instruction.ofJson?_toJson]
  | data w => simp [ofJson?, toJson, Value.choice?, word?_integer]

theorem Item.printable_toJson (i : Item) : Printable i.toJson := by
  cases i with
  | code i => exact Json.printable_singleton _ i.printable_toJson
  | data w => exact Json.printable_singleton _ (.integer _)

/-! ## Machines -/

theorem Registers.ofJson?_toJson (r : Registers) : ofJson? r.toJson = some r := by
  have hfields : ∀ u v w : Value, Value.fields? ["acc", "ip", "cir"]
      (.object [("acc", u), ("ip", v), ("cir", w)]) = some [some u, some v, some w] :=
    fun _ _ _ => rfl
  obtain ⟨acc, ip, cir⟩ := r
  cases cir with
  | none => simp [ofJson?, toJson, hfields, word?_integer, uint64?_integer, optionalWord?]
  | some w => simp [ofJson?, toJson, hfields, word?_integer, uint64?_integer, optionalWord?]

theorem Registers.printable_toJson (r : Registers) : Printable r.toJson := by
  apply Printable.object
  · simp [Json.Quoted.isText]
  · cases h : r.cir <;> simp [Printable.integer, Printable.null]

theorem Memory.ofJson?_toJson (m : Memory) : ofJson? m.toJson = some m := by
  have hfields : ∀ v : Value, Value.fields? ["cells"] (.object [("cells", v)]) = some [some v] :=
    fun _ => rfl
  have hcells : ∀ ws : List Word,
      (ws.map fun w => Value.integer w.toInt).mapM Value.word? = some ws := by
    intro ws
    induction ws with
    | nil => rfl
    | cons w ws ih => simp [word?_integer, ih]
  simp [ofJson?, toJson, hfields, hcells]

theorem Memory.printable_toJson (m : Memory) : Printable m.toJson := by
  apply Json.printable_singleton
  apply Printable.array
  simp [Printable.integer]

/-! ## Texts -/

/-- Every value is read back from its compact text, and no two values have the same text. -/
def Json.RoundTrips {α : Type} (toJson : α → Value) (ofJson? : Value → Option α) : Prop :=
  (∀ x, (parse? (compact (toJson x))).bind ofJson? = some x) ∧
    ∀ x y, compact (toJson x) = compact (toJson y) → x = y

theorem Json.roundTrips_of_printable {α : Type} {toJson : α → Value} {ofJson? : Value → Option α}
    (hprint : ∀ x, Printable (toJson x)) (hread : ∀ x, ofJson? (toJson x) = some x) :
    RoundTrips toJson ofJson? := by
  have htext : ∀ x, (parse? (compact (toJson x))).bind ofJson? = some x := by
    intro x
    rw [(hprint x).parse?_compact, Option.bind_some, hread]
  refine ⟨htext, ?_⟩
  intro x y hxy
  have hx := htext x
  rw [hxy, htext y, Option.some_inj] at hx
  exact hx.symm

/-- Values are read back from their compact texts, whatever numbers they hold, and no two of them
have the same text. -/
theorem json_round_trips :
    Json.RoundTrips Instruction.toJson Instruction.ofJson? ∧
    Json.RoundTrips Transfer.toJson Transfer.ofJson? ∧
    Json.RoundTrips Item.toJson Item.ofJson? ∧
    Json.RoundTrips Registers.toJson Registers.ofJson? ∧
    Json.RoundTrips Memory.toJson Memory.ofJson? :=
  ⟨Json.roundTrips_of_printable Instruction.printable_toJson Instruction.ofJson?_toJson,
    Json.roundTrips_of_printable Transfer.printable_toJson Transfer.ofJson?_toJson,
    Json.roundTrips_of_printable Item.printable_toJson Item.ofJson?_toJson,
    Json.roundTrips_of_printable Registers.printable_toJson Registers.ofJson?_toJson,
    Json.roundTrips_of_printable Memory.printable_toJson Memory.ofJson?_toJson⟩

end LittleMan
