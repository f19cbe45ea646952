import Mathlib.Algebra.Group.Int.Defs
import Mathlib.Algebra.Group.Nat.Defs
import Mathlib.Tactic.Common
import LittleMan.Proofs.Text.Line
import LittleMan.Architecture

/-!
# Numerals read back

A numeral that was written is read as the number it was written for. The key fact is that
`Nat.toDigits` puts the last digit on the right, which is where `appendDigit?` takes it up.
-/

namespace LittleMan

namespace Numeral

/-! ## Digits -/

theorem toList_ofNat (n : Nat) : (ofNat n).toList = Nat.toDigits 10 n := by
  unfold ofNat
  rw [String.toList_ofList]

theorem appendDigit?_digitChar (n d : Nat) (h : d < 10) :
    appendDigit? n (Nat.digitChar d) = some (10 * n + d) := by
  unfold appendDigit?
  rw [if_pos (by rw [Nat.isDigit_digitChar]; simpa using h), Nat.toNat_digitChar_of_lt_ten h]
  simp

theorem foldlM_toDigits (n : Nat) : (Nat.toDigits 10 n).foldlM appendDigit? 0 = some n := by
  induction n using Nat.strongRecOn with
  | _ n ih =>
    rw [Nat.toDigits_eq_if (by omega)]
    split
    · rename_i hn
      simp [appendDigit?_digitChar 0 n hn]
    · rename_i hn
      have hd : n % 10 < 10 := Nat.mod_lt _ (by omega)
      rw [List.foldlM_append, ih (n / 10) (by omega)]
      simp only [Option.bind_eq_bind, Option.bind_some, List.foldlM_cons, List.foldlM_nil,
        appendDigit?_digitChar _ _ hd, Option.pure_def, Option.some.injEq]
      omega

theorem digits?_toDigits (n : Nat) : digits? (Nat.toDigits 10 n) = some n := by
  unfold digits?
  split
  · rename_i hnil
    exact absurd hnil Nat.toDigits_ne_nil
  · exact foldlM_toDigits n

theorem plain_ofNat {n : Nat} {c : Char} (h : c ∈ (ofNat n).toList) : Text.Plain c := by
  rw [toList_ofNat] at h
  exact Text.plain_of_isDigit (Nat.isDigit_of_mem_toDigits (by omega) (by omega) h)

/-! ## Signs -/

theorem integer?_toDigits (n : Nat) : integer? (Nat.toDigits 10 n) = some (n : Int) := by
  have hdigit : ∀ c ∈ Nat.toDigits 10 n, c.isDigit := fun c hc =>
    Nat.isDigit_of_mem_toDigits (by omega) (by omega) hc
  have hread := digits?_toDigits n
  generalize Nat.toDigits 10 n = ds at hdigit hread
  unfold integer? natural?
  split
  · exact absurd (hdigit '-' List.mem_cons_self) (by decide)
  · split
    · exact absurd (hdigit '+' List.mem_cons_self) (by decide)
    · rw [hread]; rfl

theorem integer?_ofInt (i : Int) : integer? (ofInt i).toList = some i := by
  cases i with
  | ofNat n =>
    unfold ofInt
    rw [toList_ofNat, integer?_toDigits]
    rfl
  | negSucc n =>
    unfold ofInt
    rw [String.toList_append, toList_ofNat]
    simp only [String.reduceToList, List.singleton_append, integer?, digits?_toDigits]
    rfl

theorem plain_ofInt {i : Int} {c : Char} (h : c ∈ (ofInt i).toList) : Text.Plain c := by
  cases i with
  | ofNat n => exact plain_ofNat h
  | negSucc n =>
    unfold ofInt at h
    rw [String.toList_append, List.mem_append] at h
    rcases h with h | h
    · obtain rfl : c = '-' := by simpa using h
      decide
    · exact plain_ofNat h

/-! ## What numerals are made of -/

theorem isDigit_of_foldlM {cs : List Char} {k n : Nat} (h : cs.foldlM appendDigit? k = some n) :
    ∀ c ∈ cs, c.isDigit = true := by
  induction cs generalizing k with
  | nil => simp
  | cons c cs ih =>
    rw [List.foldlM_cons] at h
    obtain ⟨k', hc, hrest⟩ := Option.bind_eq_some_iff.mp h
    have hdigit : c.isDigit = true := by
      by_contra hnot
      simp [appendDigit?, hnot] at hc
    simpa [hdigit] using ih hrest

theorem isDigit_of_digits? {cs : List Char} {n : Nat} (h : digits? cs = some n) :
    cs ≠ [] ∧ ∀ c ∈ cs, c.isDigit = true := by
  unfold digits? at h
  split at h
  · cases h
  · rename_i hne
    exact ⟨hne, isDigit_of_foldlM h⟩

theorem mem_of_integer? {cs : List Char} {i : Int} (h : integer? cs = some i) :
    cs ≠ [] ∧ ∀ c ∈ cs, c.isDigit = true ∨ c = '+' ∨ c = '-' := by
  unfold integer? at h
  split at h
  · obtain ⟨m, hm, -⟩ := Option.map_eq_some_iff.mp h
    obtain ⟨n, hn, -⟩ := Option.bind_eq_some_iff.mp hm
    have hdigits := (isDigit_of_digits? hn).2
    simpa using fun c hc => Or.inl (hdigits c hc)
  · obtain ⟨n, hn, -⟩ := Option.map_eq_some_iff.mp h
    unfold natural? at hn
    split at hn
    · have hdigits := (isDigit_of_digits? hn).2
      simpa using fun c hc => Or.inl (hdigits c hc)
    · obtain ⟨hne, hdigits⟩ := isDigit_of_digits? hn
      exact ⟨hne, fun c hc => .inl (hdigits c hc)⟩

end Numeral

/-! ## Words -/

namespace Word

theorem ofInt?_eq_some {i : Int} (hl : -2 ^ 63 ≤ i) (hu : i < 2 ^ 63) :
    ofInt? i = some (Int64.ofInt i) := by
  unfold ofInt?
  rw [if_pos]
  rw [Int64.toInt_minValue, Int64.toInt_maxValue]
  omega

theorem ofInt?_toInt (w : Word) : ofInt? w.toInt = some w := by
  rw [ofInt?_eq_some w.le_toInt w.toInt_lt, Int64.ofInt_toInt]

theorem read?_text (w : Word) : read? w.text.toList = some w := by
  unfold read? text
  rw [Numeral.integer?_ofInt, Option.bind_some, ofInt?_toInt]

theorem toList_text_ne_nil (w : Word) : w.text.toList ≠ [] := by
  intro h
  have hread := read?_text w
  rw [h] at hread
  simp [read?, Numeral.integer?, Numeral.natural?, Numeral.digits?] at hread

theorem text_ofNat {n : Nat} (h : n < 2 ^ 63) : text (Int64.ofNat n) = Numeral.ofNat n := by
  unfold text
  rw [Int64.toInt_ofNat_of_lt h]
  rfl

end Word

end LittleMan
