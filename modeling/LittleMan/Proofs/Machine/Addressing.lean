import Mathlib.Data.Int.ModEq
import Mathlib.Tactic.Common
import LittleMan.Proofs.Machine.Transition

/-!
# Addresses and cells

With address wrapping, every address names a cell, and two of them name the same cell exactly if
they differ by a multiple of the memory size. Without it, the addresses of cells are their indices,
and all others are refused.
-/

namespace LittleMan.Machine

variable {C : Type} {m : Machine C} {x y : Int} {access : Access} {v : Word}

/-! ## Indices -/

theorem indexOf_eq_iff {k : Nat} (hpos : 0 < m.memory.size) :
    k = m.indexOf x ↔ k < m.memory.size ∧ (k : Int) ≡ x [ZMOD m.memory.size] := by
  have hlo := Int.emod_nonneg x (b := m.memory.size) (by omega)
  have hhi := Int.emod_lt_of_pos x (b := m.memory.size) (by omega)
  unfold indexOf Int.ModEq
  constructor
  · rintro rfl
    rw [Int.toNat_of_nonneg hlo, Int.emod_emod_of_dvd x (Int.dvd_refl _)]
    omega
  · rintro ⟨hlt, hmod⟩
    rw [Int.emod_eq_of_lt (by omega) (by omega)] at hmod
    omega

theorem indexOf_eq_indexOf (hpos : 0 < m.memory.size) :
    m.indexOf x = m.indexOf y ↔ x ≡ y [ZMOD m.memory.size] := by
  have hx := Int.emod_nonneg x (b := m.memory.size) (by omega)
  have hy := Int.emod_nonneg y (b := m.memory.size) (by omega)
  unfold indexOf Int.ModEq
  omega

theorem locate_of_admits (h : m.Admits x) : m.locate x access = .ok (m.indexOf x) :=
  locate_eq_ok.mpr ⟨h, rfl⟩

theorem locate_of_not_admits (h : ¬ m.Admits x) :
    m.locate x access = .error (.outOfBounds access x m.memory.size) :=
  locate_eq_error.mpr ⟨h, rfl⟩

/-! ## Operations -/

theorem get_of_admits (hpos : 0 < m.memory.size) (h : m.Admits x) :
    ∃ w, m.get x = .ok w ∧ m.memory.cells[m.indexOf x]? = some w := by
  have hw : m.memory.cells[m.indexOf x]? = some _ :=
    Array.getElem?_eq_getElem (indexOf_lt hpos x)
  exact ⟨_, get_eq_ok.mpr ⟨_, locate_of_admits h, hw⟩, hw⟩

theorem set_of_admits (hpos : 0 < m.memory.size) (h : m.Admits x) (v : Word) :
    set x v m = .ok () (m.putCell (m.indexOf x) (m.normalize v)) :=
  set_eq_ok.mpr ⟨_, indexOf_lt hpos x, locate_of_admits h, rfl⟩

theorem jump_of_admits (h : m.Admits x) : jump x m = .ok () (m.moveTo (m.indexOf x)) :=
  jump_eq_ok.mpr ⟨_, locate_of_admits h, rfl⟩

@[simp] theorem indexOf_putCell (k : Nat) (w : Word) : (m.putCell k w).indexOf y = m.indexOf y := by
  simp [indexOf, putCell]

@[simp] theorem admits_putCell (k : Nat) (w : Word) : (m.putCell k w).Admits y ↔ m.Admits y := by
  simp [Admits, putCell]

theorem get_putCell (hpos : 0 < m.memory.size) (hy : m.Admits y) (x : Int) (w : Word) :
    ∃ old, m.get y = .ok old ∧
      (m.putCell (m.indexOf x) w).get y =
        .ok (if x ≡ y [ZMOD m.memory.size] then w else old) := by
  obtain ⟨old, hget, hold⟩ := get_of_admits hpos hy
  have hadmits : (m.putCell (m.indexOf x) w).Admits y := by simpa using hy
  refine ⟨old, hget, get_eq_ok.mpr ⟨_, locate_of_admits hadmits, ?_⟩⟩
  rw [indexOf_putCell, cells_putCell (indexOf_lt hpos x), hold]
  by_cases hxy : x ≡ y [ZMOD m.memory.size]
  · have hindex := (indexOf_eq_indexOf hpos).mpr hxy
    rw [if_pos hindex.symm, if_pos hxy]
  · have hindex := mt (indexOf_eq_indexOf hpos).mp hxy
    rw [if_neg (Ne.symm hindex), if_neg hxy]

variable [Channel C]

/-- With address wrapping, every address is taken, and those of the same cell are congruent. Without
it, exactly the addresses from zero up to the memory size are taken. -/
theorem load_store_law {a : Architecture} {settings : Settings} {image : List Word}
    (h : Reached a settings image m) (x y : Int) (v : Word) :
    let size := m.memory.size
    (settings.wrapMemory = true →
      (∃ m' old, set x v m = .ok () m' ∧ m' = { m with memory := m'.memory } ∧
        m.get y = .ok old ∧
        m'.get y = .ok (if x ≡ y [ZMOD size] then m.normalize v else old)) ∧
      ∃ ip : UInt64, jump x m = .ok () { m with registers := { m.registers with ip } } ∧
        ∀ k : Nat, k = ip.toNat ↔ k < size ∧ (k : Int) ≡ x [ZMOD size]) ∧
    (settings.wrapMemory = false →
      (0 ≤ x ∧ x < size →
        (∃ w, m.get x = .ok w) ∧ (∃ m', set x v m = .ok () m') ∧ ∃ m', jump x m = .ok () m') ∧
      (¬ (0 ≤ x ∧ x < size) →
        m.get x = .error (.outOfBounds .read x size) ∧
        set x v m = .error (.outOfBounds .write x size) m ∧
        jump x m = .error (.outOfBounds .jump x size) m)) := by
  obtain ⟨n, hsound⟩ := h.sound
  have hpos := hsound.pos
  obtain ⟨-, rfl, -⟩ := h.loadedFrom
  refine ⟨?_, ?_⟩
  · intro hwrap
    obtain ⟨old, hold, hnew⟩ := get_putCell hpos (y := y) (.inl hwrap) x (m.normalize v)
    refine ⟨⟨_, old, set_of_admits hpos (.inl hwrap) v, rfl, hold, hnew⟩,
      UInt64.ofNat (m.indexOf x), jump_of_admits (.inl hwrap), ?_⟩
    intro k
    have hlt := indexOf_lt hpos x
    rw [hsound.size] at hlt
    rw [toNat_ofNat_of_le (Nat.le_of_lt hlt), indexOf_eq_iff hpos]
  · intro hwrap
    refine ⟨?_, ?_⟩
    · intro hin
      obtain ⟨w, hw, -⟩ := get_of_admits hpos (.inr hin)
      exact ⟨⟨w, hw⟩, ⟨_, set_of_admits hpos (.inr hin) v⟩, ⟨_, jump_of_admits (.inr hin)⟩⟩
    · intro hout
      have hrefused : ¬ m.Admits x := by simp [Admits, hwrap, hout]
      exact ⟨(get_eq_error_of_pos hpos).mpr (locate_of_not_admits hrefused),
        (set_eq_error_of_pos hpos).mpr ⟨rfl, locate_of_not_admits hrefused⟩,
        jump_eq_error.mpr ⟨rfl, locate_of_not_admits hrefused⟩⟩

theorem load_store_law_far :
    ∃ m m' : Machine Buffer,
      Reached .decimal { wrapMemory := true } [901, 300] m ∧
      set (-1) 1000 m = .ok () m' ∧
      m'.get 9223372036854775799 = .ok (-998) ∧
      ∃ ip : UInt64, ip.toNat = 92 ∧
        jump (-9223372036854775808) m = .ok () { m with registers := { m.registers with ip } } := by
  have hrun : ∃ m : Machine Buffer,
      load .decimal { wrapMemory := true } {} [901, 300] = .ok m ∧
      m.memory.size = 100 ∧ m.normalize 1000 = -998 :=
    ⟨_, rfl, by decide +kernel⟩
  obtain ⟨m, hload, hsize, hvalue⟩ := hrun
  have hreached := Reached.load hload
  obtain ⟨⟨m', old, hset, -, -, hget⟩, -⟩ :=
    (load_store_law hreached (-1) 9223372036854775799 1000).1 rfl
  obtain ⟨-, ip, hjump, hip⟩ := (load_store_law hreached (-9223372036854775808) 0 0).1 rfl
  rw [hsize, hvalue, if_pos (by decide)] at hget
  exact ⟨m, m', hreached, hset, hget, ip, ((hip 92).mpr (by rw [hsize]; decide)).symm, hjump⟩

end LittleMan.Machine
