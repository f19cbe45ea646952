import Mathlib.Tactic.Common
import Mathlib.Data.List.Forall2

/-!
# Passes over a list

A pass gives a result for each element of a list, or it fails at the first element that has none.
-/

namespace LittleMan.Assembly

theorem mapM_outcome {α β ε : Type} (f : α → Except ε β) (l : List α) :
    match l.mapM f with
    | .ok out => List.Forall₂ (fun x y => f x = .ok y) l out
    | .error e => ∃ before x after, l = before ++ x :: after ∧
        (∀ b ∈ before, ∃ y, f b = .ok y) ∧ f x = .error e := by
  induction l with
  | nil => exact .nil
  | cons x l ih =>
    rw [List.mapM_cons]
    cases hx : f x with
    | error e => exact ⟨[], x, l, rfl, by simp, hx⟩
    | ok y =>
      cases hl : l.mapM f with
      | error e =>
        rw [hl] at ih
        obtain ⟨before, x', after, rfl, hbefore, hx'⟩ := ih
        refine ⟨x :: before, x', after, rfl, ?_, hx'⟩
        intro b hb
        rcases List.mem_cons.mp hb with rfl | hb
        · exact ⟨y, hx⟩
        · exact hbefore b hb
      | ok out =>
        rw [hl] at ih
        exact .cons hx ih

theorem forall₂_of_mapM {α β ε : Type} {f : α → Except ε β} {l : List α} {out : List β}
    (h : l.mapM f = .ok out) : List.Forall₂ (fun x y => f x = .ok y) l out := by
  have hpass := mapM_outcome f l
  rw [h] at hpass
  exact hpass

theorem split_of_mapM {α β ε : Type} {f : α → Except ε β} {l : List α} {e : ε}
    (h : l.mapM f = .error e) :
    ∃ before x after, l = before ++ x :: after ∧ (∀ b ∈ before, ∃ y, f b = .ok y) ∧
      f x = .error e := by
  have hpass := mapM_outcome f l
  rw [h] at hpass
  exact hpass

theorem mapM_of_mapM {α β γ ε : Type} {f : α → Except ε β} {l : List α} {out : List β}
    (g : β → Except ε γ) (h : l.mapM f = .ok out) : out.mapM g = l.mapM (fun x => f x >>= g) := by
  have hout := forall₂_of_mapM h
  clear h
  induction hout with
  | nil => rfl
  | cons hx _ ih => rw [List.mapM_cons, List.mapM_cons, ih, hx]; rfl

theorem mapM_concat_of_ok {α β ε : Type} {f : α → Except ε β} {x : α} {y : β} (l : List α)
    (h : f x = .ok y) : (l ++ [x]).mapM f = (l.mapM f).map (· ++ [y]) := by
  rw [List.mapM_append, List.mapM_cons, List.mapM_nil, h]
  cases l.mapM f <;> rfl

theorem mapM_of_fixed {α ε : Type} {f : α → Except ε α} {l : List α} (h : ∀ x ∈ l, f x = .ok x) :
    l.mapM f = .ok l := by
  induction l with
  | nil => rfl
  | cons x l ih =>
    rw [List.mapM_cons, h x List.mem_cons_self, ih fun y hy => h y (List.mem_cons_of_mem _ hy)]
    rfl

/-! ## Elements and their results -/

theorem getElem?_of_forall₂ {α β : Type} {R : α → β → Prop} {l : List α} {out : List β} {k : Nat}
    {x : α} (h : List.Forall₂ R l out) (hx : l[k]? = some x) : ∃ y, out[k]? = some y ∧ R x y := by
  induction h generalizing k with
  | nil => simp at hx
  | cons hxy _ ih =>
    cases k with
    | zero =>
      cases hx
      exact ⟨_, rfl, hxy⟩
    | succ k => exact ih hx

theorem exists_of_forall₂ {α β : Type} {R : α → β → Prop} {l : List α} {out : List β}
    (h : List.Forall₂ R l out) {x : α} (hx : x ∈ l) : ∃ y, R x y := by
  obtain ⟨k, hk⟩ := List.mem_iff_getElem?.mp hx
  obtain ⟨y, -, hxy⟩ := getElem?_of_forall₂ h hk
  exact ⟨y, hxy⟩

theorem split_of_append {α : Type} {l last before after : List α} {x : α}
    (h : l ++ last = before ++ x :: after) (hx : x ∉ last) :
    ∃ after', l = before ++ x :: after' := by
  rcases List.append_eq_append_iff.mp h with ⟨mid, -, rfl⟩ | ⟨mid, rfl, hmid⟩
  · exact absurd (by simp) hx
  · cases mid with
    | nil =>
      rw [List.nil_append] at hmid
      exact absurd (hmid ▸ List.mem_cons_self) hx
    | cons y mid =>
      obtain ⟨rfl, -⟩ := List.cons.inj hmid
      exact ⟨mid, rfl⟩

end LittleMan.Assembly
