import Mathlib.Data.List.TakeWhile
import Mathlib.Tactic.Common
import LittleMan.Proofs.Text.Line

/-!
# Words put in the place of others

The words of a text can be replaced by others one by one, and the blanks between them left as they
are. The words of the new text are then the new words.
-/

namespace LittleMan.Text

/-- The text with its words replaced by `ws`. -/
def refill (ws : List (List Char)) : List Char → List Char
  | [] => []
  | c :: rest =>
    if isBlank c then c :: refill ws rest
    else ws.headD [] ++ refill ws.tail (rest.dropWhile (!isBlank ·))
termination_by text => text.length
decreasing_by
  · simp
  · have h := (List.dropWhile_sublist (l := rest) (!isBlank ·)).length_le
    simp only [List.length_cons]
    omega

/-! ## The first word -/

theorem words_append_of_blank {w rest : List Char} (hne : w ≠ [])
    (hw : ∀ c ∈ w, isBlank c = false) (hrest : ∀ c ∈ rest.head?, isBlank c = true) :
    words (w ++ rest) = w :: words rest := by
  cases rest with
  | nil => rw [List.append_nil, words_singleton w hne hw, words_nil]
  | cons b rest =>
    have hb : isBlank b = true := hrest b rfl
    rw [words_append_blank w rest b hb, words_singleton w hne hw, words_cons_blank rest b hb]
    rfl

theorem blank_of_head?_dropWhile {rest : List Char} :
    ∀ c ∈ (rest.dropWhile (!isBlank ·)).head?, isBlank c = true := by
  intro c hc
  have h := List.head?_dropWhile_not (!isBlank ·) rest
  rw [Option.mem_def] at hc
  rw [hc] at h
  simpa using h

theorem words_cons_of_not_blank {c : Char} (rest : List Char) (hc : isBlank c = false) :
    ∃ w, words (c :: rest) = w :: words (rest.dropWhile (!isBlank ·)) := by
  refine ⟨c :: rest.takeWhile (!isBlank ·), ?_⟩
  rw [← words_append_of_blank (List.cons_ne_nil _ _) _ blank_of_head?_dropWhile, List.cons_append,
    List.takeWhile_append_dropWhile]
  intro c' hc'
  rcases List.mem_cons.mp hc' with rfl | hc'
  · exact hc
  · simpa using List.mem_takeWhile_imp hc'

/-! ## All words -/

theorem head?_refill {ws : List (List Char)} {text : List Char}
    (h : ∀ c ∈ text.head?, isBlank c = true) : (refill ws text).head? = text.head? := by
  cases text with
  | nil => rw [refill]
  | cons c rest => rw [refill, if_pos (h c rfl), List.head?_cons, List.head?_cons]

theorem words_refill {ws : List (List Char)} {text : List Char}
    (hlength : ws.length = (words text).length)
    (hws : ∀ w ∈ ws, w ≠ [] ∧ ∀ c ∈ w, isBlank c = false) : words (refill ws text) = ws := by
  fun_induction refill ws text with
  | case1 ws =>
    rw [words_nil, List.length_nil, List.length_eq_zero_iff] at hlength
    rw [hlength, words_nil]
  | case2 ws c rest hc ih =>
    rw [words_cons_blank rest c hc] at hlength
    rw [words_cons_blank _ c hc, ih hlength hws]
  | case3 ws c rest hc ih =>
    obtain ⟨first, hfirst⟩ := words_cons_of_not_blank rest (Bool.eq_false_iff.mpr hc)
    rw [hfirst] at hlength
    cases ws with
    | nil => simp at hlength
    | cons w ws =>
      obtain ⟨hne, hw⟩ := hws w List.mem_cons_self
      have hrest := ih (by simpa using hlength) fun w' hw' => hws w' (List.mem_cons_of_mem _ hw')
      rw [List.headD_cons, List.tail_cons, words_append_of_blank hne hw]
      · rw [List.tail_cons] at hrest
        rw [hrest]
      · rw [head?_refill blank_of_head?_dropWhile]
        exact blank_of_head?_dropWhile

theorem mem_refill {ws : List (List Char)} {text : List Char} {c : Char}
    (h : c ∈ refill ws text) : c ∈ text ∧ isBlank c = true ∨ ∃ w ∈ ws, c ∈ w := by
  fun_induction refill ws text with
  | case1 ws => cases h
  | case2 ws b rest hb ih =>
    rcases List.mem_cons.mp h with rfl | h
    · exact .inl ⟨List.mem_cons_self, hb⟩
    · exact (ih h).imp_left fun ⟨hc, hblank⟩ => ⟨List.mem_cons_of_mem _ hc, hblank⟩
  | case3 ws b rest hb ih =>
    rcases List.mem_append.mp h with h | h
    · cases ws with
      | nil => cases h
      | cons w ws => exact .inr ⟨w, List.mem_cons_self, h⟩
    · rcases ih h with ⟨hc, hblank⟩ | ⟨w, hw, hc⟩
      · have hrest := (List.dropWhile_sublist (!isBlank ·)).subset hc
        exact .inl ⟨List.mem_cons_of_mem _ hrest, hblank⟩
      · exact .inr ⟨w, List.mem_of_mem_tail hw, hc⟩

end LittleMan.Text
