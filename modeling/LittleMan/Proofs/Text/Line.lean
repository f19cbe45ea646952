import Mathlib.Tactic.Common
import LittleMan.Text

/-!
# Lines and words read back

Lines that were ended by newlines are the lines of the text, a comment is cut off whatever it
holds, and blanks around a text do not change its words. In the bytes of a text, a newline byte
stands for a newline and nothing else: all those of a character beyond ASCII are 128 or more.
-/

namespace LittleMan.Text

/-! ## Lines -/

def terminated (lines : List (List Char)) : List Char := lines.flatMap (· ++ ['\n'])

theorem terminated_append (ls ls' : List (List Char)) :
    terminated (ls ++ ls') = terminated ls ++ terminated ls' := List.flatMap_append

theorem splitOn_terminated (ls : List (List Char)) (h : ∀ l ∈ ls, '\n' ∉ l) :
    (terminated ls).splitOn '\n' = ls ++ [[]] := by
  induction ls with
  | nil => rfl
  | cons l ls ih =>
    have hl : '\n' ∉ l := h l List.mem_cons_self
    have hcons : terminated (l :: ls) = l ++ '\n' :: terminated ls := by simp [terminated]
    rw [hcons, List.splitOn_append_cons_self, List.splitOn_eq_singleton hl,
      ih (fun l' hl' => h l' (List.mem_cons_of_mem _ hl'))]
    rfl

theorem newline_not_mem_of_mem_splitOn {text piece : List Char} (h : piece ∈ text.splitOn '\n') :
    '\n' ∉ piece := by
  by_cases hn : '\n' ∈ text
  · obtain ⟨first, rest, rfl, hfirst⟩ := List.eq_append_cons_of_mem hn
    rw [List.splitOn_append_cons_self, List.splitOn_eq_singleton hfirst] at h
    rcases List.mem_append.mp h with h | h
    · rw [List.mem_singleton.mp h]
      exact hfirst
    · exact newline_not_mem_of_mem_splitOn h
  · rw [List.splitOn_eq_singleton hn] at h
    rw [List.mem_singleton.mp h]
    exact hn
termination_by text.length
decreasing_by
  rename_i heq _ _
  simp only [heq, List.length_append, List.length_cons]
  omega

theorem dropReturn_of_not_mem {l : List Char} (h : '\r' ∉ l) : dropReturn l = l := by
  unfold dropReturn
  rw [if_neg]
  intro hlast
  exact h (List.mem_of_getLast? hlast)

theorem lines_terminated (ls : List (List Char)) (hn : ∀ l ∈ ls, '\n' ∉ l)
    (hr : ∀ l ∈ ls, '\r' ∉ l) : lines (terminated ls) = ls := by
  have hmap : ls.map dropReturn = ls := by
    conv => rhs; rw [← List.map_id ls]
    exact List.map_congr_left fun l hl => dropReturn_of_not_mem (hr l hl)
  unfold lines
  rw [splitOn_terminated ls hn]
  simp [hmap]

/-- A text that goes on behind a newline. What comes before it ends with a whole line, even if that
line is empty. -/
theorem lines_append (text rest : List Char) :
    lines (text ++ '\n' :: rest) = (text.splitOn '\n').map dropReturn ++ lines rest := by
  have hrest : rest.splitOn '\n' ≠ [] := List.splitOn_ne_nil _ _
  have hlast : (text.splitOn '\n' ++ rest.splitOn '\n').getLast? =
      (rest.splitOn '\n').getLast? := by
    rw [List.getLast?_append, List.getLast?_eq_some_getLast hrest, Option.some_or]
  unfold lines
  dsimp only
  rw [List.splitOn_append_cons_self, hlast, List.dropLast_append_of_ne_nil hrest, List.map_append,
    List.append_assoc]

theorem lines_append_line (text last : List Char) (hn : '\n' ∉ last) (hne : last ≠ []) :
    lines (text ++ '\n' :: last) = (text.splitOn '\n').map dropReturn ++ [last] := by
  rw [lines_append]
  simp [lines, List.splitOn_eq_singleton hn, hne]

theorem length_splitOn (text : List Char) :
    (text.splitOn '\n').length = text.count '\n' + 1 := by
  induction text with
  | nil => rfl
  | cons c text ih =>
    rw [List.splitOn_cons_eq_if_modifyHead]
    split_ifs with hc
    · simp [ih, beq_iff_eq.mp hc]
    · simp [ih, List.count_cons, hc]

/-! ## Comments -/

theorem uncommentedFrom_append (kept text rest : List Char) (h : '/' ∉ text) :
    uncommentedFrom kept (text ++ '/' :: '/' :: rest) = kept.reverse ++ text := by
  induction text generalizing kept with
  | nil => simp [uncommentedFrom]
  | cons c text ih =>
    have hc : c ≠ '/' := fun hc => h (hc ▸ List.mem_cons_self)
    have htext : '/' ∉ text := fun ht => h (List.mem_cons_of_mem _ ht)
    rw [List.cons_append, uncommentedFrom, ih _ htext]
    · simp
    · -- The other pattern wants a slash in front.
      intro rest' heq
      exact absurd heq hc

theorem uncommented_append (text rest : List Char) (h : '/' ∉ text) :
    uncommented (text ++ '/' :: '/' :: rest) = text := by
  unfold uncommented
  rw [uncommentedFrom_append _ _ _ h]
  rfl

theorem uncommentedFrom_concat (kept text : List Char) {c : Char} (hc : c ≠ '/') :
    ∃ tail, tail <:+ [c] ∧
      uncommentedFrom kept (text ++ [c]) = uncommentedFrom kept text ++ tail := by
  fun_induction uncommentedFrom kept text with
  | case1 kept rest =>
    exact ⟨[], List.nil_suffix, by simp [uncommentedFrom]⟩
  | case2 kept b rest hslash ih =>
    rw [List.cons_append, uncommentedFrom]
    · exact ih
    · intro rest' hb hrest
      cases rest with
      | nil => exact hc (List.cons.inj hrest).1
      | cons b' rest => exact hslash rest hb (congrArg (· :: rest) (List.cons.inj hrest).1)
  | case3 kept => exact ⟨[c], List.suffix_rfl, by simp [uncommentedFrom]⟩

theorem uncommented_concat (text : List Char) {c : Char} (hc : c ≠ '/') :
    ∃ tail, tail <:+ [c] ∧ uncommented (text ++ [c]) = uncommented text ++ tail :=
  uncommentedFrom_concat [] text hc

theorem uncommentedFrom_split (kept text : List Char) :
    ∃ front comment, text = front ++ comment ∧ uncommentedFrom kept text = kept.reverse ++ front ∧
      (comment = [] ∨ ∃ rest, comment = '/' :: '/' :: rest) := by
  fun_induction uncommentedFrom kept text with
  | case1 kept rest => exact ⟨[], '/' :: '/' :: rest, rfl, by simp, .inr ⟨rest, rfl⟩⟩
  | case2 kept c rest _ ih =>
    obtain ⟨front, comment, rfl, hfront, hcomment⟩ := ih
    exact ⟨c :: front, comment, rfl, by simp [hfront], hcomment⟩
  | case3 kept => exact ⟨[], [], rfl, by simp, .inl rfl⟩

theorem uncommented_split (line : List Char) :
    ∃ comment, line = uncommented line ++ comment ∧
      (comment = [] ∨ ∃ rest, comment = '/' :: '/' :: rest) := by
  obtain ⟨front, comment, hline, hfront, hcomment⟩ := uncommentedFrom_split [] line
  exact ⟨comment, by rw [uncommented, hfront]; exact hline, hcomment⟩

theorem uncommented_of_not_mem {text : List Char} (h : '/' ∉ text) : uncommented text = text := by
  obtain ⟨comment, hsplit, rfl | ⟨rest, rfl⟩⟩ := uncommented_split text
  · rw [List.append_nil] at hsplit
    exact hsplit.symm
  · rw [hsplit] at h
    simp at h

/-! ## Words -/

theorem words_nil : words [] = [] := rfl

theorem words_append_blank (xs ys : List Char) (c : Char) (hc : isBlank c) :
    words (xs ++ c :: ys) = words xs ++ words ys := by
  unfold words
  rw [List.splitOnP_append_cons xs ys hc, List.filter_append]

theorem words_singleton (w : List Char) (hne : w ≠ []) (h : ∀ c ∈ w, isBlank c = false) :
    words w = [w] := by
  unfold words
  rw [List.splitOnP_eq_singleton h]
  simp [hne]

theorem words_cons_blank (ys : List Char) (c : Char) (hc : isBlank c) :
    words (c :: ys) = words ys := words_append_blank [] ys c hc

theorem words_blanks_append (bs text : List Char) (h : ∀ c ∈ bs, isBlank c) :
    words (bs ++ text) = words text := by
  induction bs with
  | nil => rfl
  | cons b bs ih =>
    rw [List.cons_append, words_cons_blank _ b (h b List.mem_cons_self),
      ih fun c hc => h c (List.mem_cons_of_mem _ hc)]

theorem words_append_blanks (text bs : List Char) (h : ∀ c ∈ bs, isBlank c) :
    words (text ++ bs) = words text := by
  cases bs with
  | nil => rw [List.append_nil]
  | cons b bs =>
    have hrest := words_blanks_append bs [] fun c hc => h c (List.mem_cons_of_mem _ hc)
    rw [List.append_nil] at hrest
    rw [words_append_blank _ _ b (h b List.mem_cons_self), hrest, words_nil, List.append_nil]

/-! ## Blanks at the ends -/

theorem dropWhile_of_not_blank {text : List Char} (h : ∀ c ∈ text, isBlank c = false) :
    text.dropWhile isBlank = text := by
  cases text with
  | nil => rfl
  | cons c text => rw [List.dropWhile_cons_of_neg (by simp [h c])]

theorem trim_of_not_blank {text : List Char} (h : ∀ c ∈ text, isBlank c = false) :
    trim text = text := by
  unfold trim
  rw [dropWhile_of_not_blank h, dropWhile_of_not_blank (by simpa using h), List.reverse_reverse]

theorem trim_append (text : List Char) {bs : List Char} (hb : ∀ c ∈ bs, isBlank c = true) :
    trim (text ++ bs) = trim text := by
  unfold trim
  rw [List.dropWhile_append]
  split_ifs with hblank
  · have hnil : (bs ++ []).dropWhile isBlank = [] := List.dropWhile_append_of_pos hb
    rw [List.append_nil] at hnil
    rw [hnil, List.isEmpty_iff.mp hblank]
  · rw [List.reverse_append, List.dropWhile_append_of_pos (by simpa using hb)]

theorem trim_append_blanks {text bs : List Char} (ht : ∀ c ∈ text, isBlank c = false)
    (hb : ∀ c ∈ bs, isBlank c = true) : trim (text ++ bs) = text := by
  rw [trim_append text hb, trim_of_not_blank ht]

/-! ## Plain characters -/

/-- A character from the minus sign to the capital `Z` that is no slash. Mnemonics and numerals are
made of these. -/
def Plain (c : Char) : Prop := '-'.toNat ≤ c.toNat ∧ c.toNat ≤ 'Z'.toNat ∧ c ≠ '/'

instance (c : Char) : Decidable (Plain c) := inferInstanceAs (Decidable (_ ∧ _ ∧ _))

theorem Plain.isBlank {c : Char} (h : Plain c) : isBlank c = false := by
  obtain ⟨hl, hu, -⟩ := h
  simp only [Char.reduceToNat] at hl hu
  rw [← Bool.not_eq_true]
  simp only [Text.isBlank, Bool.or_eq_true, Bool.and_eq_true, decide_eq_true_eq, beq_iff_eq]
  omega

theorem plain_of_isDigit {c : Char} (h : c.isDigit) : Plain c := by
  have hc : 48 ≤ c.toNat ∧ c.toNat ≤ 57 := by
    simpa [Char.isDigit, Char.le_def, UInt32.le_iff_toNat_le] using h
  refine ⟨by simp only [Char.reduceToNat]; omega, by simp only [Char.reduceToNat]; omega, ?_⟩
  rintro rfl
  simp at hc

/-! ## Bytes -/

def bytes (text : String) : List UInt8 := text.toUTF8.data.toList

theorem bytes_append (s t : String) : bytes (s ++ t) = bytes s ++ bytes t := by
  simp [bytes, String.toUTF8_eq_toByteArray]

theorem bytes_eq_flatMap (text : String) :
    bytes text = text.toList.flatMap String.utf8EncodeChar := by
  unfold bytes
  rw [String.toUTF8_eq_toByteArray, ← String.utf8Encode_toList]
  simp [List.utf8Encode]

theorem fromUTF8?_toUTF8 (text : String) : String.fromUTF8? text.toUTF8 = some text := by
  simp only [String.fromUTF8?, String.toUTF8_eq_toByteArray, dif_pos text.isValidUTF8]
  rfl

theorem newline_not_mem_utf8EncodeChar {c : Char} (h : c ≠ '\n') :
    (10 : UInt8) ∉ String.utf8EncodeChar c := by
  have hc : c.val.toNat ≠ 10 := by
    intro hc
    apply h
    apply Char.ext
    apply UInt32.toNat_inj.mp
    exact hc
  have hbyte : ∀ n, n < 256 → n ≠ 10 → (10 : UInt8) ≠ UInt8.ofNat n := by
    intro n hn hne heq
    apply hne
    rw [← UInt8.toNat_ofNat_of_lt' hn, ← heq]
    rfl
  unfold String.utf8EncodeChar
  dsimp only
  split_ifs
  · simpa using hbyte _ (by omega) hc
  · simp only [List.mem_cons, List.not_mem_nil, or_false, not_or]
    exact ⟨hbyte _ (by omega) (by omega), hbyte _ (by omega) (by omega)⟩
  · simp only [List.mem_cons, List.not_mem_nil, or_false, not_or]
    exact ⟨hbyte _ (by omega) (by omega), hbyte _ (by omega) (by omega),
      hbyte _ (by omega) (by omega)⟩
  · simp only [List.mem_cons, List.not_mem_nil, or_false, not_or]
    exact ⟨hbyte _ (by omega) (by omega), hbyte _ (by omega) (by omega),
      hbyte _ (by omega) (by omega), hbyte _ (by omega) (by omega)⟩

theorem newline_not_mem_bytes {text : String} (h : '\n' ∉ text.toList) :
    (10 : UInt8) ∉ bytes text := by
  rw [bytes_eq_flatMap, List.mem_flatMap]
  rintro ⟨c, hc, hmem⟩
  refine newline_not_mem_utf8EncodeChar ?_ hmem
  rintro rfl
  exact h hc

end LittleMan.Text
