import Mathlib.Tactic.Common
import LittleMan.Proofs.ImageFile

/-!
# Image files joined

The image of two texts with a newline between them is the two images one behind the other. Only the
seam takes care: there the last line of the first text, which may be empty or end in a carriage
return, becomes a line like the others. The errors of the second text move down by the lines of the
first.
-/

namespace LittleMan.ImageFile

def Error.down (k : Nat) : Error → Error
  | file reason => file reason
  | notAWord line content => notAWord (line + k) content

theorem Error.down_zero (e : Error) : e.down 0 = e := by cases e <;> rfl

/-! ## What counts on a line -/

theorem content_dropReturn (line : List Char) : content (Text.dropReturn line) = content line := by
  unfold Text.dropReturn
  split_ifs with hlast
  · obtain ⟨tail, htail, hcut⟩ := Text.uncommented_concat line.dropLast (show '\r' ≠ '/' by decide)
    have hblank : ∀ c ∈ tail, Text.isBlank c = true := by
      intro c hc
      rw [List.mem_singleton.mp (htail.subset hc)]
      decide
    rw [List.dropLast_append_getLast? '\r' hlast] at hcut
    unfold content
    rw [hcut, Text.trim_append _ hblank]
  · rfl

theorem parseFrom_congr (image : Array Word) (n : Nat) {ls ls' : List (List Char)}
    (h : ls.map content = ls'.map content) : parseFrom image n ls = parseFrom image n ls' := by
  induction ls generalizing ls' image n with
  | nil =>
    obtain rfl : ls' = [] := by simpa using h.symm
    rfl
  | cons l ls ih =>
    obtain ⟨l', ls', rfl, hl, hls⟩ := List.map_eq_cons_iff.mp h.symm
    simp only [parseFrom, hl, ih _ _ hls.symm]

/-! ## Lines behind others -/

theorem parseFrom_eq (image : Array Word) (n k : Nat) (ls : List (List Char)) :
    parseFrom image (n + k) ls =
      match parseFrom #[] n ls with
      | .ok words => .ok (image.toList ++ words)
      | .error e => .error (e.down k) := by
  induction ls generalizing image n k with
  | nil => simp [parseFrom]
  | cons l ls ih =>
    rw [parseFrom, parseFrom]
    split_ifs with hblank
    · rw [Nat.add_right_comm, ih]
    · cases hw : Word.read? (content l) with
      | none => rfl
      | some w =>
        -- The word goes behind those of `image` here, and behind none there.
        have hhere := ih (image.push w) (n + 1) k
        have hthere := ih #[w] (n + 1) 0
        rw [Nat.add_right_comm] at hhere
        rw [Nat.add_zero] at hthere
        simp only [List.push_toArray, List.nil_append, hhere, hthere]
        cases parseFrom #[] (n + 1) ls with
        | ok words => simp
        | error e => simp [Error.down_zero]

theorem parseFrom_append (image : Array Word) (n : Nat) (ls ls' : List (List Char)) :
    parseFrom image n (ls ++ ls') =
      match parseFrom image n ls with
      | .ok words => parseFrom words.toArray (n + ls.length) ls'
      | .error e => .error e := by
  induction ls generalizing image n with
  | nil => simp [parseFrom]
  | cons l ls ih =>
    have hn : n + (l :: ls).length = n + 1 + ls.length := by rw [List.length_cons]; omega
    rw [List.cons_append, hn, parseFrom, parseFrom]
    split_ifs with hblank
    · exact ih image (n + 1)
    · cases Word.read? (content l) with
      | none => rfl
      | some w => exact ih (image.push w) (n + 1)

theorem content_nil : content [] = [] := rfl

theorem parseFrom_splitOn (image : Array Word) (n : Nat) (text : List Char) :
    parseFrom image n ((text.splitOn '\n').map Text.dropReturn) =
      parseFrom image n (Text.lines text) := by
  obtain ⟨init, last, hpieces⟩ : ∃ init last, text.splitOn '\n' = init ++ [last] :=
    ⟨_, _, (List.dropLast_append_getLast (List.splitOn_ne_nil _ _)).symm⟩
  have hlines : Text.lines text = init.map Text.dropReturn ++ if last = [] then [] else [last] := by
    unfold Text.lines
    rw [hpieces]
    by_cases hlast : last = [] <;> simp [hlast, Option.filter_some]
  rw [hlines, hpieces, List.map_append, parseFrom_append, parseFrom_append]
  cases parseFrom image n (init.map Text.dropReturn) with
  | error e => rfl
  | ok words =>
    split_ifs with hlast
    · simp [hlast, Text.dropReturn, parseFrom, content_nil]
    · apply parseFrom_congr
      simp [content_dropReturn]

/-! ## The first line that is no word -/

def Fine (line : List Char) : Prop := content line = [] ∨ ∃ w, Word.read? (content line) = some w

theorem parseFrom_of_fine (image : Array Word) (n : Nat) {ls : List (List Char)}
    (h : ∀ l ∈ ls, Fine l) : ∃ words, parseFrom image n ls = .ok words := by
  induction ls generalizing image n with
  | nil => exact ⟨image.toList, rfl⟩
  | cons l ls ih =>
    rw [List.forall_mem_cons] at h
    rw [parseFrom]
    split_ifs with hblank
    · exact ih image (n + 1) h.2
    · obtain ⟨w, hw⟩ := h.1.resolve_left hblank
      rw [hw]
      exact ih (image.push w) (n + 1) h.2

theorem parseFrom_of_not_fine (image : Array Word) (n : Nat) {line : List Char}
    (rest : List (List Char)) (h : ¬ Fine line) :
    parseFrom image n (line :: rest) = .error (.notAWord n (String.ofList (content line))) := by
  simp only [Fine, not_or, not_exists, ← Option.eq_none_iff_forall_ne_some] at h
  rw [parseFrom, if_neg h.1, h.2]

theorem fine_or_split (ls : List (List Char)) :
    (∀ l ∈ ls, Fine l) ∨ ∃ before line after, ls = before ++ line :: after ∧
      (∀ l ∈ before, Fine l) ∧ ¬ Fine line := by
  induction ls with
  | nil => exact .inl (List.forall_mem_nil _)
  | cons l ls ih =>
    by_cases hl : Fine l
    · refine ih.imp (fun h => List.forall_mem_cons.mpr ⟨hl, h⟩) ?_
      rintro ⟨before, line, after, rfl, hbefore, hline⟩
      exact ⟨l :: before, line, after, rfl, List.forall_mem_cons.mpr ⟨hl, hbefore⟩, hline⟩
    · exact .inr ⟨[], l, ls, rfl, List.forall_mem_nil _, hl⟩

theorem parse_eq_error {text : String} {e : Error} :
    parse text = .error e ↔
      ∃ before line after, Text.lines text.toList = before ++ line :: after ∧
        (∀ l ∈ before, Fine l) ∧ ¬ Fine line ∧
        e = .notAWord (before.length + 1) (String.ofList (content line)) := by
  have hsplit : ∀ {before line after}, Text.lines text.toList = before ++ line :: after →
      (∀ l ∈ before, Fine l) → ¬ Fine line →
      parse text = .error (.notAWord (before.length + 1) (String.ofList (content line))) := by
    intro before line after hlines hbefore hline
    obtain ⟨words, hwords⟩ := parseFrom_of_fine #[] 1 hbefore
    unfold parse
    rw [hlines, parseFrom_append, hwords]
    dsimp only
    rw [parseFrom_of_not_fine _ _ _ hline, Nat.add_comm]
  constructor
  · intro h
    rcases fine_or_split (Text.lines text.toList) with hfine | ⟨before, line, after, hls, hb, hl⟩
    · obtain ⟨words, hwords⟩ := parseFrom_of_fine #[] 1 hfine
      rw [parse, hwords] at h
      cases h
    · rw [hsplit hls hb hl, Except.error.injEq] at h
      exact ⟨before, line, after, hls, hb, hl, h.symm⟩
  · rintro ⟨before, line, after, hls, hb, hl, rfl⟩
    exact hsplit hls hb hl

/-! ## Two texts -/

theorem parse_join (first second : String) :
    parse (first ++ "\n" ++ second) =
      match parse first, parse second with
      | .error e, _ => .error e
      | .ok words, .ok more => .ok (words ++ more)
      | .ok _, .error e => .error (e.down (first.toList.count '\n' + 1)) := by
  have htext : (first ++ "\n" ++ second).toList = first.toList ++ '\n' :: second.toList := by simp
  unfold parse
  rw [htext, Text.lines_append, parseFrom_append, parseFrom_splitOn, List.length_map,
    Text.length_splitOn]
  cases parseFrom #[] 1 (Text.lines first.toList) with
  | error e => rfl
  | ok words =>
    dsimp only
    rw [parseFrom_eq]
    cases parseFrom #[] 1 (Text.lines second.toList) with
    | error e => rfl
    | ok more => rfl

/-- Two image files with a newline between them hold the words of both, and an error of the second
is moved down by the lines in front of it. -/
theorem joined_images (first second : String) :
    (∀ words more, parse first = .ok words → parse second = .ok more →
      parse (first ++ "\n" ++ second) = .ok (words ++ more)) ∧
    (∀ e, parse first = .error e → parse (first ++ "\n" ++ second) = .error e) ∧
    (∀ words line content, parse first = .ok words →
      parse second = .error (.notAWord line content) →
      parse (first ++ "\n" ++ second) =
        .error (.notAWord (line + 1 + first.toList.count '\n') content)) ∧
    ∀ (text : String) (e : Error), parse text = .error e ↔
      ∃ before line after, Text.lines text.toList = before ++ line :: after ∧
        (∀ l ∈ before, Fine l) ∧ ¬ Fine line ∧
        e = .notAWord (before.length + 1) (String.ofList (content line)) := by
  refine ⟨?_, ?_, ?_, fun _ _ => parse_eq_error⟩
  · intro words more hfirst hsecond
    rw [parse_join, hfirst, hsecond]
  · intro e hfirst
    rw [parse_join, hfirst]
  · intro words line content hfirst hsecond
    rw [parse_join, hfirst, hsecond]
    simp only [Error.down, Nat.add_assoc, Nat.add_comm 1]

theorem joined_images_seam :
    parse "901\r" = .ok [901] ∧ parse "// nothing\n\n 7x // sum" = .error (.notAWord 3 "7x") ∧
      parse ("901\r" ++ "\n" ++ "// nothing\n\n 7x // sum") = .error (.notAWord 4 "7x") := by
  have hfirst : parse "901\r" = .ok [901] := by decide +kernel
  have hsecond : parse "// nothing\n\n 7x // sum" = .error (.notAWord 3 "7x") := by decide +kernel
  obtain ⟨-, -, hjoin, -⟩ := joined_images "901\r" "// nothing\n\n 7x // sum"
  exact ⟨hfirst, hsecond, hjoin _ _ _ hfirst hsecond⟩

end LittleMan.ImageFile
