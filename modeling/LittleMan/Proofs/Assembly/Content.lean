import Mathlib.Tactic.Common
import LittleMan.Proofs.Assembly.Guise

/-!
# What counts in a source text

Of a source text nothing counts but the words of the lines that are not blank. Two source texts that
agree in these may differ in their comments, in blanks and blank lines and in the ends of their
lines. They are assembled to the same program, or fail for the same reason, and then at lines that
correspond to each other.

The proof assembles the words with the lines counted as if there were no others. Each of the source
texts is this in a guise that tells where its lines really stand.
-/

namespace LittleMan.Assembly

def contentLines (source : String) : List (List String) := (linesOf source).filter (· ≠ [])

def numberedLines (source : String) : List (List String × Nat) :=
  ((linesOf source).zipIdx 1).filter (·.1 ≠ [])

/-- What assembling the two source texts ends with is the same. The lines of an error are the same
ones among those that are not blank. -/
inductive SameOutcome (s t : String) : Except Error Program → Except Error Program → Prop
  | program (p : Program) : SameOutcome s t (.ok p) (.ok p)
  | flaw {j n n' : Nat} {words : List String} (f : Flaw)
    (hs : (numberedLines s)[j]? = some (words, n))
    (ht : (numberedLines t)[j]? = some (words, n')) :
    SameOutcome s t (.error (.flaw n f)) (.error (.flaw n' f))
  | size (size capacity : Nat) :
    SameOutcome s t (.error (.programTooLarge size capacity))
      (.error (.programTooLarge size capacity))

/-! ## Blank lines -/

theorem map_fst_numberedLines (source : String) :
    (numberedLines source).map Prod.fst = contentLines source := by
  unfold contentLines numberedLines
  conv_rhs => rw [← List.zipIdx_map_fst 1 (linesOf source)]
  rw [List.filter_map]
  rfl

theorem parseNumbered_filter (lines : List (List String × Nat)) :
    Draft.parseNumbered lines = Draft.parseNumbered (lines.filter (·.1 ≠ [])) := by
  induction lines with
  | nil => rfl
  | cons l lines ih =>
    obtain ⟨words, line⟩ := l
    by_cases hwords : words = []
    · subst hwords
      rw [Draft.parseNumbered, ih]
      rfl
    · rw [List.filter_cons_of_pos (by simpa using hwords), Draft.parseNumbered, ih]
      rfl

theorem contentLines_eq (source : String) :
    contentLines source = ((source.toList.splitOn '\n').map wordsOf).filter (· ≠ []) := by
  obtain ⟨init, last, hpieces⟩ : ∃ init last, source.toList.splitOn '\n' = init ++ [last] :=
    ⟨_, _, (List.dropLast_append_getLast (List.splitOn_ne_nil _ _)).symm⟩
  have hinit : init.map (wordsOf ∘ Text.dropReturn) = init.map wordsOf :=
    List.map_congr_left fun line _ => wordsOf_dropReturn line
  unfold contentLines linesOf Text.lines
  rw [hpieces]
  by_cases hlast : last = []
  · simp [hlast, hinit, wordsOf_nil]
  · simp [hlast, hinit, Option.filter_some]

theorem contentLines_terminated {source : String} {lines : List (List Char)}
    (hs : source.toList = Text.terminated lines) (h : ∀ l ∈ lines, '\n' ∉ l) :
    contentLines source = (lines.map wordsOf).filter (· ≠ []) := by
  rw [contentLines_eq, hs, Text.splitOn_terminated lines h]
  simp [wordsOf_nil]

theorem contentLines_intercalate {source : String} {lines : List (List Char)}
    (hs : source.toList = ['\n'].intercalate lines) (h : ∀ l ∈ lines, '\n' ∉ l) :
    contentLines source = (lines.map wordsOf).filter (· ≠ []) := by
  rw [contentLines_eq, hs]
  cases lines with
  | nil => rfl
  | cons l lines => rw [List.splitOn_intercalate '\n' h (List.cons_ne_nil _ _)]

/-! ## Where lines stand -/

/-- The number of the `j`-th line that is not blank. The end of the source is behind the last. -/
def lineAt (source : String) (j : Nat) : Nat :=
  ((numberedLines source)[j]?.map Prod.snd).getD ((linesOf source).length + 1)

theorem getElem?_numberedLines (source : String) (j : Nat) :
    (numberedLines source)[j]? = (contentLines source)[j]?.map (·, lineAt source j) := by
  rw [← map_fst_numberedLines, List.getElem?_map]
  unfold lineAt
  cases (numberedLines source)[j]? <;> rfl

theorem lineAt_of_length_le {source : String} {j : Nat} (h : (contentLines source).length ≤ j) :
    lineAt source j = (linesOf source).length + 1 := by
  unfold lineAt
  rw [getElem?_numberedLines, List.getElem?_eq_none h]
  rfl

theorem numberedLines_eq (source : String) :
    numberedLines source = (contentLines source).zipIdx.map (Prod.map id (lineAt source)) := by
  apply List.ext_getElem?
  intro j
  rw [getElem?_numberedLines, List.getElem?_map, List.getElem?_zipIdx, Option.map_map]
  simp [Function.comp_def]

theorem line_le_of_mem_entriesOf {lines : List (List String)} {e : Entry}
    (h : e ∈ entriesOf lines) : e.line ≤ lines.length := by
  unfold entriesOf entriesFrom at h
  rw [List.reduceOption_mem_iff, List.mem_map] at h
  obtain ⟨⟨words, n⟩, hmem, hentry⟩ := h
  obtain ⟨-, hlt, -⟩ := List.mem_zipIdx (List.mem_filter.mp hmem).1
  obtain ⟨mnemonic, -, rfl⟩ := Option.map_eq_some_iff.mp hentry
  show n ≤ lines.length
  omega

theorem Fails.line_le {a : Architecture} {settings : Settings} {lines : List (List String)}
    {n : Nat} {f : Flaw} (h : Fails a settings lines (.flaw n f)) : n ≤ lines.length := by
  cases h with
  | line hflaw =>
    obtain ⟨mid, words, rest, rfl, rfl, -⟩ := (firstFlaw?_eq_some wellFormed_nil).mp hflaw
    simp
  | label _ hsplit => exact line_le_of_mem_entriesOf (by simp [hsplit])
  | operand _ _ hsplit => exact line_le_of_mem_entriesOf (by simp [hsplit])

/-! ## Assembling the content -/

def assembleContent (a : Architecture) (settings : Settings) (lines : List (List String)) :
    Except Error Program := assembleNumbered a settings "" lines.zipIdx lines.length

theorem assemble_eq_numbered (a : Architecture) (settings : Settings) (source : String) :
    assemble a settings source =
      assembleNumbered a settings source (numberedLines source) ((linesOf source).length + 1) := by
  have hparse : Draft.parse { source, settings } =
      Draft.parseAll (numberedLines source) ((linesOf source).length + 1) { source, settings } := by
    unfold Draft.parse Draft.parseAll numberedLines linesOf
    rw [← parseNumbered_filter, ← Draft.parseLines_eq, List.length_map]
  have hboth : EStateM.bind Draft.parse (fun _ => Draft.resolve) { source, settings } =
      EStateM.bind (Draft.parseAll (numberedLines source) ((linesOf source).length + 1))
        (fun _ => Draft.resolve) { source, settings } := by
    unfold EStateM.bind
    rw [hparse]
  unfold assemble assembleNumbered
  rw [Draft.assemble_eq_complete]
  exact congrArg (Draft.complete a) hboth

def lineGuise (settings : Settings) (source : String) : Guise :=
  { source, settings, line := lineAt source }

theorem assemble_eq_content (a : Architecture) (settings : Settings) (source : String) :
    assemble a settings source =
      (lineGuise settings source).outcome (assembleContent a settings (contentLines source)) := by
  have hline : (lineGuise settings source).line = lineAt source := by rw [lineGuise]
  have hlines : List.Forall₂
      (fun l l' => (lineGuise settings source).SaysWords l.1 l'.1 ∧
        l'.2 = (lineGuise settings source).line l.2)
      (contentLines source).zipIdx (numberedLines source) := by
    rw [numberedLines_eq, List.forall₂_map_right_iff, List.forall₂_same]
    intro l hl
    simpa [hline] using Guise.saysWords_of_id rfl l.1
  have hguise := assembleNumbered_guise a (lineGuise settings source) ""
    (contentLines source).length hlines
  rw [hline, lineAt_of_length_le (Nat.le_refl _)] at hguise
  rw [assemble_eq_numbered]
  exact hguise

theorem assemble_eq_ok {a : Architecture} {settings : Settings} {source : String} {p : Program} :
    assemble a settings source = .ok p ↔
      assembleContent a settings (contentLines source) = .ok p := by
  rw [assemble_eq_content]
  cases assembleContent a settings (contentLines source) with
  | ok p' => simp [Guise.outcome, Guise.table_of_id, lineGuise]
  | error e => simp [Guise.outcome]

theorem assemble_of_content_flaw {a : Architecture} {settings : Settings} {source : String}
    {j : Nat} {f : Flaw}
    (h : assembleContent a settings (contentLines source) = .error (.flaw j f)) :
    assemble a settings source = .error (.flaw (lineAt source j) f) ∧
      j < (contentLines source).length := by
  have hfails : assemble a settings source = .error (.flaw (lineAt source j) f) := by
    rw [assemble_eq_content, h]
    simp [Guise.outcome, Guise.error, Guise.flaw_of_id, lineGuise]
  refine ⟨hfails, ?_⟩
  by_contra hj
  have houtcome := assemble_outcome a settings source
  rw [hfails] at houtcome
  have hle := Fails.line_le houtcome
  rw [lineAt_of_length_le (Nat.le_of_not_lt hj)] at hle
  omega

/-- Source texts with the same content are assembled to the same program, or fail for the same
reason. -/
theorem assemble_same_content (a : Architecture) (settings : Settings) {s t : String}
    (h : contentLines s = contentLines t) :
    SameOutcome s t (assemble a settings s) (assemble a settings t) := by
  cases hcontent : assembleContent a settings (contentLines s) with
  | ok p =>
    rw [assemble_eq_ok.mpr hcontent, assemble_eq_ok.mpr (h ▸ hcontent)]
    exact .program p
  | error e =>
    cases e with
    | flaw j f =>
      have hcontent' : assembleContent a settings (contentLines t) = .error (.flaw j f) :=
        h ▸ hcontent
      obtain ⟨hs, hj⟩ := assemble_of_content_flaw hcontent
      obtain ⟨ht, -⟩ := assemble_of_content_flaw hcontent'
      obtain ⟨words, hwords⟩ : ∃ words, (contentLines s)[j]? = some words :=
        ⟨_, List.getElem?_eq_getElem hj⟩
      have hlineS : (numberedLines s)[j]? = some (words, lineAt s j) := by
        rw [getElem?_numberedLines, hwords, Option.map_some]
      have hlineT : (numberedLines t)[j]? = some (words, lineAt t j) := by
        rw [getElem?_numberedLines, ← h, hwords, Option.map_some]
      rw [hs, ht]
      exact .flaw f hlineS hlineT
    | programTooLarge size capacity =>
      rw [assemble_eq_content, assemble_eq_content a settings t, ← h, hcontent]
      exact .size size capacity

theorem assemble_same_content_spaced :
    contentLines "x DAT 1 // one\n\nLDA y" =
        contentLines "\r\n x\u00a0DAT\t1\r\n// LDA x\r\n\r\nLDA  y//\r\n" ∧
      SameOutcome "x DAT 1 // one\n\nLDA y"
        "\r\n x\u00a0DAT\t1\r\n// LDA x\r\n\r\nLDA  y//\r\n"
        (.error (.flaw 3 (.undefinedLabel "y"))) (.error (.flaw 5 (.undefinedLabel "y"))) := by
  have hcontent : contentLines "x DAT 1 // one\n\nLDA y" =
      contentLines "\r\n x\u00a0DAT\t1\r\n// LDA x\r\n\r\nLDA  y//\r\n" := by decide +kernel
  have hs : assemble .decimal {} "x DAT 1 // one\n\nLDA y" =
      .error (.flaw 3 (.undefinedLabel "y")) := by decide +kernel
  have ht : assemble .decimal {} "\r\n x\u00a0DAT\t1\r\n// LDA x\r\n\r\nLDA  y//\r\n" =
      .error (.flaw 5 (.undefinedLabel "y")) := by decide +kernel
  have hsame := assemble_same_content .decimal {} hcontent
  rw [hs, ht] at hsame
  exact ⟨hcontent, hsame⟩

end LittleMan.Assembly
