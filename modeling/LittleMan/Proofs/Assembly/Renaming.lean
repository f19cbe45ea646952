import Mathlib.Tactic.Common
import LittleMan.Proofs.Text.Numeral
import LittleMan.Proofs.Text.Refill
import LittleMan.Proofs.Assembly.Acceptance
import LittleMan.Proofs.Assembly.Meaning
import LittleMan.Proofs.Assembly.Content

/-!
# Labels under other names

The labels of a source text can be given other names in the text itself, where they are declared and
where they are used. As long as different labels get different names, and the names cannot be taken
for anything else, the text is assembled to the same program. Only the table has the new names.
-/

namespace LittleMan.Assembly

/-! ## Giving names -/

def labelsOf (source : String) : List String := (linesOf source).filterMap declared?

/-- A word that is taken for a label wherever a label can stand, and for all of it. -/
@[mk_iff]
structure IsName (word : String) : Prop where
  ne_empty : word ≠ ""
  no_blank : word.toList.any Text.isBlank = false
  no_slash : '/' ∉ word.toList
  no_colon : word.toList.getLast? ≠ some ':'
  no_mnemonic : isMnemonic word = false
  no_number : Word.read? word.toList = none

instance (word : String) : Decidable (IsName word) := decidable_of_iff _ (isName_iff word).symm

/-- A label in front of a statement; the colon behind it stays. -/
def renameLabel (r : String → String) (word : String) : String :=
  r (labelName word) ++ if word.toList.getLast? = some ':' then ":" else ""

def renameOperand (r : String → String) (word : String) : String :=
  if (Word.read? word.toList).isSome then word else r word

/-- The words of a line with the labels among them renamed. -/
def renameWords (r : String → String) : List String → List String
  | [word] => if isMnemonic word then [word] else [renameLabel r word]
  | [first, second] =>
    if isMnemonic first then [first, renameOperand r second] else [renameLabel r first, second]
  | [label, opcode, operand] => [renameLabel r label, opcode, renameOperand r operand]
  | words => words

/-- The part of a line in front of its comment, with the labels renamed. The blanks stay. -/
def renameFront (r : String → String) (line : List Char) : List Char :=
  Text.refill ((renameWords r (wordsOf line)).map String.toList) (Text.uncommented line)

def renameLine (r : String → String) (line : List Char) : List Char :=
  renameFront r line ++ line.drop (Text.uncommented line).length

def rename (r : String → String) (source : String) : String :=
  String.ofList (['\n'].intercalate ((source.toList.splitOn '\n').map (renameLine r)))

/-! ## Words that stay words -/

/-- A word that is read back from a text that it is put in, and starts no comment there. -/
def Solid (word : String) : Prop :=
  word.toList ≠ [] ∧ ∀ c ∈ word.toList, Text.isBlank c = false ∧ c ≠ '/'

theorem IsName.solid {word : String} (h : IsName word) : Solid word := by
  have hblank : ∀ c ∈ word.toList, Text.isBlank c = false := by simpa using h.no_blank
  refine ⟨by simpa using h.ne_empty, fun c hc => ⟨hblank c hc, ?_⟩⟩
  rintro rfl
  exact h.no_slash hc

theorem plain_of_isMnemonic {word : String} (h : isMnemonic word = true) :
    ∀ c ∈ word.toList, Text.Plain c ∧ c ≠ ':' := by
  have hall : word.toList.all (fun c => decide (Text.Plain c ∧ c ≠ ':')) = true := by
    unfold isMnemonic Mnemonic.ofWord? at h
    split at h
    all_goals first | decide | cases h
  intro c hc
  exact of_decide_eq_true (List.all_eq_true.mp hall c hc)

theorem solid_of_isMnemonic {word : String} (h : isMnemonic word = true) : Solid word := by
  constructor
  · intro hnil
    rw [String.toList_eq_nil_iff.mp hnil] at h
    exact absurd h (by decide)
  · intro c hc
    have hplain := (plain_of_isMnemonic h c hc).1
    exact ⟨hplain.isBlank, hplain.2.2⟩

theorem solid_of_isSome_read? {word : String} (h : (Word.read? word.toList).isSome = true) :
    Solid word := by
  obtain ⟨w, hw⟩ := Option.isSome_iff_exists.mp h
  obtain ⟨i, hi, -⟩ := Option.bind_eq_some_iff.mp hw
  obtain ⟨hne, hmem⟩ := Numeral.mem_of_integer? hi
  refine ⟨hne, fun c hc => ?_⟩
  rcases hmem c hc with hdigit | rfl | rfl
  · have hplain := Text.plain_of_isDigit hdigit
    exact ⟨hplain.isBlank, hplain.2.2⟩
  · decide
  · decide

/-! ## One word -/

variable {r : String → String}

theorem labelName_renameLabel {word : String} (h : IsName (r (labelName word))) :
    labelName (renameLabel r word) = r (labelName word) := by
  unfold renameLabel
  split_ifs
  · simp [labelName]
  · rw [String.append_empty, labelName, if_neg h.no_colon]

theorem isMnemonic_renameLabel {word : String} (h : IsName (r (labelName word))) :
    isMnemonic (renameLabel r word) = false := by
  unfold renameLabel
  split_ifs
  · rw [← Bool.not_eq_true]
    intro hm
    exact (plain_of_isMnemonic hm ':' (by simp)).2 rfl
  · rw [String.append_empty]
    exact h.no_mnemonic

theorem solid_renameLabel {word : String} (h : IsName (r (labelName word))) :
    Solid (renameLabel r word) := by
  obtain ⟨hne, hmem⟩ := h.solid
  unfold renameLabel
  split_ifs
  · refine ⟨by simp, fun c hc => ?_⟩
    rw [String.toList_append, List.mem_append] at hc
    rcases hc with hc | hc
    · exact hmem c hc
    · obtain rfl : c = ':' := by simpa using hc
      decide
  · rw [String.append_empty]
    exact h.solid

theorem solid_renameOperand {word : String}
    (h : Word.read? word.toList = none → IsName (r word)) : Solid (renameOperand r word) := by
  unfold renameOperand
  split_ifs with hnumber
  · exact solid_of_isSome_read? hnumber
  · exact (h (by simpa using hnumber)).solid

theorem ofWord_renameOperand {g : Guise} {word : String}
    (h : Word.read? word.toList = none → IsName (r word) ∧ g.name word = r word) :
    Operand.ofWord (renameOperand r word) = g.operand (Operand.ofWord word) := by
  unfold renameOperand Operand.ofWord
  cases hnumber : Word.read? word.toList with
  | some w => simp [hnumber, Guise.operand]
  | none =>
    obtain ⟨hname, hsame⟩ := h hnumber
    simp [hname.no_number, Guise.operand, hsame]

/-! ## The words of a line -/

/-- A line of these words makes a statement, and every label that it speaks of is known. -/
inductive Speaks (known : List String) : List String → Prop
  | blank : Speaks known []
  | label {label : String} (hlabel : isMnemonic label = false) (hknown : labelName label ∈ known) :
    Speaks known [label]
  | opcode {opcode : String} (hopcode : isMnemonic opcode = true) : Speaks known [opcode]
  | operand {opcode operand : String} (hopcode : isMnemonic opcode = true)
    (hoperand : Word.read? operand.toList = none → operand ∈ known) :
    Speaks known [opcode, operand]
  | labelled {label opcode : String} (hlabel : isMnemonic label = false)
    (hopcode : isMnemonic opcode = true) (hknown : labelName label ∈ known) :
    Speaks known [label, opcode]
  | full {label opcode operand : String} (hopcode : isMnemonic opcode = true)
    (hknown : labelName label ∈ known)
    (hoperand : Word.read? operand.toList = none → operand ∈ known) :
    Speaks known [label, opcode, operand]

theorem length_renameWords (r : String → String) (words : List String) :
    (renameWords r words).length = words.length := by
  unfold renameWords
  split <;> (try split_ifs) <;> rfl

variable {known words : List String}

theorem solid_renameWords (hnames : ∀ l ∈ known, IsName (r l)) (h : Speaks known words) :
    ∀ w ∈ renameWords r words, Solid w := by
  cases h with
  | blank => simp [renameWords]
  | label hlabel hknown =>
    simpa [renameWords, hlabel] using solid_renameLabel (hnames _ hknown)
  | opcode hopcode => simpa [renameWords, hopcode] using solid_of_isMnemonic hopcode
  | operand hopcode hoperand =>
    have hsolid := solid_renameOperand fun hnumber => hnames _ (hoperand hnumber)
    simpa [renameWords, hopcode] using ⟨solid_of_isMnemonic hopcode, hsolid⟩
  | labelled hlabel hopcode hknown =>
    simpa [renameWords, hlabel] using
      ⟨solid_renameLabel (hnames _ hknown), solid_of_isMnemonic hopcode⟩
  | full hopcode hknown hoperand =>
    have hsolid := solid_renameOperand fun hnumber => hnames _ (hoperand hnumber)
    simpa [renameWords] using
      ⟨solid_renameLabel (hnames _ hknown), solid_of_isMnemonic hopcode, hsolid⟩

theorem saysWords_renameWords {g : Guise} (hempty : "" ∉ known)
    (hnames : ∀ l ∈ known, IsName (r l) ∧ g.name l = r l) (h : Speaks known words) :
    g.SaysWords words (renameWords r words) := by
  have hlabel : ∀ {label : String}, labelName label ∈ known →
      labelName (renameLabel r label) = g.name (labelName label) ∧
        (labelName (renameLabel r label) = "" ↔ labelName label = "") ∧
        isMnemonic (renameLabel r label) = false := by
    intro label hknown
    obtain ⟨hname, hsame⟩ := hnames _ hknown
    have hne : labelName label ≠ "" := fun he => hempty (he ▸ hknown)
    rw [labelName_renameLabel hname, hsame]
    simp [hname.ne_empty, hne, isMnemonic_renameLabel hname]
  have hoperand : ∀ {operand : String}, (Word.read? operand.toList = none → operand ∈ known) →
      Operand.ofWord (renameOperand r operand) = g.operand (Operand.ofWord operand) :=
    fun hknown => ofWord_renameOperand fun hnumber => hnames _ (hknown hnumber)
  unfold Guise.SaysWords
  cases h with
  | blank => exact ⟨rfl, Iff.rfl, rfl, rfl⟩
  | label hl hknown =>
    obtain ⟨hname, hnone, hm⟩ := hlabel hknown
    simp only [renameWords, Statement.ofWords, hl, hm, Bool.false_eq_true, if_false]
    exact ⟨by simp [hname], by simpa using hnone, rfl, rfl⟩
  | opcode ho =>
    simp only [renameWords, Statement.ofWords, ho, if_true]
    exact ⟨rfl, Iff.rfl, rfl, rfl⟩
  | operand ho hknown =>
    simp only [renameWords, Statement.ofWords, ho, if_true]
    exact ⟨rfl, Iff.rfl, rfl, by simp [hoperand hknown]⟩
  | labelled hl ho hknown =>
    obtain ⟨hname, hnone, hm⟩ := hlabel hknown
    simp only [renameWords, Statement.ofWords, hl, ho, hm, Bool.false_eq_true, if_false, if_true]
    exact ⟨by simp [hname], by simpa using hnone, rfl, rfl⟩
  | full ho hknown hknown' =>
    obtain ⟨hname, hnone, -⟩ := hlabel hknown
    exact ⟨by simp [hname], by simpa using hnone, rfl, by simp [hoperand hknown']⟩

/-! ## The text of a line -/

theorem mem_renameLine {line : List Char} {c : Char} (h : c ∈ renameLine r line) :
    c ∈ line ∨ ∃ w ∈ renameWords r (wordsOf line), c ∈ w.toList := by
  rcases List.mem_append.mp h with h | h
  · rcases Text.mem_refill h with ⟨hc, -⟩ | ⟨w, hw, hc⟩
    · obtain ⟨comment, hline, -⟩ := Text.uncommented_split line
      left
      rw [hline]
      exact List.mem_append_left _ hc
    · obtain ⟨word, hword, rfl⟩ := List.mem_map.mp hw
      exact .inr ⟨word, hword, hc⟩
  · exact .inl (List.mem_of_mem_drop h)

theorem newline_not_mem_renameLine {line : List Char} (hline : '\n' ∉ line)
    (hsolid : ∀ w ∈ renameWords r (wordsOf line), Solid w) : '\n' ∉ renameLine r line := by
  intro h
  rcases mem_renameLine h with h | ⟨w, hw, hc⟩
  · exact hline h
  · exact absurd ((hsolid w hw).2 _ hc).1 (by decide)

theorem words_renameFront {line : List Char}
    (hsolid : ∀ w ∈ renameWords r (wordsOf line), Solid w) :
    Text.words (renameFront r line) = (renameWords r (wordsOf line)).map String.toList := by
  apply Text.words_refill
  · rw [List.length_map, length_renameWords, wordsOf, List.length_map]
  · intro w hw
    obtain ⟨word, hword, rfl⟩ := List.mem_map.mp hw
    exact ⟨(hsolid word hword).1, fun c hc => ((hsolid word hword).2 c hc).1⟩

theorem slash_not_mem_renameFront {line : List Char}
    (hsolid : ∀ w ∈ renameWords r (wordsOf line), Solid w) : '/' ∉ renameFront r line := by
  intro h
  rcases Text.mem_refill h with ⟨-, hblank⟩ | ⟨w, hw, hc⟩
  · exact absurd hblank (by decide)
  · obtain ⟨word, hword, rfl⟩ := List.mem_map.mp hw
    exact ((hsolid word hword).2 _ hc).2 rfl

theorem wordsOf_renameLine {line : List Char}
    (hsolid : ∀ w ∈ renameWords r (wordsOf line), Solid w) :
    wordsOf (renameLine r line) = renameWords r (wordsOf line) := by
  have hslash := slash_not_mem_renameFront hsolid
  obtain ⟨comment, hline, hcomment⟩ := Text.uncommented_split line
  have hdrop : line.drop (Text.uncommented line).length = comment := by
    simpa using congrArg (List.drop (Text.uncommented line).length) hline
  have hfront : Text.uncommented (renameLine r line) = renameFront r line := by
    rw [renameLine, hdrop]
    rcases hcomment with rfl | ⟨rest, rfl⟩
    · rw [List.append_nil, Text.uncommented_of_not_mem hslash]
    · exact Text.uncommented_append _ rest hslash
  rw [wordsOf, hfront, words_renameFront hsolid]
  simp [Function.comp_def]

/-! ## The whole text -/

theorem contentLines_rename {source : String} (hnames : ∀ l ∈ known, IsName (r l))
    (h : ∀ words ∈ contentLines source, Speaks known words) :
    contentLines (rename r source) = (contentLines source).map (renameWords r) := by
  have hsolid : ∀ line ∈ source.toList.splitOn '\n', ∀ w ∈ renameWords r (wordsOf line),
      Solid w := by
    intro line hline
    apply solid_renameWords hnames
    by_cases hblank : wordsOf line = []
    · rw [hblank]
      exact .blank
    · apply h
      rw [contentLines_eq, List.mem_filter]
      exact ⟨List.mem_map_of_mem hline, by simpa using hblank⟩
  have hnewline : ∀ piece ∈ (source.toList.splitOn '\n').map (renameLine r), '\n' ∉ piece := by
    intro piece hpiece
    obtain ⟨line, hline, rfl⟩ := List.mem_map.mp hpiece
    exact newline_not_mem_renameLine (Text.newline_not_mem_of_mem_splitOn hline)
      (hsolid line hline)
  have hwords : ∀ line ∈ source.toList.splitOn '\n',
      (wordsOf ∘ renameLine r) line = (renameWords r ∘ wordsOf) line :=
    fun line hline => wordsOf_renameLine (hsolid line hline)
  have hblank : ((fun words => decide (words ≠ [])) ∘ renameWords r) =
      fun words => decide (words ≠ []) := by
    funext words
    rw [Function.comp_apply, decide_eq_decide, ← List.length_pos_iff, ← List.length_pos_iff,
      length_renameWords]
  rw [rename, contentLines_intercalate String.toList_ofList hnewline, contentLines_eq, List.map_map,
    List.map_congr_left hwords, ← List.map_map, List.filter_map, hblank]

theorem exists_mem_entriesOf {lines : List (List String)} (hl : WellFormed lines)
    (hw : words ∈ lines) (hb : bears words = true) :
    ∃ e ∈ entriesOf lines, e.operand = (operandWord words).map .ofWord := by
  obtain ⟨i, hi⟩ := List.mem_iff_getElem?.mp hw
  obtain ⟨e, he⟩ := Option.isSome_iff_exists.mp (isSome_entryOf? hl hw hb (1 + i))
  refine ⟨e, ?_, ?_⟩
  · unfold entriesOf entriesFrom
    rw [List.reduceOption_mem_iff, List.mem_map]
    have hzip : (words, 1 + i) ∈ lines.zipIdx 1 := by
      rw [List.mem_iff_getElem?]
      exact ⟨i, by simp [hi]⟩
    exact ⟨(words, 1 + i), List.mem_filter.mpr ⟨hzip, hb⟩, he⟩
  · obtain ⟨mnemonic, -, rfl⟩ := Option.map_eq_some_iff.mp he
    rfl

theorem operand_mem_declared {lines : List (List String)} {operand : String}
    (hl : WellFormed lines) (hresolvable : ∀ e ∈ entriesOf lines, e.Resolvable lines)
    (hw : words ∈ lines) (hoperand : operandWord words = some operand)
    (hnumber : Word.read? operand.toList = none) : operand ∈ lines.filterMap declared? := by
  have hb : bears words = true := by
    unfold operandWord at hoperand
    split at hoperand <;> first | rfl | cases hoperand
  obtain ⟨e, he, heoperand⟩ := exists_mem_entriesOf hl hw hb
  apply mem_filterMap_declared.mpr
  apply hresolvable e he
  simp [heoperand, hoperand, Operand.ofWord, hnumber]

theorem speaks_of_assembled {a : Architecture} {settings : Settings} {lines : List (List String)}
    {program : Program} (h : Assembled a settings lines program) :
    ∀ words ∈ lines, Speaks (lines.filterMap declared?) words := by
  intro words hw
  have hl := h.wellFormed
  have hlabel : ∀ l, declared? words = some l → l ∈ lines.filterMap declared? :=
    fun l hdeclared => List.mem_filterMap.mpr ⟨words, hw, hdeclared⟩
  have hoperand : ∀ w, operandWord words = some w → Word.read? w.toList = none →
      w ∈ lines.filterMap declared? :=
    fun w => operand_mem_declared hl (h.meets .labels) hw
  match words with
  | [] => exact .blank
  | [word] =>
    cases hword : isMnemonic word with
    | true => exact .opcode hword
    | false => exact .label hword (hlabel _ (by simp [declared?, hword]))
  | [first, second] =>
    cases hfirst : isMnemonic first with
    | true => exact .operand hfirst (hoperand _ (by simp [operandWord, hfirst]))
    | false =>
      have hsecond : isMnemonic second = true := by simpa [hfirst] using hl.two first second hw
      exact .labelled hfirst hsecond (hlabel _ (by simp [declared?, hfirst]))
  | [label, opcode, operand] =>
    exact .full (hl.three label opcode operand hw) (hlabel _ rfl) (hoperand _ rfl)
  | _ :: _ :: _ :: _ :: _ =>
    have hshort := hl.short _ hw
    simp only [List.length_cons] at hshort
    omega

/-! ## The table -/

theorem Guise.find?_table_eq_some {g : Guise} {t : LabelTable} {name : String} {k : Nat} :
    (g.table t).find? name = some k ↔ ∃ l, g.name l = name ∧ t.find? l = some k := by
  constructor
  · intro h
    obtain ⟨b, hb, hname⟩ := List.lookup_isSome_iff.mp (Option.isSome_of_eq_some h)
    obtain ⟨⟨l, _⟩, -, rfl⟩ := List.mem_map.mp hb
    obtain rfl : name = g.name l := by simpa using hname
    exact ⟨l, rfl, by rw [← g.find?_table, h]⟩
  · rintro ⟨l, rfl, hk⟩
    rw [g.find?_table, hk]

theorem Draft.labels_of_complete {a : Architecture} {result : EStateM.Result Error Draft Unit}
    {program : Program} (h : complete a result = .ok program) :
    ∃ d, result = .ok () d ∧ program.labels = d.labels := by
  unfold complete at h
  split at h
  · cases h
  · rename_i d
    split at h
    · cases h
    · dsimp only at h
      split_ifs at h
      cases h
      exact ⟨d, rfl, rfl⟩

theorem mem_labelsOf_of_find? {a : Architecture} {settings : Settings} {source : String}
    {program : Program} (h : assemble a settings source = .ok program) {l : String} {k : Nat}
    (hk : program.labels.find? l = some k) : l ∈ labelsOf source := by
  have houtcome := assemble_outcome a settings source
  rw [h] at houtcome
  obtain ⟨d, hparse, hholds⟩ := Draft.parse_of_wellFormed settings houtcome.wellFormed
  unfold assemble at h
  rw [Draft.assemble_eq_complete, Draft.bind_of_ok hparse] at h
  obtain ⟨d', hresolve, hlabels⟩ := Draft.labels_of_complete h
  have hsame : d'.labels = d.labels := by
    unfold Draft.resolve at hresolve
    split at hresolve <;> cases hresolve
    rfl
  rw [hlabels, hsame] at hk
  obtain ⟨i, hi, -⟩ := (hholds.labels l k).mp hk
  exact mem_filterMap_declared.mpr ⟨i, hi⟩

/-- A map that is injective on the known labels, and leaves the others where no name can be. -/
def extension (known : List String) (r : String → String) (l : String) : String :=
  if l ∈ known then r l else " " ++ l

theorem injective_extension (hinjective : ∀ l ∈ known, ∀ l' ∈ known, r l = r l' → l = l')
    (hnames : ∀ l ∈ known, IsName (r l)) : Function.Injective (extension known r) := by
  have hblank : ∀ l ∈ known, ∀ l', r l ≠ " " ++ l' := by
    intro l hl l' heq
    have hc := ((hnames l hl).solid.2 ' ' (by simp [heq])).1
    exact absurd hc (by decide)
  intro l l' heq
  unfold extension at heq
  split_ifs at heq with hl hl' hl'
  · exact hinjective l hl l' hl' heq
  · exact absurd heq (hblank l hl l')
  · exact absurd heq.symm (hblank l' hl' l)
  · simpa using heq

/-! ## Renaming -/

theorem assembleContent_guise (a : Architecture) (g : Guise) (hsource : g.source = "")
    (hline : g.line = id) {lines : List (List String)} {f : List String → List String}
    (h : ∀ words ∈ lines, g.SaysWords words (f words)) :
    assembleContent a g.settings (lines.map f) =
      g.outcome (assembleContent a g.settings lines) := by
  have hlines : List.Forall₂ (fun l l' => g.SaysWords l.1 l'.1 ∧ l'.2 = g.line l.2)
      lines.zipIdx (lines.map f).zipIdx := by
    rw [List.zipIdx_map, List.forall₂_map_right_iff, List.forall₂_same]
    intro l hl
    exact ⟨h l.1 (List.fst_mem_of_mem_zipIdx hl), by simp [hline]⟩
  have hguise := assembleNumbered_guise a g "" lines.length hlines
  rw [hsource, hline] at hguise
  unfold assembleContent
  rw [List.length_map]
  exact hguise

/-- The names of labels do not matter. -/
theorem assemble_rename {a : Architecture} {settings : Settings} {source : String}
    {program : Program} (h : assemble a settings source = .ok program) {r : String → String}
    (hinjective : ∀ l ∈ labelsOf source, ∀ l' ∈ labelsOf source, r l = r l' → l = l')
    (hnames : ∀ l ∈ labelsOf source, IsName (r l)) :
    ∃ labels, assemble a settings (rename r source) = .ok { program with labels } ∧
      ∀ name k, labels.find? name = some k ↔
        ∃ l ∈ labelsOf source, r l = name ∧ program.labels.find? l = some k := by
  have houtcome := assemble_outcome a settings source
  rw [h] at houtcome
  have hspeaks : ∀ words ∈ contentLines source, Speaks (labelsOf source) words :=
    fun words hw => speaks_of_assembled houtcome words (List.mem_of_mem_filter hw)
  have hempty : "" ∉ labelsOf source := by
    intro hmem
    obtain ⟨i, hi⟩ := mem_filterMap_declared.mp hmem
    exact houtcome.wellFormed.named i hi
  let g : Guise :=
    { source := ""
      settings
      name := extension (labelsOf source) r
      injective := injective_extension hinjective hnames }
  have hsame : ∀ l ∈ labelsOf source, g.name l = r l := fun l hl => if_pos hl
  have hcontent : assembleContent a settings (contentLines (rename r source)) =
      g.outcome (.ok program) := by
    rw [contentLines_rename hnames hspeaks, ← assemble_eq_ok.mp h]
    apply assembleContent_guise a g rfl rfl
    exact fun words hw =>
      saysWords_renameWords hempty (fun l hl => ⟨hnames l hl, hsame l hl⟩) (hspeaks words hw)
  refine ⟨g.table program.labels, assemble_eq_ok.mpr hcontent, ?_⟩
  intro name k
  rw [Guise.find?_table_eq_some]
  constructor
  · rintro ⟨l, rfl, hk⟩
    have hl := mem_labelsOf_of_find? h hk
    exact ⟨l, hl, (hsame l hl).symm, hk⟩
  · rintro ⟨l, hl, rfl, hk⟩
    exact ⟨l, hsame l hl, hk⟩

theorem assemble_rename_swap :
    ∃ r labels, rename r "HLT LDA x // x\nBRA HLT\nx:\tDAT 7\nend:" =
        "start LDA end // x\nBRA start\nend:\tDAT 7\nx:" ∧
      assemble .decimal {} "start LDA end // x\nBRA start\nend:\tDAT 7\nx:" =
        .ok
          { items := [.code (.load 2), .code (.branch 0), .data 7]
            labels
            image := [502, 600, 7] } ∧
      labels.find? "x" = some 3 := by
  let r : String → String := fun l =>
    if l = "HLT" then "start" else if l = "x" then "end" else "x"
  have hok : assemble .decimal {} "HLT LDA x // x\nBRA HLT\nx:\tDAT 7\nend:" =
      .ok
        { items := [.code (.load 2), .code (.branch 0), .data 7]
          labels := ⟨[("end", 3), ("x", 2), ("HLT", 0)]⟩
          image := [502, 600, 7] } := by decide +kernel
  have hlabels : labelsOf "HLT LDA x // x\nBRA HLT\nx:\tDAT 7\nend:" = ["HLT", "x", "end"] := by
    decide +kernel
  have hrename : rename r "HLT LDA x // x\nBRA HLT\nx:\tDAT 7\nend:" =
      "start LDA end // x\nBRA start\nend:\tDAT 7\nx:" := by decide +kernel
  obtain ⟨labels, hsame, htable⟩ := assemble_rename hok (r := r)
    (by rw [hlabels]; decide) (by rw [hlabels]; decide +kernel)
  rw [hrename] at hsame
  refine ⟨r, labels, hrename, hsame, ?_⟩
  rw [htable, hlabels]
  exact ⟨"end", by decide, by decide, by decide⟩

end LittleMan.Assembly
