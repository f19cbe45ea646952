import Mathlib.Tactic.Common
import LittleMan.Proofs.Assembly.Content

/-!
# A program that sorts

A bubble sort of five numbers. The machine has no indirect addressing, so the program writes the
instructions that compare and exchange two neighbours anew for each pair, as sums of a template and
the index of the pair.
-/

namespace LittleMan

namespace Assembly

/-- Assemble lines of words, taking them in under the default settings. -/
def assembleBlindly (a : Architecture) (settings : Settings) (lines : List (List String)) :
    Except Error Program :=
  match Draft.parseNumbered lines.zipIdx { source := "", settings := {} } with
  | .error e _ => .error e
  | .ok () d =>
    Draft.complete a ((do Draft.finish lines.length; Draft.resolve : EStateM Error Draft Unit)
      (d.under "" settings))

theorem assembleContent_eq_blindly (a : Architecture) (settings : Settings)
    (lines : List (List String)) :
    assembleContent a settings lines = assembleBlindly a settings lines := by
  have hblind := Draft.blind_parseNumbered lines.zipIdx "" settings { source := "", settings := {} }
  change Draft.parseNumbered lines.zipIdx { source := "", settings } = _ at hblind
  unfold assembleContent assembleNumbered Draft.parseAll assembleBlindly
  cases hlines : Draft.parseNumbered lines.zipIdx { source := "", settings := {} } with
  | error e d =>
    rw [hlines] at hblind
    rw [bind_assoc, Draft.bind_of_error hblind]
    rfl
  | ok u d =>
    rw [hlines] at hblind
    rw [bind_assoc, Draft.bind_of_ok hblind]

theorem contentLines_ofList (text : List Char) :
    contentLines (String.ofList text) = ((Text.lines text).map wordsOf).filter (· ≠ []) := by
  rw [contentLines, linesOf, String.toList_ofList]

end Assembly

namespace Sorting

open Assembly

def source : String :=
"// Read five numbers and print them in ascending order.
//
// Bubble sort over v0..v4. The machine has no indirect addressing, so each
// compare/swap rewrites its own load and store instructions: the templates
// at the bottom point at v0/v1 and get offset by p before every use.
        INP
        STA v0
        INP
        STA v1
        INP
        STA v2
        INP
        STA v3
        INP
        STA v4
pass    LDA zero
        STA swp
        STA p
inner   LDA p           // patch the five instructions below for pair p
        ADD tldb
        STA ldb
        LDA p
        ADD tsua
        STA sua
        LDA p
        ADD tlda
        STA lda
        LDA p
        ADD tstb
        STA stb
        LDA p
        ADD tsta
        STA sta
ldb     DAT             // LDA v[p+1]
        STA t
sua     DAT             // SUB v[p]
        BRP next        // already in order
lda     DAT             // LDA v[p]
stb     DAT             // STA v[p+1]
        LDA t
sta     DAT             // STA v[p]
        LDA one
        STA swp
next    LDA p
        ADD one
        STA p
        SUB four
        BRZ check
        BRA inner
check   LDA swp
        BRZ done
        BRA pass
done    LDA v0
        OUT
        LDA v1
        OUT
        LDA v2
        OUT
        LDA v3
        OUT
        LDA v4
        OUT
        HLT
tldb    LDA v1
tsua    SUB v0
tlda    LDA v0
tstb    STA v1
tsta    STA v0
v0      DAT
v1      DAT
v2      DAT
v3      DAT
v4      DAT
t       DAT
p       DAT
swp     DAT
one     DAT 1
four    DAT 4
zero    DAT 0
"

/-- The words of the program, by the lines of the source between its labels. -/
def image : List Word :=
  [901, 363, 901, 364, 901, 365, 901, 366, 901, 367,
    573, 370, 369,
    569, 158, 328, 569, 159, 330, 569, 160, 332, 569, 161, 333, 569, 162, 335,
    0, 368, 0, 838, 0, 0, 568, 0, 571, 370,
    569, 171, 369, 272, 744, 613,
    570, 747, 610,
    563, 902, 564, 902, 565, 902, 566, 902, 567, 902, 0,
    564, 263, 563, 364, 363,
    0, 0, 0, 0, 0,
    0, 0, 0, 1, 4, 0]

def valueLabels : List String := ["v0", "v1", "v2", "v3", "v4"]

/-- Whether assembling ended with the image, and the labels of the values where they belong. -/
def isProgram (settings : Settings) : Except Assembly.Error Program → Bool
  | .ok program =>
    program.image == image ++ (if settings.appendTrailingHalt then [0] else []) &&
      valueLabels.map program.labels.find? == (List.range 5).map fun k => some (63 + k)
  | .error _ => false

theorem exists_of_isProgram {settings : Settings} {result : Except Assembly.Error Program}
    (h : isProgram settings result = true) :
    ∃ program, result = .ok program ∧
      program.image = image ++ (if settings.appendTrailingHalt then [0] else []) ∧
      valueLabels.map program.labels.find? = (List.range 5).map fun k => some (63 + k) := by
  cases result with
  | error e => cases h
  | ok program => exact ⟨program, rfl, by simpa [isProgram] using h⟩

theorem isProgram_of_text {text : List Char}
    (h : ∀ wrapMemory wrapValues extensions appendTrailingHalt,
      isProgram ⟨wrapMemory, wrapValues, extensions, appendTrailingHalt⟩
        (assembleBlindly .decimal ⟨wrapMemory, wrapValues, extensions, appendTrailingHalt⟩
          (((Text.lines text).map wordsOf).filter (· ≠ []))) = true)
    (settings : Settings) :
    isProgram settings (assembleContent .decimal settings (contentLines (String.ofList text))) =
      true := by
  rw [assembleContent_eq_blindly, contentLines_ofList]
  exact h _ _ _ _

-- A literal is the list of its characters, and as such it can be computed with.
set_option maxRecDepth 20000 in
theorem isProgram_source (settings : Settings) :
    isProgram settings (assembleContent .decimal settings (contentLines source)) = true :=
  isProgram_of_text (by decide +kernel) settings

theorem assemble_source (settings : Settings) :
    ∃ program, assemble .decimal settings source = .ok program ∧
      program.image = image ++ (if settings.appendTrailingHalt then [0] else []) ∧
      valueLabels.map program.labels.find? = (List.range 5).map fun k => some (63 + k) := by
  obtain ⟨program, hresult, hprogram⟩ := exists_of_isProgram (isProgram_source settings)
  exact ⟨program, assemble_eq_ok.mpr hresult, hprogram⟩

end Sorting

end LittleMan
