import Mathlib.Data.List.Induction
import Mathlib.Tactic.Common
import LittleMan.Proofs.Channel.Transcript
import LittleMan.Proofs.Text.Numeral

/-!
# Character lines

Whether a number ends its line depends on the last character that was printed before it, and on
nothing else: not on the numbers in between, nor on what was taken from the output. A character line
is in progress exactly while the last line of the output is not ended.
-/

namespace LittleMan

inductive Print
  | number (w : Word)
  | character (code : Word)

namespace Print

def request : Print → Request
  | number w => .writeNumber w
  | character code => .writeChar code

def sent {C : Type} [Channel C] (c : C) (p : Print) : C := stateOf (p.request.put c)

/-! ## The text -/

def char? : Print → Option Char
  | number _ => none
  | character code => Channel.character? code

/-- No character has been printed yet, or the last one is a newline. -/
def lineEnded (before : List Print) : Bool := (before.filterMap char?).getLast?.all (· == '\n')

def text (before : List Print) : Print → String
  | number w => w.text ++ if lineEnded before then "\n" else ""
  | character code => ((Channel.character? code).map String.singleton).getD ""

def written (prints : List Print) : String :=
  String.join (prints.zipIdx.map fun (p, k) => p.text (prints.take k))

theorem written_concat (prints : List Print) (p : Print) :
    written (prints ++ [p]) = written prints ++ p.text prints := by
  have hfront : prints.zipIdx.map (fun (q, k) => q.text ((prints ++ [p]).take k)) =
      prints.zipIdx.map fun (q, k) => q.text (prints.take k) := by
    apply List.map_congr_left
    rintro ⟨q, k⟩ hq
    obtain ⟨hk, -⟩ := List.getElem?_eq_some_iff.mp (List.mem_zipIdx_iff_getElem?.mp hq)
    have htake : (prints ++ [p]).take k = prints.take k :=
      List.take_append_of_le_length (Nat.le_of_lt hk)
    simp only [htake]
  unfold written
  rw [List.zipIdx_append, List.map_append, String.join_append, hfront]
  simp

theorem numberText_lineEnded (prints : List Print) (w : Word) :
    Channel.numberText (!lineEnded prints) w = (number w).text prints := by
  cases h : lineEnded prints <;> simp [Channel.numberText, text, h]

theorem lineEnded_concat_number (prints : List Print) (w : Word) :
    lineEnded (prints ++ [number w]) = lineEnded prints := by
  simp [lineEnded, char?]

theorem lineEnded_concat_character (prints : List Print) (code : Word) :
    lineEnded (prints ++ [character code]) =
      match Channel.character? code with
      | some c => c == '\n'
      | none => lineEnded prints := by
  cases h : Channel.character? code <;> simp [lineEnded, char?, h]

theorem getLast?_text_ne (w : Word) : ∃ c, w.text.toList.getLast? = some c ∧ c ≠ '\n' := by
  obtain ⟨c, hc⟩ := Option.isSome_iff_exists.mp
    (List.getLast?_isSome.mpr w.toList_text_ne_nil)
  refine ⟨c, hc, ?_⟩
  rintro rfl
  exact absurd (Numeral.plain_ofInt (List.mem_of_getLast? hc)) (by decide)

theorem lineEnded_eq (prints : List Print) :
    lineEnded prints = (written prints).toList.getLast?.all (· == '\n') := by
  induction prints using List.reverseRecOn with
  | nil => rfl
  | append_singleton prints p ih =>
    rw [written_concat]
    cases p with
    | number w =>
      -- A number leaves a line ended that was ended, and open that was open.
      obtain ⟨c, hc, hne⟩ := getLast?_text_ne w
      rw [lineEnded_concat_number]
      by_cases h : lineEnded prints = true
      · simp [text, h]
      · simp [text, h, hc, hne]
    | character code =>
      rw [lineEnded_concat_character]
      cases h : Channel.character? code with
      | none => simpa [text, h] using ih
      | some c => simp [text, h]

theorem lineEnded_eq_false {prints : List Print} :
    lineEnded prints = false ↔
      written prints ≠ "" ∧ (written prints).toList.getLast? ≠ some '\n' := by
  rw [lineEnded_eq, ne_eq, ← String.toList_eq_nil_iff, ← List.getLast?_eq_none_iff]
  cases (written prints).toList.getLast? <;> simp

end Print

/-! ## Buffers -/

namespace Buffer

theorem sent_print (p : Print) {prints : List Print} {b : Buffer}
    (h : b.midLine = !Print.lineEnded prints) :
    p.sent b =
      { b with
        output := b.output ++ p.text prints
        midLine := !Print.lineEnded (prints ++ [p]) } := by
  cases p with
  | number w =>
    rw [Print.sent, Print.request, put_writeNumber, Print.lineEnded_concat_number, h,
      Print.numberText_lineEnded, ← h]
    rfl
  | character code =>
    rw [Print.sent, Print.request, put_writeChar, Print.lineEnded_concat_character]
    cases hcode : Channel.character? code with
    | none => simp [stateOf, Print.text, hcode, ← h]
    | some c => simp [stateOf, Print.text, hcode, Channel.startsLine, bne]

theorem sent_of_no_char {code : Word} {b : Buffer} (h : Channel.character? code = none) :
    (Print.character code).sent b = b := by
  rw [Print.sent, Print.request, put_writeChar, h]
  rfl

inductive Use
  | print (p : Print)
  | take

def Use.prints : Use → List Print
  | print p => [p]
  | take => []

structure Collection where
  taken : String := ""
  buffer : Buffer

namespace Collection

def printed (c : Collection) : String := c.taken ++ c.buffer.output

def apply (c : Collection) : Use → Collection
  | .print p => { c with buffer := p.sent c.buffer }
  | .take => { taken := c.taken ++ c.buffer.takeOutput.1, buffer := c.buffer.takeOutput.2 }

/-- What is so before and after each use, when `prints` was all there was to print. -/
structure Shows (c : Collection) (prints : List Print) : Prop where
  printed : c.printed = Print.written prints
  midLine : c.buffer.midLine = !Print.lineEnded prints

variable {c : Collection} {before : List Print}

theorem Shows.apply (h : c.Shows before) (u : Use) :
    (c.apply u).Shows (before ++ u.prints) := by
  cases u with
  | print p =>
    have hsent := sent_print p h.midLine
    refine ⟨?_, ?_⟩
    · simp only [Collection.printed, Collection.apply, hsent, Use.prints, Print.written_concat,
        ← h.printed, String.append_assoc]
    · simp only [Collection.apply, hsent, Use.prints]
  | take =>
    refine ⟨?_, ?_⟩
    · simpa [Collection.printed, Collection.apply, takeOutput, Use.prints] using h.printed
    · simpa [Collection.apply, takeOutput, Use.prints] using h.midLine

theorem Shows.foldl (h : c.Shows before) (uses : List Use) :
    (uses.foldl Collection.apply c).Shows (before ++ uses.flatMap Use.prints) := by
  induction uses generalizing c before with
  | nil => simpa using h
  | cons u uses ih =>
    rw [List.flatMap_cons, ← List.append_assoc]
    exact ih (h.apply u)

end Collection

end Buffer

/-! ## Consoles -/

namespace Console

theorem sent_print (p : Print) {prints : List Print} {c : Console} (hc : c.capacity = none)
    (h : c.midLine = !Print.lineEnded prints) :
    p.sent c =
      { c with
        written := c.written ++ (p.text prints).toUTF8
        midLine := !Print.lineEnded (prints ++ [p]) } := by
  cases p with
  | number w =>
    rw [Print.sent, Print.request, put_writeNumber hc, Print.lineEnded_concat_number, h,
      Print.numberText_lineEnded, ← h]
    rfl
  | character code =>
    rw [Print.sent, Print.request, put_writeChar hc, Print.lineEnded_concat_character]
    cases hcode : Channel.character? code with
    | none => simp [stateOf, Print.text, hcode, ← h]
    | some c => simp [stateOf, Print.text, hcode, Channel.startsLine, bne]

theorem foldl_sent (unread : List UInt8) (prompt : String) (prints : List Print) :
    prints.foldl Print.sent ({ unread, prompt } : Console) =
      { unread, prompt
        written := (Print.written prints).toUTF8
        midLine := !Print.lineEnded prints } := by
  induction prints using List.reverseRecOn with
  | nil => rfl
  | append_singleton prints p ih =>
    rw [List.foldl_append, ih, List.foldl_cons, List.foldl_nil, sent_print p rfl rfl,
      Print.written_concat]
    simp [String.toUTF8_eq_toByteArray]

theorem sent_of_no_char {code : Word} {c : Console} (hc : c.capacity = none)
    (h : Channel.character? code = none) : (Print.character code).sent c = c := by
  rw [Print.sent, Print.request, put_writeChar hc, h]
  rfl

end Console

/-- A number ends its line unless a character line is in progress, and one is in progress exactly if
something was printed whose last line is not ended. -/
theorem character_line_rule (lines : List String) (unread : List UInt8) (prompt : String)
    (uses : List Buffer.Use) :
    let prints := uses.flatMap Buffer.Use.prints
    let c := uses.foldl Buffer.Collection.apply { buffer := .ofLines lines }
    let console := prints.foldl Print.sent ({ unread, prompt } : Console)
    (∀ code char, Channel.character? code = some char ↔ code.toInt = char.toNat) ∧
    c.printed = Print.written prints ∧
    (c.buffer.midLine = true ↔
      c.printed ≠ "" ∧ c.printed.toList.getLast? ≠ some '\n') ∧
    (∀ code : Word, (∀ char : Char, code.toInt ≠ char.toNat) →
      (Print.character code).sent c.buffer = c.buffer ∧
      (Print.character code).sent console = console) ∧
    console.written = c.printed.toUTF8 ∧ console.midLine = c.buffer.midLine := by
  intro prints c console
  have hnew : Buffer.Collection.Shows { buffer := .ofLines lines } [] := ⟨rfl, rfl⟩
  obtain ⟨hprinted, hmidLine⟩ : c.Shows prints := hnew.foldl uses
  have hconsole : console = _ := Console.foldl_sent unread prompt prints
  refine ⟨fun code char => Channel.character?_eq_some, hprinted, ?_, ?_, ?_, ?_⟩
  · rw [hmidLine, hprinted, Bool.not_eq_true', Print.lineEnded_eq_false]
  · intro code hcode
    have hnone := Channel.character?_eq_none.mpr hcode
    exact ⟨Buffer.sent_of_no_char hnone, Console.sent_of_no_char (by rw [hconsole]) hnone⟩
  · rw [hconsole, hprinted]
  · rw [hconsole, hmidLine]

example : ([.number 1, .character 97, .number 2, .number 3, .character 10, .number 4].foldl
    Print.sent ({} : Buffer)).output = "1\na23\n4\n" := by
  decide +kernel

end LittleMan
