import Mathlib.Tactic.Common
import LittleMan.Proofs.Channel.Transcript
import LittleMan.Proofs.Text.Numeral

/-!
# Printed numbers read back

Numbers that are printed to a new channel stand on a line each. Such lines are input again: reads
give the numbers in their order until there are none left. With a range they give the numbers in
the range and pass over the others.
-/

namespace LittleMan

namespace Channel

/-! ## One read after the other -/

/-- Reads from `c`, one after the other, give the numbers `ws`. The read after them fails with `e`,
and leaves `c'`. -/
inductive Reads {C : Type} [Channel C] (range : Option Range) :
    C → List Word → Channel.Error → C → Prop
  | stop {c c' : C} {e : Channel.Error} (h : readNumber range c = .error e c') :
    Reads range c [] e c'
  | next {c c' c'' : C} {w : Word} {ws : List Word} {e : Channel.Error}
    (h : readNumber range c = .ok w c') (hs : Reads range c' ws e c'') :
    Reads range c (w :: ws) e c''

variable {C : Type} [Channel C] {range : Option Range}

theorem Reads.congr {c d c' : C} {ws : List Word} {e : Channel.Error}
    (h : readNumber range d = readNumber range c) (hs : Reads range c ws e c') :
    Reads range d ws e c' := by
  cases hs with
  | stop hc => exact .stop (h.trans hc)
  | next hc hs => exact .next (h.trans hc) hs

def writeNumbers (ws : List Word) : EStateM Channel.Error C Unit := forM ws writeNumber

theorem writeNumbers_nil (c : C) : writeNumbers [] c = .ok () c := rfl

theorem writeNumbers_cons {w : Word} {c c' : C} (ws : List Word)
    (h : writeNumber w c = .ok () c') : writeNumbers (w :: ws) c = writeNumbers ws c' := by
  simp only [writeNumbers, List.forM_cons, bind, EStateM.bind, h]

/-! ## Lines of numbers -/

def admits (range : Option Range) (w : Word) : Bool := range.all (·.contains w)

def numberLines (ws : List Word) : String := String.join (ws.map fun w => w.text ++ "\n")

theorem numberLines_cons (w : Word) (ws : List Word) :
    numberLines (w :: ws) = w.text ++ "\n" ++ numberLines ws := by
  simp [numberLines]

theorem toList_numberLines (ws : List Word) :
    (numberLines ws).toList = Text.terminated (ws.map fun w => w.text.toList) := by
  simp [numberLines, Text.terminated, String.toList_join, List.flatMap_map]

theorem lines_numberLines (ws : List Word) :
    (Text.lines (numberLines ws).toList).map String.ofList = ws.map Word.text := by
  have hplain : ∀ l ∈ ws.map fun w => w.text.toList, ∀ c ∈ l, Text.Plain c := by
    simp only [List.mem_map, forall_exists_index, and_imp, forall_apply_eq_imp_iff₂]
    intro w _ c hc
    exact Numeral.plain_ofInt hc
  rw [toList_numberLines, Text.lines_terminated]
  · simp
  · intro l hl hc
    exact absurd (hplain l hl _ hc) (by decide)
  · intro l hl hc
    exact absurd (hplain l hl _ hc) (by decide)

theorem accept_text (range : Option Range) (w : Word) :
    accept range w.text.toList = if admits range w then .ok w else .error .outOfRange := by
  have htrim : Text.trim w.text.toList = w.text.toList :=
    Text.trim_of_not_blank fun c hc => (Numeral.plain_ofInt hc).isBlank
  unfold accept admits
  rw [htrim, Word.read?_text]

end Channel

open Channel (Reads admits numberLines)

/-! ## Buffers -/

namespace Buffer

theorem print_numbers (ws : List Word) {b : Buffer} (h : b.midLine = false) :
    Channel.writeNumbers ws b = .ok () { b with output := b.output ++ numberLines ws } := by
  induction ws generalizing b with
  | nil => simp [numberLines, Channel.writeNumbers_nil]
  | cons w ws ih =>
    have hw : Channel.writeNumber w b =
        .ok () { b with output := b.output ++ (w.text ++ "\n") } := by
      simp [Channel.writeNumber, writeNumber, Channel.numberText, h]
    rw [Channel.writeNumbers_cons ws hw, ih, Channel.numberLines_cons]
    · simp only [String.append_assoc]
    · exact h

theorem reads_numbers (range : Option Range) (ws : List Word) (b : Buffer) :
    Reads range { b with pending := ws.map Word.text } (ws.filter (admits range)) .endOfInput
      { b with
        pending := []
        rejected := b.rejected ++ (ws.filter (!admits range ·)).map Word.text } := by
  induction ws generalizing b with
  | nil =>
    apply Reads.stop
    simp [Channel.readNumber, readNumber, readFrom]
  | cons w ws ih =>
    have hread : Channel.readNumber range { b with pending := (w :: ws).map Word.text } =
        if admits range w then .ok w { b with pending := ws.map Word.text }
        else Channel.readNumber range
          { b with pending := ws.map Word.text, rejected := b.rejected.push w.text } := by
      simp only [Channel.readNumber, readNumber, List.map_cons, readFrom, Channel.accept_text]
      cases admits range w with
      | true => rfl
      | false => simp [readFrom_pending range { b with rejected := b.rejected.push w.text }]
    by_cases hw : admits range w = true
    · rw [List.filter_cons_of_pos hw, List.filter_cons_of_neg (by simp [hw])]
      rw [if_pos hw] at hread
      exact .next hread (ih b)
    · rw [List.filter_cons_of_neg hw, List.filter_cons_of_pos (by simp [hw])]
      rw [if_neg hw] at hread
      -- The refused line is the first of those that are passed over.
      have hrest := ih { b with rejected := b.rejected.push w.text }
      simpa using hrest.congr hread

end Buffer

/-! ## Consoles -/

namespace Console

/-- What a console shows that reads the numbers: a prompt for each, with a complaint if it is not
in the range, and then one more prompt. -/
def shown (prompt : String) (range : Option Range) (ws : List Word) : String :=
  String.join (ws.map fun w =>
    prompt ++ if admits range w then "" else Channel.Rejection.outOfRange.message ++ "\n") ++ prompt

theorem shown_none (prompt : String) (ws : List Word) :
    shown prompt none ws = String.join (List.replicate (ws.length + 1) prompt) := by
  simp [shown, admits, List.map_const', List.replicate_succ']

theorem bytes_numberLines (ws : List Word) :
    Text.bytes (numberLines ws) = bytesOf (ws.map Word.text) := by
  induction ws with
  | nil => decide +kernel
  | cons w ws ih => rw [Channel.numberLines_cons, Text.bytes_append, ih]; rfl

theorem print_numbers (ws : List Word) {c : Console} (hc : c.capacity = none)
    (h : c.midLine = false) :
    Channel.writeNumbers ws c =
      .ok () { c with written := c.written ++ (numberLines ws).toUTF8 } := by
  induction ws generalizing c with
  | nil => simp [numberLines, Channel.writeNumbers_nil]
  | cons w ws ih =>
    have hw : Channel.writeNumber w c =
        .ok () { c with written := c.written ++ (w.text ++ "\n").toUTF8 } := by
      rw [← write_of_unlimited hc]
      simp [Channel.writeNumber, writeNumber, Channel.numberText, h]
    rw [Channel.writeNumbers_cons ws hw, ih, Channel.numberLines_cons]
    · simp [String.toUTF8_eq_toByteArray, ByteArray.append_assoc]
    · exact hc
    · exact h

theorem reads_numbers (range : Option Range) (ws : List Word) {c : Console}
    (hc : c.capacity = none) :
    Reads range { c with unread := bytesOf (ws.map Word.text) } (ws.filter (admits range))
      .endOfInput
      { c with unread := [], written := c.written ++ (shown c.prompt range ws).toUTF8 } := by
  induction ws generalizing c with
  | nil =>
    have hread : Channel.readNumber range { c with unread := bytesOf [] } = _ := readFrom_nil hc
    simpa [shown] using Reads.stop hread
  | cons w ws ih =>
    have hline : '\n' ∉ w.text.toList := fun h => absurd (Numeral.plain_ofInt h) (by decide)
    have hread : Channel.readNumber range
        { c with unread := bytesOf (w.text :: ws.map Word.text) } = _ := readFrom_cons hc hline
    rw [Channel.accept_text] at hread
    rw [List.map_cons]
    by_cases hw : admits range w = true
    · rw [List.filter_cons_of_pos hw]
      rw [if_pos hw] at hread
      have hrest := ih (c := { c with written := c.written ++ c.prompt.toUTF8 }) hc
      simpa [shown, hw, String.toUTF8_eq_toByteArray, ByteArray.append_assoc] using
        Reads.next hread hrest
    · rw [List.filter_cons_of_neg hw]
      rw [if_neg hw] at hread
      have hrest := ih (c := { c with
        written := c.written ++
          (c.prompt ++ Channel.Rejection.outOfRange.message ++ "\n").toUTF8 }) hc
      simpa [shown, hw, String.toUTF8_eq_toByteArray, ByteArray.append_assoc] using
        hrest.congr hread

end Console

/-! ## Both -/

/-- Printed numbers are read back in their order, from a buffer and from a console, and no line is
refused but for a range. -/
theorem printed_numbers_read_back (ws : List Word) (lines : List String) (unread : List UInt8)
    (prompt prompt' : String) :
    ∃ text : String,
      Channel.writeNumbers ws (Buffer.ofLines lines) =
        .ok () { Buffer.ofLines lines with output := text } ∧
      Channel.writeNumbers ws ({ unread, prompt } : Console) =
        .ok () { unread, prompt, written := text.toUTF8 } ∧
      Buffer.ofLines ((Text.lines text.toList).map String.ofList) = Buffer.ofNumbers ws ∧
      Reads none (Buffer.ofNumbers ws) ws .endOfInput {} ∧
      Reads none ({ unread := Text.bytes text, prompt := prompt' } : Console) ws .endOfInput
        { unread := [], prompt := prompt'
          written := (String.join (List.replicate (ws.length + 1) prompt')).toUTF8 } ∧
      ∀ r : Range,
        Reads (some r) (Buffer.ofNumbers ws) (ws.filter r.contains) .endOfInput
          { rejected := ((ws.filter (!r.contains ·)).map Word.text).toArray } ∧
        Reads (some r) ({ unread := Text.bytes text, prompt := prompt' } : Console)
          (ws.filter r.contains) .endOfInput
          { unread := [], prompt := prompt'
            written := (Console.shown prompt' (some r) ws).toUTF8 } := by
  have hbuffer : ∀ range, Reads range (Buffer.ofNumbers ws) (ws.filter (admits range)) .endOfInput
      { rejected := ((ws.filter (!admits range ·)).map Word.text).toArray } := by
    intro range
    simpa [Buffer.ofNumbers, Buffer.ofLines] using Buffer.reads_numbers range ws {}
  have hconsole : ∀ range, Reads range
      ({ unread := Text.bytes (numberLines ws), prompt := prompt' } : Console)
      (ws.filter (admits range)) .endOfInput
      { unread := [], prompt := prompt', written := (Console.shown prompt' range ws).toUTF8 } := by
    intro range
    rw [Console.bytes_numberLines]
    simpa using Console.reads_numbers range ws (c := { unread := [], prompt := prompt' }) rfl
  have hnone : ws.filter (admits none) = ws ∧ ws.filter (!admits none ·) = [] := by
    simp [admits]
  refine ⟨numberLines ws, ?_, ?_, ?_, ?_, ?_, fun r => ⟨hbuffer (some r), hconsole (some r)⟩⟩
  · simpa [Buffer.ofLines] using Buffer.print_numbers ws (b := Buffer.ofLines lines) rfl
  · simpa using Console.print_numbers ws (c := { unread, prompt }) rfl rfl
  · rw [Channel.lines_numberLines, Buffer.ofNumbers]
  · simpa [hnone] using hbuffer none
  · simpa [hnone, Console.shown_none] using hconsole none

end LittleMan
