import Mathlib.Tactic.Common
import LittleMan.Channel.Console
import LittleMan.Proofs.Channel.Buffer
import LittleMan.Proofs.Text.Line

/-!
# Transcripts

What passes between a machine and its channel, turn by turn. A buffer keeps what was printed and the
lines that were passed over. A console with the same lines to read answers each request as the
buffer does; it shows what was printed, and besides a prompt for each line that it asks for and a
complaint about each that it passes over.
-/

namespace LittleMan

/-! ## Turns -/

/-- What a request led to. If it was to read a number, these are the lines that were passed over,
each with the reason, before one was taken or there was none left. -/
inductive Turn
  | printed (text : String)
  | asked (passed : List (String × Channel.Rejection))
deriving DecidableEq

namespace Turn

def output : Turn → String
  | printed text => text
  | asked _ => ""

def refused : Turn → List String
  | printed _ => []
  | asked passed => passed.map (·.1)

/-- What a console shows of a turn: a prompt and a complaint for each line that is passed over, and
then one more prompt. -/
def shown (prompt : String) : Turn → String
  | printed text => text
  | asked passed => String.join (passed.map fun p => prompt ++ p.2.message ++ "\n") ++ prompt

end Turn

/-- The lines before the first that is taken, each with the reason. -/
def Channel.passed (range : Option Range) : List String → List (String × Rejection)
  | [] => []
  | line :: lines =>
    match accept range line.toList with
    | .ok _ => []
    | .error reason => (line, reason) :: passed range lines

def Request.turn (b : Buffer) : Request → Turn
  | readNumber range => .asked (Channel.passed range b.pending)
  | writeNumber w => .printed (Channel.numberText b.midLine w)
  | writeChar code => .printed (((Channel.character? code).map String.singleton).getD "")

def stateOf {ε σ α : Type} : EStateM.Result ε σ α → σ
  | .ok _ s => s
  | .error _ s => s

/-! ## Buffers -/

namespace Buffer

structure Keeps (b : Buffer) (turns : List Turn) (b' : Buffer) : Prop where
  output : b'.output = b.output ++ String.join (turns.map Turn.output)
  rejected : b'.rejected.toList = b.rejected.toList ++ turns.flatMap Turn.refused
  pending : b'.pending <:+ b.pending

variable {b b' b'' : Buffer} {turns turns' : List Turn}

theorem keeps_nil (b : Buffer) : b.Keeps [] b := ⟨by simp, by simp, List.suffix_rfl⟩

theorem Keeps.trans (h : b.Keeps turns b') (h' : b'.Keeps turns' b'') :
    b.Keeps (turns ++ turns') b'' := by
  refine ⟨?_, ?_, h'.pending.trans h.pending⟩
  · rw [h'.output, h.output, List.map_append, String.join_append, String.append_assoc]
  · rw [h'.rejected, h.rejected, List.flatMap_append, List.append_assoc]

theorem readFrom_state (range : Option Range) (b : Buffer) (lines : List String) :
    (stateOf (readFrom range b lines)).output = b.output ∧
      (stateOf (readFrom range b lines)).rejected.toList =
        b.rejected.toList ++ (Channel.passed range lines).map (·.1) ∧
      (stateOf (readFrom range b lines)).pending <:+ lines := by
  induction lines generalizing b with
  | nil => simp [readFrom, stateOf, Channel.passed]
  | cons line lines ih =>
    unfold readFrom Channel.passed
    cases Channel.accept range line.toList with
    | ok w => simp [stateOf]
    | error reason =>
      obtain ⟨houtput, hrejected, hpending⟩ := ih { b with rejected := b.rejected.push line }
      refine ⟨houtput, ?_, hpending.trans (List.suffix_cons line lines)⟩
      simpa using hrejected

theorem stateOf_put_readNumber (range : Option Range) (b : Buffer) :
    stateOf ((Request.readNumber range).put b) = stateOf (readFrom range b b.pending) := by
  rw [put_readNumber]
  cases readFrom range b b.pending <;> rfl

theorem midLine_readFrom (range : Option Range) (b : Buffer) (lines : List String) :
    (stateOf (readFrom range b lines)).midLine = b.midLine := by
  induction lines generalizing b with
  | nil => rfl
  | cons line lines ih =>
    unfold readFrom
    split
    · rfl
    · exact ih _

theorem midLine_put {r : Request} (b : Buffer) (h : ∀ code, r ≠ .writeChar code) :
    (stateOf (r.put b)).midLine = b.midLine := by
  rcases r with range | w | code
  · rw [stateOf_put_readNumber, midLine_readFrom]
  · rw [put_writeNumber, stateOf]
  · exact absurd rfl (h code)

theorem keeps_put (r : Request) (b : Buffer) : b.Keeps [r.turn b] (stateOf (r.put b)) := by
  cases r with
  | readNumber range =>
    obtain ⟨houtput, hrejected, hpending⟩ := readFrom_state range b b.pending
    rw [stateOf_put_readNumber]
    refine ⟨?_, ?_, hpending⟩
    · simpa [Request.turn, Turn.output] using houtput
    · simpa [Request.turn, Turn.refused] using hrejected
  | writeNumber w =>
    rw [put_writeNumber]
    refine ⟨?_, ?_, List.suffix_rfl⟩
    · simp [stateOf, Request.turn, Turn.output]
    · simp [stateOf, Request.turn, Turn.refused]
  | writeChar code =>
    rw [put_writeChar]
    cases hcode : Channel.character? code with
    | none =>
      refine ⟨?_, ?_, List.suffix_rfl⟩
      · simp [stateOf, Request.turn, Turn.output, hcode]
      · simp [stateOf, Request.turn, Turn.refused]
    | some c =>
      refine ⟨?_, ?_, List.suffix_rfl⟩
      · simp [stateOf, Request.turn, Turn.output, hcode]
      · simp [stateOf, Request.turn, Turn.refused]

end Buffer

/-! ## Consoles -/

namespace Console

def bytesOf (lines : List String) : List UInt8 :=
  lines.flatMap fun line => Text.bytes (line ++ "\n")

variable {c : Console} {range : Option Range} {line : String} {lines : List String}

theorem bytesOf_cons (line : String) (lines : List String) :
    bytesOf (line :: lines) = Text.bytes line ++ newline :: bytesOf lines := by
  have hend : Text.bytes "\n" = [newline] := by decide +kernel
  simp [bytesOf, Text.bytes_append, hend]

theorem bne_newline (h : '\n' ∉ line.toList) : ∀ x ∈ Text.bytes line, (x != newline) = true := by
  intro x hx
  rw [bne_iff_ne]
  rintro rfl
  exact Text.newline_not_mem_bytes h hx

theorem firstLine_bytesOf (lines : List String) (h : '\n' ∉ line.toList) :
    firstLine (bytesOf (line :: lines)) = Text.bytes line := by
  unfold firstLine
  rw [bytesOf_cons, List.takeWhile_append_of_pos (bne_newline h)]
  simp

theorem afterFirstLine_bytesOf (lines : List String) (h : '\n' ∉ line.toList) :
    afterFirstLine (bytesOf (line :: lines)) = bytesOf lines := by
  unfold afterFirstLine
  rw [bytesOf_cons, List.dropWhile_append_of_pos (bne_newline h)]
  simp

theorem decode?_bytes (text : String) : decode? (Text.bytes text) = some text.toList := by
  have hbytes : (⟨(Text.bytes text).toArray⟩ : ByteArray) = text.toUTF8 := by simp [Text.bytes]
  unfold decode?
  rw [hbytes, Text.fromUTF8?_toUTF8]
  rfl

theorem write_of_unlimited (hc : c.capacity = none) (text : String) :
    write text c = .ok () { c with written := c.written ++ text.toUTF8 } := by
  have hroom : c.room text.toUTF8.size = text.toUTF8.size := by simp [room, hc]
  simp only [write, hroom, if_true, ByteArray.extract_zero_size]

theorem readFrom_nil (hc : c.capacity = none) :
    readFrom range c [] =
      .error .endOfInput { c with unread := [], written := c.written ++ c.prompt.toUTF8 } := by
  rw [readFrom, write_of_unlimited]
  exact hc

theorem readFrom_cons (hc : c.capacity = none) (h : '\n' ∉ line.toList) :
    readFrom range c (bytesOf (line :: lines)) =
      match Channel.accept range line.toList with
      | .ok w => .ok w
          { c with unread := bytesOf lines, written := c.written ++ c.prompt.toUTF8 }
      | .error reason => readFrom range
          { c with
            unread := bytesOf lines
            written := c.written ++ (c.prompt ++ reason.message ++ "\n").toUTF8 }
          (bytesOf lines) := by
  obtain ⟨b, bs, hb⟩ : ∃ b bs, bytesOf (line :: lines) = b :: bs := by
    apply List.exists_cons_of_ne_nil
    simp [bytesOf_cons]
  have hfirst := firstLine_bytesOf lines h
  have hafter := afterFirstLine_bytesOf lines h
  rw [hb] at hfirst hafter ⊢
  rw [readFrom, write_of_unlimited]
  · simp only [hfirst, hafter, decode?_bytes]
    cases Channel.accept range line.toList with
    | ok w => rfl
    | error reason =>
      dsimp only
      rw [write_of_unlimited]
      · simp [String.toUTF8_eq_toByteArray, ByteArray.append_assoc]
      · exact hc
  · exact hc

theorem put_readNumber (range : Option Range) (c : Console) :
    (Request.readNumber range).put c =
      match readFrom range c c.unread with
      | .ok w c' => .ok (some w) c'
      | .error e c' => .error e c' := by
  have hread : Channel.readNumber range c = readFrom range c c.unread := rfl
  simp only [Request.put, EStateM.map, hread]
  cases readFrom range c c.unread <;> rfl

theorem put_writeNumber (hc : c.capacity = none) (w : Word) :
    (Request.writeNumber w).put c =
      .ok none { c with written := c.written ++ (Channel.numberText c.midLine w).toUTF8 } := by
  have hwrite : Channel.writeNumber w c = write (Channel.numberText c.midLine w) c := rfl
  simp only [Request.put, EStateM.map, hwrite, write_of_unlimited hc]

theorem put_writeChar (hc : c.capacity = none) (code : Word) :
    (Request.writeChar code).put c =
      match Channel.character? code with
      | some char => .ok none
          { c with
            written := c.written ++ (String.singleton char).toUTF8
            midLine := Channel.startsLine char }
      | none => .error (.invalidChar code) c := by
  have hwrite : Channel.writeChar code c = writeChar code c := rfl
  simp only [Request.put, EStateM.map, hwrite, writeChar]
  cases Channel.character? code with
  | none => rfl
  | some char =>
    dsimp only
    rw [write_of_unlimited]
    · simp
    · exact hc

end Console

/-- The console that has the lines of a buffer to read and has shown `shown` so far. -/
def Buffer.console (prompt shown : String) (b : Buffer) : Console where
  unread := Console.bytesOf b.pending
  written := shown.toUTF8
  prompt
  midLine := b.midLine

namespace Console

variable {lines : List String}

theorem readFrom_console (range : Option Range) (prompt shown : String) (b : Buffer)
    (h : ∀ line ∈ lines, '\n' ∉ line.toList) :
    readFrom range (b.console prompt shown) (bytesOf lines) =
      Machine.mapState
        (Buffer.console prompt (shown ++ Turn.shown prompt (.asked (Channel.passed range lines))))
        (Buffer.readFrom range b lines) := by
  induction lines generalizing b shown with
  | nil =>
    rw [show bytesOf [] = [] from rfl, readFrom_nil rfl]
    simp [Channel.passed, Buffer.readFrom, Machine.mapState, Buffer.console, Turn.shown, bytesOf,
      String.toUTF8_eq_toByteArray]
  | cons line lines ih =>
    rw [readFrom_cons rfl (h line (by simp))]
    unfold Buffer.readFrom Channel.passed
    cases Channel.accept range line.toList with
    | ok w =>
      simp [Machine.mapState, Buffer.console, Turn.shown, String.toUTF8_eq_toByteArray]
    | error reason =>
      have hshown : Turn.shown prompt (.asked ((line, reason) :: Channel.passed range lines)) =
          (prompt ++ reason.message ++ "\n") ++
            Turn.shown prompt (.asked (Channel.passed range lines)) := by
        simp [Turn.shown, String.append_assoc]
      rw [hshown, ← String.append_assoc]
      -- What the console has left to read is what the buffer has.
      have hrest := ih (shown ++ (prompt ++ reason.message ++ "\n"))
        { b with pending := lines, rejected := b.rejected.push line }
        (fun l hl => h l (by simp [hl]))
      rw [Buffer.readFrom_pending range { b with rejected := b.rejected.push line }] at hrest
      exact hrest

/-- A console answers a request as the buffer does, and shows the turn that it led to. -/
theorem put_console (r : Request) (prompt shown : String) {b : Buffer}
    (h : ∀ line ∈ b.pending, '\n' ∉ line.toList) :
    r.put (b.console prompt shown) =
      Machine.mapState (Buffer.console prompt (shown ++ (r.turn b).shown prompt)) (r.put b) := by
  cases r with
  | readNumber range =>
    have hread := readFrom_console range prompt shown b h
    rw [put_readNumber, Buffer.put_readNumber]
    simp only [Request.turn, Buffer.console] at hread ⊢
    rw [hread]
    cases Buffer.readFrom range b b.pending <;> rfl
  | writeNumber w =>
    rw [put_writeNumber rfl]
    rfl
  | writeChar code =>
    rw [put_writeChar rfl, Buffer.put_writeChar]
    simp only [Request.turn]
    cases Channel.character? code with
    | none => simp [Machine.mapState, Turn.shown]
    | some char => rfl

end Console

end LittleMan
