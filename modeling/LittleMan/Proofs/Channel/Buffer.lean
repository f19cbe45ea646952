import Mathlib.Tactic.Common
import LittleMan.Channel.Buffer
import LittleMan.Proofs.Machine.Request

/-!
# What a buffer makes of a request

A buffer refuses a request for two reasons only. It has no line left to read, and then all it had
was passed over; or a code is no character, and then nothing happens. Lines that are added behind
the others change nothing until those are used up.
-/

namespace LittleMan.Channel

theorem accept_eq_ok {range : Option Range} {line : List Char} {w : Word} :
    accept range line = .ok w ↔
      Word.read? (Text.trim line) = some w ∧ range.all (·.contains w) = true := by
  unfold accept
  cases Word.read? (Text.trim line) with
  | none => simp
  | some v =>
    by_cases hv : range.all (·.contains v) = true
    · simp only [hv, if_true, Except.ok.injEq, Option.some.injEq, iff_self_and]
      rintro rfl
      exact hv
    · simp only [hv, if_false, reduceCtorEq, Option.some.injEq, false_iff, not_and]
      rintro rfl
      exact hv

theorem accept_of_contains {r : Range} {line : List Char} {w : Word}
    (h : accept none line = .ok w) (hw : r.contains w = true) : accept (some r) line = .ok w := by
  rw [accept_eq_ok] at h ⊢
  simpa [hw] using h.1

theorem accept_error_of_none {line : List Char} {e : Rejection} (r : Range)
    (h : accept none line = .error e) : accept (some r) line = .error e := by
  unfold accept at h ⊢
  split at h
  · exact h
  · simp at h

theorem character?_eq_some {code : Word} {c : Char} :
    character? code = some c ↔ code.toInt = c.toNat := by
  unfold character?
  constructor
  · intro h
    split_ifs at h with hcode
    obtain rfl := Option.some.inj h
    rw [Char.ofNat, dif_pos hcode.2]
    exact (Int.toNat_of_nonneg hcode.1).symm
  · intro h
    have hcode : code.toInt.toNat = c.toNat := by omega
    rw [hcode, if_pos ⟨by omega, c.valid⟩, Char.ofNat_toNat]

theorem character?_eq_none {code : Word} :
    character? code = none ↔ ∀ c : Char, code.toInt ≠ c.toNat := by
  simp only [Option.eq_none_iff_forall_ne_some, ne_eq, character?_eq_some]

end LittleMan.Channel

namespace LittleMan.Buffer

def feed (lines : List String) (b : Buffer) : Buffer := lines.foldl push b

theorem feed_eq (lines : List String) (b : Buffer) :
    b.feed lines = { b with pending := b.pending ++ lines } := by
  induction lines generalizing b with
  | nil => simp [feed]
  | cons line lines ih =>
    have hcons : b.feed (line :: lines) = (b.push line).feed lines := rfl
    rw [hcons, ih]
    simp [push]

/-! ## Requests -/

theorem put_readNumber (range : Option Range) (b : Buffer) :
    (Request.readNumber range).put b =
      match readFrom range b b.pending with
      | .ok w b' => .ok (some w) b'
      | .error e b' => .error e b' := by
  have hread : Channel.readNumber range b = readFrom range b b.pending := rfl
  simp only [Request.put, EStateM.map, hread]
  cases readFrom range b b.pending <;> rfl

theorem put_writeNumber (w : Word) (b : Buffer) :
    (Request.writeNumber w).put b =
      .ok none { b with output := b.output ++ Channel.numberText b.midLine w } := rfl

theorem put_writeChar (code : Word) (b : Buffer) :
    (Request.writeChar code).put b =
      match Channel.character? code with
      | some c => .ok none { b with output := b.output.push c, midLine := Channel.startsLine c }
      | none => .error (.invalidChar code) b := by
  have hwrite : Channel.writeChar code b = writeChar code b := rfl
  simp only [Request.put, EStateM.map, hwrite, writeChar]
  cases Channel.character? code <;> rfl

/-! ## Refused requests -/

theorem readFrom_error {range : Option Range} {b b' : Buffer} {lines : List String}
    {e : Channel.Error} (h : readFrom range b lines = .error e b') :
    e = .endOfInput ∧ b' = { b with pending := [], rejected := b.rejected ++ lines } := by
  induction lines generalizing b with
  | nil =>
    cases h
    exact ⟨rfl, by simp⟩
  | cons line lines ih =>
    unfold readFrom at h
    split at h
    · cases h
    · obtain ⟨he, hb⟩ := ih h
      refine ⟨he, ?_⟩
      rw [hb]
      simp

theorem readFrom_fails_iff {range : Option Range} {b : Buffer} {lines : List String} :
    (∃ b', readFrom range b lines = .error .endOfInput b') ↔
      ∀ line ∈ lines, ∀ w, Channel.accept range line.toList ≠ .ok w := by
  induction lines generalizing b with
  | nil => simp [readFrom]
  | cons line lines ih =>
    rw [readFrom]
    cases h : Channel.accept range line.toList <;> simp [h, ih]

theorem put_error {r : Request} {b b' : Buffer} {e : Channel.Error}
    (h : r.put b = .error e b') :
    (e = .endOfInput ∧ b' = { b with pending := [], rejected := b.rejected ++ b.pending }) ∨
      (∃ code, e = .invalidChar code) ∧ b' = b := by
  cases r with
  | readNumber range =>
    left
    rw [put_readNumber] at h
    split at h
    · cases h
    · rename_i hread
      cases h
      exact readFrom_error hread
  | writeNumber w => cases h
  | writeChar code =>
    right
    rw [put_writeChar] at h
    split at h
    · cases h
    · cases h
      exact ⟨⟨code, rfl⟩, rfl⟩

/-! ## Ranges -/

theorem readFrom_of_contains {r : Range} {b : Buffer} {lines : List String}
    (h : ∀ w b', readFrom none b lines = .ok w b' → r.contains w = true) :
    readFrom (some r) b lines = readFrom none b lines := by
  induction lines generalizing b with
  | nil => rfl
  | cons line lines ih =>
    rw [readFrom] at h
    rw [readFrom, readFrom]
    cases hline : Channel.accept none line.toList with
    | ok w =>
      rw [hline] at h
      rw [Channel.accept_of_contains hline (h _ _ rfl)]
    | error e =>
      rw [hline] at h
      rw [Channel.accept_error_of_none r hline]
      exact ih h

/-! ## More lines -/

theorem readFrom_append_of_ok {range : Option Range} {b b' : Buffer} {lines : List String}
    {w : Word} (more : List String) (h : readFrom range b lines = .ok w b') :
    readFrom range b (lines ++ more) = .ok w (b'.feed more) := by
  induction lines generalizing b with
  | nil => cases h
  | cons line lines ih =>
    unfold readFrom at h
    rw [List.cons_append, readFrom]
    split at h
    · cases h
      rw [feed_eq]
    · exact ih h

theorem readFrom_pending (range : Option Range) (b : Buffer) (pending lines : List String) :
    readFrom range { b with pending := pending } lines = readFrom range b lines := by
  induction lines generalizing b with
  | nil => rfl
  | cons line lines ih =>
    unfold readFrom
    split
    · rfl
    · exact ih { b with rejected := b.rejected.push line }

theorem readFrom_append_of_error {range : Option Range} {b b' : Buffer} {lines : List String}
    {e : Channel.Error} (more : List String) (h : readFrom range b lines = .error e b') :
    readFrom range b (lines ++ more) = readFrom range b' more := by
  induction lines generalizing b with
  | nil =>
    cases h
    exact (readFrom_pending range b [] more).symm
  | cons line lines ih =>
    unfold readFrom at h
    rw [List.cons_append, readFrom]
    split at h
    · cases h
    · exact ih h

theorem put_readNumber_feed (range : Option Range) (b : Buffer) (more : List String) :
    (Request.readNumber range).put (b.feed more) =
      match readFrom range b (b.pending ++ more) with
      | .ok w b' => .ok (some w) b'
      | .error e b' => .error e b' := by
  rw [put_readNumber, feed_eq, readFrom_pending]

/-- Lines behind those that a request needs make no difference to it. -/
theorem put_feed {r : Request} {b : Buffer} (more : List String)
    (h : ∀ b', r.put b ≠ .error .endOfInput b') :
    r.put (b.feed more) = Machine.mapState (feed more) (r.put b) := by
  cases r with
  | readNumber range =>
    rw [put_readNumber_feed]
    simp only [put_readNumber] at h ⊢
    cases hread : readFrom range b b.pending with
    | ok w b' =>
      rw [readFrom_append_of_ok more hread]
      rfl
    | error e b' =>
      obtain ⟨rfl, -⟩ := readFrom_error hread
      rw [hread] at h
      exact absurd rfl (h b')
  | writeNumber w => simp only [put_writeNumber, feed_eq, Machine.mapState]
  | writeChar code =>
    rw [put_writeChar, put_writeChar]
    cases Channel.character? code with
    | none => rfl
    | some c => simp only [feed_eq, Machine.mapState]

/-- A request that failed for lack of input has passed over the lines there were. More lines then
come to the same as if they had been there from the start. -/
theorem put_feed_of_endOfInput {r : Request} {b b' : Buffer} (more : List String)
    (h : r.put b = .error .endOfInput b') : r.put (b.feed more) = r.put (b'.feed more) := by
  cases r with
  | readNumber range =>
    rw [put_readNumber] at h
    rw [put_readNumber_feed, put_readNumber_feed]
    cases hread : readFrom range b b.pending with
    | ok w b'' => rw [hread] at h; cases h
    | error e b'' =>
      rw [hread] at h
      cases h
      obtain ⟨-, hb'⟩ := readFrom_error hread
      have hpending : b'.pending = [] := by rw [hb']
      rw [readFrom_append_of_error more hread, hpending, List.nil_append]
  | writeNumber w => cases h
  | writeChar code =>
    rw [put_writeChar] at h
    split at h
    · cases h
    · cases h

end LittleMan.Buffer
