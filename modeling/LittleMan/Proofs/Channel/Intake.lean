import Mathlib.Data.List.Forall2
import Mathlib.Tactic.Common
import LittleMan.Proofs.Channel.Transcript
import LittleMan.Proofs.Wrapping

/-!
# What becomes of the lines

A read takes the first line that offers a number and passes over the lines before it. So every line
that a buffer ever had is taken by one read, or passed over, or still there, and the order of the
lines is kept throughout.
-/

namespace LittleMan

def Channel.Offers (range : Option Range) (line : String) (w : Word) : Prop :=
  Word.read? (Text.trim line.toList) = some w ∧
    ∀ r, range = some r → r.least.toInt ≤ w.toInt ∧ w.toInt ≤ r.greatest.toInt

theorem Channel.offers_iff {range : Option Range} {line : String} {w : Word} :
    Offers range line w ↔ accept range line.toList = .ok w := by
  rw [accept_eq_ok, Offers, and_congr_right_iff]
  intro _
  cases range with
  | none => simp
  | some r => simp [Range.contains_iff]

/-- The third list is made of the first two, which keep their orders. -/
inductive Interleaves {α : Type} : List α → List α → List α → Prop
  | nil : Interleaves [] [] []
  | left {x : α} {xs ys zs : List α} (h : Interleaves xs ys zs) :
    Interleaves (x :: xs) ys (x :: zs)
  | right {y : α} {xs ys zs : List α} (h : Interleaves xs ys zs) :
    Interleaves xs (y :: ys) (y :: zs)

namespace Interleaves

variable {α : Type} {xs ys zs xs' ys' zs' : List α}

theorem append (h : Interleaves xs ys zs) (h' : Interleaves xs' ys' zs') :
    Interleaves (xs ++ xs') (ys ++ ys') (zs ++ zs') := by
  induction h with
  | nil => exact h'
  | left _ ih => exact ih.left
  | right _ ih => exact ih.right

theorem nil_left (ys : List α) : Interleaves [] ys ys := by
  induction ys with
  | nil => exact .nil
  | cons y ys ih => exact ih.right

end Interleaves

namespace Buffer

open Channel (Offers offers_iff)

variable {b b' b'' : Buffer} {range : Option Range} {lines : List String}

/-! ## One read -/

theorem readFrom_eq_ok {w : Word} :
    readFrom range b lines = .ok w b' ↔
      ∃ (before : List String) (line : String) (after : List String),
        lines = before ++ line :: after ∧ (∀ l ∈ before, ∀ v, ¬ Offers range l v) ∧
        Offers range line w ∧
        b' = { b with pending := after, rejected := b.rejected ++ before } := by
  induction lines generalizing b with
  | nil => simp [readFrom]
  | cons line lines ih =>
    rw [readFrom]
    constructor
    · intro h
      split at h
      · rename_i v hv
        cases h
        exact ⟨[], line, lines, rfl, by simp, offers_iff.mpr hv, by simp⟩
      · -- The first line is passed over, and joins those before the line that is taken.
        rename_i reason hreason
        obtain ⟨before, l, after, rfl, hbefore, hl, rfl⟩ := ih.mp h
        refine ⟨line :: before, l, after, rfl, ?_, hl, by simp⟩
        simp only [List.mem_cons, forall_eq_or_imp]
        refine ⟨?_, hbefore⟩
        simp [offers_iff, hreason]
    · rintro ⟨_ | ⟨l, before⟩, line', after, hlines, hbefore, hw, rfl⟩
      · obtain ⟨rfl, rfl⟩ := List.cons.inj hlines
        simp [offers_iff.mp hw]
      · obtain ⟨rfl, rfl⟩ := List.cons.inj hlines
        simp only [List.mem_cons, forall_eq_or_imp] at hbefore
        cases haccept : Channel.accept range line.toList with
        | ok v => exact absurd (offers_iff.mpr haccept) (hbefore.1 v)
        | error reason =>
          rw [ih]
          exact ⟨before, line', after, rfl, hbefore.2, hw, by simp⟩

theorem readFrom_eq_error (h : ∀ l ∈ lines, ∀ w, ¬ Offers range l w) :
    readFrom range b lines =
      .error .endOfInput { b with pending := [], rejected := b.rejected ++ lines } := by
  simp only [offers_iff] at h
  obtain ⟨b', hb'⟩ := readFrom_fails_iff.mpr h
  rw [hb', (readFrom_error hb').2]

theorem readFrom_ok_iff :
    (∃ w b', readFrom range b lines = .ok w b') ↔ ∃ line ∈ lines, ∃ w, Offers range line w := by
  constructor
  · rintro ⟨w, b', h⟩
    obtain ⟨before, line, after, rfl, -, hline, -⟩ := readFrom_eq_ok.mp h
    exact ⟨line, by simp, w, hline⟩
  · rintro ⟨line, hmem, w, hline⟩
    cases h : readFrom range b lines with
    | ok v b' => exact ⟨v, b', rfl⟩
    | error e b' =>
      obtain ⟨rfl, -⟩ := readFrom_error h
      exact absurd (offers_iff.mp hline) (readFrom_fails_iff.mp ⟨b', h⟩ line hmem w)

/-! ## Reads and new lines -/

inductive Intake
  | read (range : Option Range)
  | push (line : String)

namespace Intake

def apply (b : Buffer) : Intake → Buffer
  | read range => stateOf (readNumber range b)
  | push line => b.push line

def added : Intake → List String
  | read _ => []
  | push line => [line]

/-- The number that is read, if there is one, with the range that it was to be in. -/
def numbers (b : Buffer) : Intake → List (Option Range × Word)
  | read range =>
    match readNumber range b with
    | .ok w _ => [(range, w)]
    | .error .. => []
  | push _ => []

end Intake

def numbersRead (b : Buffer) : List Intake → List (Option Range × Word)
  | [] => []
  | i :: is => i.numbers b ++ numbersRead (i.apply b) is

/-- While lines are added to `b` and numbers are read, until `b'` is left, each line either offers
one of the numbers, in this order, or is passed over, or is left. -/
def Accounts (b : Buffer) (added : List String) (numbers : List (Option Range × Word))
    (b' : Buffer) : Prop :=
  ∃ accepted passed used, Interleaves accepted passed used ∧
    b.pending ++ added = used ++ b'.pending ∧
    b'.rejected.toList = b.rejected.toList ++ passed ∧
    List.Forall₂ (fun line (p : Option Range × Word) => Offers p.1 line p.2) accepted numbers

theorem accounts_nil (b : Buffer) : b.Accounts [] [] b :=
  ⟨[], [], [], .nil, by simp, by simp, .nil⟩

theorem Accounts.trans {added added' : List String} {numbers numbers' : List (Option Range × Word)}
    (h : b.Accounts added numbers b') (h' : b'.Accounts added' numbers' b'') :
    b.Accounts (added ++ added') (numbers ++ numbers') b'' := by
  obtain ⟨accepted, passed, used, hmix, hlines, hrejected, hoffers⟩ := h
  obtain ⟨accepted', passed', used', hmix', hlines', hrejected', hoffers'⟩ := h'
  refine ⟨accepted ++ accepted', passed ++ passed', used ++ used', hmix.append hmix', ?_, ?_,
    List.rel_append hoffers hoffers'⟩
  · rw [← List.append_assoc, hlines, List.append_assoc, hlines', List.append_assoc]
  · rw [hrejected', hrejected, List.append_assoc]

theorem accounts_apply (b : Buffer) (i : Intake) :
    b.Accounts i.added (i.numbers b) (i.apply b) := by
  cases i with
  | push line =>
    exact ⟨[], [], [], .nil, by simp [Intake.apply, Intake.added, push],
      by simp [Intake.apply, push], .nil⟩
  | read range =>
    have hread : readNumber range b = readFrom range b b.pending := rfl
    simp only [Intake.apply, Intake.added, Intake.numbers, hread]
    cases h : readFrom range b b.pending with
    | ok w b' =>
      obtain ⟨before, line, after, hpending, -, hline, rfl⟩ := readFrom_eq_ok.mp h
      refine ⟨[line], before, before ++ [line], ?_, ?_, ?_, ?_⟩
      · simpa using (Interleaves.nil_left before).append (.left .nil)
      · simp [hpending, stateOf]
      · simp [stateOf]
      · exact .cons hline .nil
    | error e b' =>
      obtain ⟨-, rfl⟩ := readFrom_error h
      exact ⟨[], b.pending, b.pending, .nil_left _, by simp [stateOf], by simp [stateOf], .nil⟩

theorem accounts_foldl (b : Buffer) (intakes : List Intake) :
    b.Accounts (intakes.flatMap Intake.added) (b.numbersRead intakes)
      (intakes.foldl Intake.apply b) := by
  induction intakes generalizing b with
  | nil => exact accounts_nil b
  | cons i is ih =>
    rw [List.flatMap_cons]
    exact (accounts_apply b i).trans (ih (i.apply b))

/-- No line is lost: the lines there ever were are those that offered the numbers that were read and
those that were passed over, each kept in order, and then those that are left. -/
theorem lines_accounted_for (b : Buffer) :
    (∀ range : Option Range,
      ((∃ w b', readNumber range b = .ok w b') ↔ ∃ line ∈ b.pending, ∃ w, Offers range line w) ∧
      (∀ w b', readNumber range b = .ok w b' ↔
        ∃ (before : List String) (line : String) (after : List String),
          b.pending = before ++ line :: after ∧ (∀ l ∈ before, ∀ v, ¬ Offers range l v) ∧
          Offers range line w ∧
          b' = { b with pending := after, rejected := b.rejected ++ before }) ∧
      ((∀ line ∈ b.pending, ∀ w, ¬ Offers range line w) →
        readNumber range b =
          .error .endOfInput { b with pending := [], rejected := b.rejected ++ b.pending })) ∧
    ∀ intakes : List Intake,
      b.Accounts (intakes.flatMap Intake.added) (b.numbersRead intakes)
        (intakes.foldl Intake.apply b) := by
  constructor
  · intro range
    exact ⟨readFrom_ok_iff, fun w b' => readFrom_eq_ok, readFrom_eq_error⟩
  · exact accounts_foldl b

end Buffer

end LittleMan
