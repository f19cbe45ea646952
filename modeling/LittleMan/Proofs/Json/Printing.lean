import Mathlib.Tactic.Common
import LittleMan.Json.Printer
import LittleMan.Proofs.Json.Reading
import LittleMan.Proofs.Text.Numeral

/-!
# Printed values read back

The compact text of a value is that of its tokens, with nothing between them. Each of them is
spelled by the rules, if the value has neither broken strings nor numbers that are kept as they were
spelled, and so the text is read as the value it was printed for.
-/

namespace LittleMan.Json

/-! ## Strings -/

theorem hexDigit?_hexDigit {n : Nat} (h : n < 16) : hexDigit? (hexDigit n) = some n := by
  revert n
  decide

theorem hexUnit?_hexDigit {n : Nat} (h : n < 256) :
    hexUnit? '0' '0' (hexDigit (n / 16)) (hexDigit (n % 16)) = some n := by
  have hzero : hexDigit? '0' = some 0 := rfl
  have hhigh : hexDigit? (hexDigit (n / 16)) = some (n / 16) := hexDigit?_hexDigit (by omega)
  have hlow : hexDigit? (hexDigit (n % 16)) = some (n % 16) := hexDigit?_hexDigit (by omega)
  simp only [hexUnit?, hzero, hhigh, hlow, Option.bind_eq_bind, Option.bind_some,
    Option.some.injEq]
  omega

theorem escape_piece (c : Char) :
    ∃ p, (∀ ps cs, PiecesText ps cs → PiecesText (p :: ps) ((escape c).toList ++ cs)) ∧
      ∀ ps s, PiecesMean ps s → PiecesMean (p :: ps) (c :: s) := by
  unfold escape
  split
  case h_8 hq hb _ _ _ _ _ =>
    split_ifs with hc
    · refine ⟨.unit c.toNat, fun ps cs h => ?_, fun ps s h => ?_⟩
      · simpa using PiecesText.unit (hexUnit?_hexDigit (by omega)) h
      · have hl : isLeading c.toNat = false := by simp [isLeading]; omega
        have ht : isTrailing c.toNat = false := by simp [isTrailing]; omega
        simpa using PiecesMean.unit hl ht h
    · refine ⟨.char c, fun ps cs h => ?_, fun ps s h => .char h⟩
      simpa using PiecesText.char (Nat.not_lt.mp hc) hq hb h
  all_goals exact ⟨.char _, fun ps cs h => .escape rfl h, fun ps s h => .char h⟩

theorem spell_text (s : String) : QuotedText (.text s) (spell (.text s)).toList := by
  obtain ⟨ps, hspell, hmean⟩ : ∃ ps, PiecesText ps (s.toList.flatMap fun c => (escape c).toList) ∧
      PiecesMean ps s.toList := by
    induction s.toList with
    | nil => exact ⟨[], .nil, .nil⟩
    | cons c cs ih =>
      obtain ⟨ps, hspell, hmean⟩ := ih
      obtain ⟨p, hp, hc⟩ := escape_piece c
      exact ⟨p :: ps, hp _ _ hspell, hc _ _ hmean⟩
  have htext := QuotedText.text hspell hmean
  simpa [spell, String.toList_join, List.flatMap_map] using htext

/-! ## Numbers -/

theorem head?_toDigits {n : Nat} (h : (Nat.toDigits 10 n).head? = some '0') : n = 0 := by
  induction n using Nat.strongRecOn with
  | _ n ih =>
    rw [Nat.toDigits_eq_if (by omega)] at h
    split at h
    · rename_i hn
      have hcode := Nat.toNat_digitChar_of_lt_ten hn
      rw [Option.some_inj.mp h] at hcode
      simpa using hcode
    · rw [List.head?_append_of_ne_nil _ Nat.toDigits_ne_nil] at h
      have := ih (n / 10) (by omega) h
      omega

theorem whole_toDigits (n : Nat) : Whole (Nat.toDigits 10 n) := by
  refine ⟨⟨Nat.toDigits_ne_nil, fun c hc => ?_⟩, fun h => ?_⟩
  · exact Nat.isDigit_of_mem_toDigits (by omega) (by omega) hc
  · rw [head?_toDigits h]
    rfl

theorem ofInt_text (i : Int) : NumberText (.integer i) (Numeral.ofInt i).toList := by
  have hread := Numeral.integer?_ofInt i
  cases i with
  | ofNat n =>
    have hwhole := whole_toDigits n
    have hne : Nat.toDigits 10 n ≠ ['-', '0'] := by
      intro hz
      have hminus := hwhole.1.head?_ne (c := '-') (by decide) []
      rw [List.append_nil, hz] at hminus
      exact hminus rfl
    rw [Numeral.ofInt, Numeral.toList_ofNat] at hread ⊢
    exact .integer (.inl rfl : Sign []) hwhole hne hread
  | negSucc n =>
    have hwhole := whole_toDigits (n + 1)
    have hne : ['-'] ++ Nat.toDigits 10 (n + 1) ≠ ['-', '0'] := by
      intro hz
      have hzero := head?_toDigits (congrArg List.head? (List.cons.inj hz).2)
      omega
    rw [Numeral.ofInt, String.toList_append, Numeral.toList_ofNat] at hread ⊢
    exact .integer (.inr rfl) hwhole hne hread

/-! ## Values -/

def Token.print : Token → List Char
  | .openArray => ['[']
  | .closeArray => [']']
  | .openObject => ['{']
  | .closeObject => ['}']
  | .colon => [':']
  | .comma => [',']
  | .scalar v => (compact v).toList

theorem deeper_compact : Layout.compact.deeper = .compact := rfl

mutual

theorem toList_compact (v : Value) : (compact v).toList = v.tokens.flatMap Token.print := by
  cases v with
  | null | bool b | integer i | real spelling | string s =>
    rw [Value.tokens]
    simp [Token.print]
  | array vs =>
    cases vs with
    | nil =>
      rw [Value.tokens]
      rfl
    | cons v vs =>
      have hv := toList_compact v
      rw [Value.tokens, compact, render, deeper_compact, String.toList_append,
        String.toList_append, toList_renderElements vs]
      simp [Layout.lineBreak, Token.print, ← hv, compact]
  | object ms =>
    cases ms with
    | nil =>
      rw [Value.tokens]
      rfl
    | cons m ms =>
      obtain ⟨s, v⟩ := m
      have hv := toList_compact v
      rw [Value.tokens, compact, render, deeper_compact, String.toList_append,
        String.toList_append, toList_renderMembers ms]
      simp [Layout.lineBreak, Layout.colon, Token.print, ← hv, compact, render]

theorem toList_renderElements (vs : List Value) (done : String) :
    (renderElements .compact done vs).toList =
      done.toList ++ (elementTokens vs).flatMap Token.print := by
  cases vs with
  | nil => simp [renderElements, elementTokens]
  | cons v vs =>
    have hv := toList_compact v
    rw [renderElements, toList_renderElements vs, elementTokens]
    simp [Layout.lineBreak, Token.print, ← hv, compact]

theorem toList_renderMembers (ms : List (Quoted × Value)) (done : String) :
    (renderMembers .compact done ms).toList =
      done.toList ++ (memberTokens ms).flatMap Token.print := by
  cases ms with
  | nil => simp [renderMembers, memberTokens]
  | cons m ms =>
    obtain ⟨s, v⟩ := m
    have hv := toList_compact v
    rw [renderMembers, toList_renderMembers ms, memberTokens]
    simp [Layout.lineBreak, Layout.colon, Token.print, ← hv, compact, render]

end

/-- No part of the value is a broken string or a number of which only the spelling is kept. -/
inductive Printable : Value → Prop
  | null : Printable .null
  | bool (b : Bool) : Printable (.bool b)
  | integer (i : Int) : Printable (.integer i)
  | string (s : String) : Printable (.string (.text s))
  | array {vs : List Value} (h : ∀ v ∈ vs, Printable v) : Printable (.array vs)
  | object {ms : List (Quoted × Value)} (hs : ∀ m ∈ ms, m.1.isText = true)
    (h : ∀ m ∈ ms, Printable m.2) : Printable (.object ms)

def Printed (ts : List Token) : Prop := ∀ t ∈ ts, TokenText t t.print

theorem printed_cons {t : Token} {ts : List Token} :
    Printed (t :: ts) ↔ TokenText t t.print ∧ Printed ts := List.forall_mem_cons

theorem printed_append {ts ts' : List Token} :
    Printed (ts ++ ts') ↔ Printed ts ∧ Printed ts' := List.forall_mem_append

theorem text_string {s : Quoted} (h : s.isText = true) :
    TokenText (.scalar (.string s)) (Token.scalar (.string s)).print := by
  cases s with
  | broken spelling => cases h
  | text s => simpa [Token.print, compact, render, quote] using TokenText.string (spell_text s)

theorem printed_elements {vs : List Value} (h : ∀ v ∈ vs, Printed v.tokens) :
    Printed (elementTokens vs) := by
  induction vs with
  | nil => exact List.forall_mem_nil _
  | cons v vs ih =>
    rw [List.forall_mem_cons] at h
    rw [elementTokens, printed_cons, printed_append]
    exact ⟨.comma, h.1, ih h.2⟩

theorem printed_members {ms : List (Quoted × Value)} (hs : ∀ m ∈ ms, m.1.isText = true)
    (h : ∀ m ∈ ms, Printed m.2.tokens) : Printed (memberTokens ms) := by
  induction ms with
  | nil => exact List.forall_mem_nil _
  | cons m ms ih =>
    rw [List.forall_mem_cons] at hs h
    simp only [memberTokens, printed_cons, printed_append]
    exact ⟨.comma, text_string hs.1, .colon, h.1, ih hs.2 h.2⟩

theorem Printable.printed {v : Value} (h : Printable v) : Printed v.tokens := by
  have hnil : Printed [] := List.forall_mem_nil _
  induction h with
  | null => exact printed_cons.mpr ⟨.null, hnil⟩
  | bool b =>
    cases b with
    | true => exact printed_cons.mpr ⟨.true, hnil⟩
    | false => exact printed_cons.mpr ⟨.false, hnil⟩
  | integer i => exact printed_cons.mpr ⟨.number (ofInt_text i), hnil⟩
  | string s => exact printed_cons.mpr ⟨text_string rfl, hnil⟩
  | @array vs h ih =>
    cases vs with
    | nil =>
      simp only [Value.tokens, printed_cons]
      exact ⟨.openArray, .closeArray, hnil⟩
    | cons v vs =>
      rw [List.forall_mem_cons] at ih
      simp only [Value.tokens, printed_cons, printed_append]
      exact ⟨.openArray, ih.1, printed_elements ih.2, .closeArray, hnil⟩
  | @object ms hs h ih =>
    cases ms with
    | nil =>
      simp only [Value.tokens, printed_cons]
      exact ⟨.openObject, .closeObject, hnil⟩
    | cons m ms =>
      rw [List.forall_mem_cons] at hs ih
      simp only [Value.tokens, printed_cons, printed_append]
      exact ⟨.openObject, text_string hs.1, .colon, ih.1, printed_members hs.2 ih.2,
        .closeObject, hnil⟩

theorem text_of_printed {ts : List Token} (h : Printed ts) :
    TokensText ts (ts.flatMap Token.print) := by
  induction ts with
  | nil => exact .nil (List.forall_mem_nil _)
  | cons t ts ih =>
    obtain ⟨ht, hts⟩ := printed_cons.mp h
    exact .cons (List.forall_mem_nil _) ht (ih hts)

theorem Printable.spells {v : Value} (h : Printable v) : Spells (compact v) v := by
  unfold Spells
  rw [toList_compact]
  exact text_of_printed h.printed

theorem Printable.parse?_compact {v : Value} (h : Printable v) : parse? (compact v) = some v :=
  parse?_of_spells h.spells

end LittleMan.Json
