import Mathlib.Data.List.Chain
import Mathlib.Tactic.Common
import LittleMan.Json.Reader
import LittleMan.Proofs.Json.Grammar

/-!
# Texts read as the values they spell

Reading finds the tokens of a text one by one. Only a number has no end of its own: it must not be
followed by what could belong to it, and in the tokens of a value no two scalars stand side by side.
From the tokens of a value the reader builds that value, whatever is open around it.
-/

namespace LittleMan.Json

/-! ## Strings -/

theorem scanString_of_text {ps : List Piece} {cs : List Char} (h : PiecesText ps cs)
    (done : List Piece) (rest : List Char) :
    scanString done (cs ++ '"' :: rest) = some (done.reverse ++ ps, rest) := by
  induction h generalizing done with
  | nil => simp [scanString]
  | @char c ps cs hc hq hb h ih =>
    have hc' : ¬ c.toNat < 0x20 := Nat.not_lt.mpr hc
    rw [List.cons_append, scanString, if_neg hc', ih]
    · simp
    · exact hq
    · intro a b c' d rest' heq
      exact absurd heq hb
    · intro e rest' heq
      exact absurd heq hb
  | @escape e c ps cs hc h ih =>
    have he : e ≠ 'u' := by
      rintro rfl
      cases hc
    rw [List.cons_append, List.cons_append, scanString, hc]
    · simp [ih]
    · intro a b c' d rest' heq
      exact absurd heq he
  | @unit a b c d n ps cs hn h ih => simp [scanString, hn, ih]

theorem assemblePieces_of_mean {ps : List Piece} {s : List Char} (h : PiecesMean ps s)
    (done : List Char) : assemblePieces done ps = some (done.reverse ++ s) := by
  induction h generalizing done with
  | nil => simp [assemblePieces]
  | char h ih => simp [assemblePieces, ih]
  | @unit n ps s hl ht h ih =>
    have hrest := ih (Char.ofNat n :: done)
    rcases ps with _ | ⟨_ | m, ps⟩ <;> simpa [assemblePieces, hl, ht] using hrest
  | pair hl ht h ih => simp [assemblePieces, hl, ht, ih]

theorem mean_of_assemblePieces {done r : List Char} {ps : List Piece}
    (h : assemblePieces done ps = some r) : ∃ s, r = done.reverse ++ s ∧ PiecesMean ps s := by
  fun_induction assemblePieces done ps with
  | case1 done =>
    cases h
    exact ⟨[], by simp, .nil⟩
  | case2 done c ps ih =>
    obtain ⟨s, rfl, hs⟩ := ih h
    exact ⟨_, by simp, .char hs⟩
  | case3 done n m ps hl ht ih =>
    obtain ⟨s, rfl, hs⟩ := ih h
    exact ⟨_, by simp, .pair hl ht hs⟩
  | case4 | case5 => cases h
  | case6 done n m ps hl ht ih =>
    obtain ⟨s, rfl, hs⟩ := ih h
    exact ⟨_, by simp, .unit (Bool.eq_false_iff.mpr hl) (Bool.eq_false_iff.mpr ht) hs⟩
  | case7 => cases h
  | case8 done n ps hps hn ih =>
    obtain ⟨s, rfl, hs⟩ := ih h
    rw [Bool.or_eq_true, not_or, Bool.not_eq_true, Bool.not_eq_true] at hn
    exact ⟨_, by simp, .unit hn.1 hn.2 hs⟩

theorem string?_of_text {s : Quoted} {cs : List Char} (h : QuotedText s cs) (rest : List Char) :
    string? (cs ++ '"' :: rest) = some (.string s, rest) := by
  unfold string?
  cases h with
  | @text ps s _ h hs => simp [scanString_of_text h, assemblePieces_of_mean hs]
  | @broken ps _ h hs =>
    have hnone : assemblePieces [] ps = none := by
      rw [Option.eq_none_iff_forall_ne_some]
      intro r hr
      obtain ⟨s, -, hmean⟩ := mean_of_assemblePieces hr
      exact hs s hmean
    have hcut : cs.length + (rest.length + 1) - rest.length - 1 = cs.length := by omega
    simp [scanString_of_text h, hnone, hcut]

/-! ## Numbers -/

theorem takeWhile_of_run {p : Char → Bool} {run rest : List Char} (hrun : ∀ c ∈ run, p c = true)
    (hrest : ∀ c ∈ rest.head?, p c = false) : (run ++ rest).takeWhile p = run := by
  rw [List.takeWhile_append_of_pos hrun]
  cases rest with
  | nil => simp
  | cons c rest => simp [hrest c rfl]

theorem dropWhile_of_run {p : Char → Bool} {run rest : List Char} (hrun : ∀ c ∈ run, p c = true)
    (hrest : ∀ c ∈ rest.head?, p c = false) : (run ++ rest).dropWhile p = rest := by
  rw [List.dropWhile_append_of_pos hrun]
  cases rest with
  | nil => simp
  | cons c rest => simp [hrest c rfl]

theorem Digits.exists_cons {ds : List Char} (h : Digits ds) :
    ∃ d rest, ds = d :: rest ∧ d.isDigit = true := by
  obtain ⟨d, rest, rfl⟩ := List.exists_cons_of_ne_nil h.1
  exact ⟨d, rest, rfl, h.2 d List.mem_cons_self⟩

theorem Digits.head?_ne {ds : List Char} (h : Digits ds) {c : Char} (hc : c.isDigit = false)
    (rest : List Char) : (ds ++ rest).head? ≠ some c := by
  obtain ⟨d, ds', rfl, hd⟩ := h.exists_cons
  rw [List.cons_append, List.head?_cons, ne_eq, Option.some_inj]
  rintro rfl
  rw [hc] at hd
  cases hd

theorem Exponent.head? {cs : List Char} (h : Exponent cs) :
    ∀ c ∈ cs.head?, c = 'e' ∨ c = 'E' := by
  rcases h with rfl | ⟨e, sign, ds, he, -, -, rfl⟩
  · simp
  · simpa using he

theorem Exponent.not_isDigit {cs : List Char} (h : Exponent cs) :
    ∀ c ∈ cs.head?, c.isDigit = false := by
  intro c hc
  rcases h.head? c hc with rfl | rfl <;> decide

theorem afterExponent?_of_exponent {cs : List Char} (h : Exponent cs) :
    afterExponent? cs = some [] := by
  rcases h with rfl | ⟨e, sign, ds, he, hsign, hds, rfl⟩
  · rfl
  · have hall : ∀ digits, digits = ds → (if digits.takeWhile Char.isDigit = [] then none
        else some (digits.dropWhile Char.isDigit)) = some [] := by
      rintro _ rfl
      have hnone : ∀ c ∈ ([] : List Char).head?, c.isDigit = false := by simp
      have htake := takeWhile_of_run hds.2 hnone
      have hdrop := dropWhile_of_run hds.2 hnone
      rw [List.append_nil] at htake hdrop
      rw [htake, hdrop, if_neg hds.1]
    unfold afterExponent?
    dsimp only
    rw [if_pos he]
    apply hall
    rcases hsign with (rfl | rfl) | rfl
    · have hplus := hds.head?_ne (c := '+') (by decide) []
      have hminus := hds.head?_ne (c := '-') (by decide) []
      split <;> simp_all
    · rfl
    · rfl

theorem afterFraction?_of_fraction {fraction exponent : List Char} (hf : Fraction fraction)
    (he : Exponent exponent) : afterFraction? (fraction ++ exponent) = some exponent := by
  rcases hf with rfl | ⟨ds, hds, rfl⟩
  · rw [List.nil_append]
    unfold afterFraction?
    split
    · rcases he.head? '.' rfl with h | h <;> cases h
    · rfl
  · rw [List.cons_append, afterFraction?, takeWhile_of_run hds.2 he.not_isDigit,
      dropWhile_of_run hds.2 he.not_isDigit, if_neg hds.1]

theorem number?_eq {sign ds tail : List Char} (hs : Sign sign) (hd : Whole ds)
    (ht : ∀ c ∈ tail.head?, c.isDigit = false) :
    number? (sign ++ ds ++ tail) =
      if tail = [] then
        if sign ++ ds = ['-', '0'] then some (.real (String.ofList (sign ++ ds)))
        else (Numeral.integer? (sign ++ ds)).map .integer
      else if (afterFraction? tail).bind afterExponent? = some [] then
        some (.real (String.ofList (sign ++ ds ++ tail)))
      else none := by
  have hwhole : ¬ (ds = [] ∨ ds.head? = some '0' ∧ ds ≠ ['0']) := by
    rintro (hnil | ⟨hzero, hne⟩)
    · exact hd.1.1 hnil
    · exact hne (hd.2 hzero)
  have hminus := hd.1.head?_ne (c := '-') (by decide)
  rcases hs with rfl | rfl
  · have hne : ds ≠ ['-', '0'] := by
      rintro rfl
      exact hminus [] rfl
    unfold number?
    simp only [List.nil_append, hminus tail, if_false, false_and, takeWhile_of_run hd.1.2 ht,
      dropWhile_of_run hd.1.2 ht, hwhole, hne]
    split_ifs with htail
    · rw [htail, List.append_nil]
    · rfl
    · rfl
  · unfold number?
    simp only [List.cons_append, List.nil_append, List.head?_cons, List.tail_cons, if_true,
      true_and, takeWhile_of_run hd.1.2 ht, dropWhile_of_run hd.1.2 ht, hwhole, if_false,
      List.cons.injEq]
    split_ifs with htail
    · rw [htail, List.append_nil]
    · rw [htail, List.append_nil]
    · rfl
    · rfl

theorem number?_of_text {v : Value} {cs : List Char} (h : NumberText v cs) :
    number? cs = some v := by
  cases h with
  | @integer sign ds i hs hd hz hi =>
    have hnil : ∀ c ∈ ([] : List Char).head?, c.isDigit = false := by simp
    have heq := number?_eq hs hd hnil
    rw [List.append_nil, if_pos rfl, if_neg hz, hi] at heq
    exact heq
  | minusZero => rfl
  | @real sign ds fraction exponent hs hd hf he hne =>
    have hhead : ∀ c ∈ (fraction ++ exponent).head?, c.isDigit = false := by
      rcases hf with rfl | ⟨ds', -, rfl⟩
      · exact he.not_isDigit
      · simp
    rw [number?_eq hs hd hhead, if_neg hne, afterFraction?_of_fraction hf he, Option.bind_some,
      afterExponent?_of_exponent he, if_pos rfl]

theorem Digits.isNumberChar {ds : List Char} (h : Digits ds) : ∀ c ∈ ds, isNumberChar c = true := by
  intro c hc
  simp [Json.isNumberChar, h.2 c hc]

theorem Sign.isNumberChar {cs : List Char} (h : Sign cs) : ∀ c ∈ cs, isNumberChar c = true := by
  rcases h with rfl | rfl <;> simp [Json.isNumberChar]

theorem Fraction.isNumberChar {cs : List Char} (h : Fraction cs) :
    ∀ c ∈ cs, isNumberChar c = true := by
  rcases h with rfl | ⟨ds, hds, rfl⟩
  · simp
  · rw [List.forall_mem_cons]
    exact ⟨by decide, hds.isNumberChar⟩

theorem Exponent.isNumberChar {cs : List Char} (h : Exponent cs) :
    ∀ c ∈ cs, isNumberChar c = true := by
  rcases h with rfl | ⟨e, sign, ds, he, hsign, hds, rfl⟩
  · simp
  · rw [List.forall_mem_cons, List.forall_mem_append]
    refine ⟨?_, ?_, hds.isNumberChar⟩
    · rcases he with rfl | rfl <;> decide
    · rcases hsign with hsign | rfl
      · exact hsign.isNumberChar
      · simp [Json.isNumberChar]

theorem NumberText.isNumberChar {v : Value} {cs : List Char} (h : NumberText v cs) :
    ∀ c ∈ cs, isNumberChar c = true := by
  cases h with
  | integer hs hd => exact List.forall_mem_append.mpr ⟨hs.isNumberChar, hd.1.isNumberChar⟩
  | minusZero => simp [Json.isNumberChar]
  | real hs hd hf he =>
    simp only [List.forall_mem_append]
    exact ⟨⟨hs.isNumberChar, hd.1.isNumberChar⟩, hf.isNumberChar, he.isNumberChar⟩

theorem exists_cons_of_sign {sign ds : List Char} (hs : Sign sign) (hd : Digits ds)
    (tail : List Char) :
    ∃ c rest, sign ++ ds ++ tail = c :: rest ∧ (c.isDigit = true ∨ c = '-') := by
  rcases hs with rfl | rfl
  · obtain ⟨d, rest, rfl, h⟩ := hd.exists_cons
    exact ⟨d, rest ++ tail, rfl, .inl h⟩
  · exact ⟨'-', ds ++ tail, rfl, .inr rfl⟩

theorem NumberText.exists_cons {v : Value} {cs : List Char} (h : NumberText v cs) :
    ∃ c rest, cs = c :: rest ∧ (c.isDigit = true ∨ c = '-') := by
  cases h with
  | integer hs hd => simpa using exists_cons_of_sign hs hd.1 []
  | minusZero => exact ⟨'-', ['0'], rfl, .inr rfl⟩
  | real hs hd => exact exists_cons_of_sign hs hd.1 _

/-! ## Tokens -/

def Token.isScalar : Token → Bool
  | .scalar _ => true
  | _ => false

theorem isNumberChar_of_isSpace {c : Char} (h : isSpace c = true) : isNumberChar c = false := by
  simp only [isSpace, Bool.or_eq_true, beq_iff_eq] at h
  rcases h with ((rfl | rfl) | rfl) | rfl <;> decide

theorem token?_of_start {c : Char} (cs : List Char) (hc : c.isDigit = true ∨ c = '-') :
    token? c cs = (number? (c :: cs.takeWhile isNumberChar)).map fun v =>
      (.scalar v, cs.dropWhile isNumberChar) := by
  unfold token?
  split
  case h_11 => rfl
  all_goals exact absurd hc (by decide)

/-- A token is found at the front of a text. A number has to end there. -/
theorem token?_of_text {t : Token} {cs : List Char} (h : TokenText t cs) (rest : List Char)
    (hrest : t.isScalar = true → ∀ c ∈ rest.head?, isNumberChar c = false) :
    ∃ c cs', cs = c :: cs' ∧ isSpace c = false ∧ token? c (cs' ++ rest) = some (t, rest) := by
  cases h with
  | openArray | closeArray | openObject | closeObject | colon | comma =>
    exact ⟨_, _, rfl, rfl, rfl⟩
  | null | true | false => exact ⟨_, _, rfl, rfl, rfl⟩
  | @string s cs h =>
    refine ⟨'"', cs ++ ['"'], rfl, rfl, ?_⟩
    simp [token?, string?_of_text h]
  | @number v cs h =>
    obtain ⟨c, cs', rfl, hc⟩ := h.exists_cons
    have hnumber := number?_of_text h
    obtain ⟨hfirst, hrun⟩ := List.forall_mem_cons.mp h.isNumberChar
    refine ⟨c, cs', rfl, ?_, ?_⟩
    · rw [← Bool.not_eq_true]
      intro hspace
      rw [isNumberChar_of_isSpace hspace] at hfirst
      cases hfirst
    · rw [token?_of_start _ hc, takeWhile_of_run hrun (hrest rfl), dropWhile_of_run hrun (hrest rfl),
        hnumber]
      rfl

/-! ## Texts -/

theorem tokensFrom_blanks (done : Array Token) {blanks : List Char} (cs : List Char)
    (h : ∀ c ∈ blanks, isSpace c = true) :
    tokensFrom done (blanks ++ cs) = tokensFrom done cs := by
  induction blanks with
  | nil => rfl
  | cons c blanks ih =>
    rw [List.forall_mem_cons] at h
    rw [List.cons_append, tokensFrom, if_pos h.1, ih h.2]

theorem tokensFrom_token (done : Array Token) {c : Char} {cs rest : List Char} {t : Token}
    (hc : isSpace c = false) (h : token? c cs = some (t, rest)) :
    tokensFrom done (c :: cs) = tokensFrom (done.push t) rest := by
  rw [tokensFrom, if_neg (Bool.eq_false_iff.mp hc)]
  split
  · rename_i hnone
    rw [h] at hnone
    cases hnone
  · rename_i hsome
    rw [h] at hsome
    cases hsome
    rfl

/-- Two tokens can stand side by side, if a number could not go on from one into the other. -/
def Apart (t t' : Token) : Prop := t.isScalar = true → t'.isScalar = false

theorem head?_of_text {ts : List Token} {cs : List Char} (h : TokensText ts cs)
    (hts : ∀ t ∈ ts.head?, t.isScalar = false) : ∀ c ∈ cs.head?, isNumberChar c = false := by
  cases h with
  | nil hb =>
    intro c hc
    exact isNumberChar_of_isSpace (hb c (List.mem_of_mem_head? hc))
  | @cons blanks cs rest t ts hb ht h =>
    cases blanks with
    | cons b blanks =>
      intro c hc
      cases hc
      exact isNumberChar_of_isSpace (hb b List.mem_cons_self)
    | nil =>
      have hscalar := hts t rfl
      cases ht with
      | openArray | closeArray | openObject | closeObject | colon | comma => simp [isNumberChar]
      | null | true | false | number | string => cases hscalar

theorem tokensFrom_of_text {ts : List Token} {cs : List Char} (h : TokensText ts cs)
    (hts : ts.IsChain Apart) (done : Array Token) :
    tokensFrom done cs = some (done.toList ++ ts) := by
  induction h generalizing done with
  | @nil blanks hb =>
    have hend := tokensFrom_blanks done [] hb
    rw [List.append_nil] at hend
    rw [hend, tokensFrom, List.append_nil]
  | @cons blanks cs rest t ts hb ht h ih =>
    obtain ⟨hapart, hts⟩ := List.isChain_cons.mp hts
    obtain ⟨c, cs, rfl, hc, htoken⟩ := token?_of_text ht rest fun hscalar =>
      head?_of_text h fun t' ht' => hapart t' ht' hscalar
    rw [tokensFrom_blanks _ _ hb, List.cons_append, tokensFrom_token _ hc htoken, ih hts]
    simp

/-! ## Tokens of values -/

/-- What can follow a scalar: no two scalars stand side by side, and none is in front. -/
def Follows (ts : List Token) : Prop := ts.IsChain Apart ∧ ∀ t ∈ ts.head?, t.isScalar = false

theorem follows_cons {t : Token} {ts : List Token} (ht : t.isScalar = false)
    (h : ts.IsChain Apart) : Follows (t :: ts) := by
  refine ⟨List.isChain_cons.mpr ⟨?_, h⟩, by simpa using ht⟩
  intro t' _ hscalar
  rw [ht] at hscalar
  cases hscalar

theorem isChain_scalar (v : Value) {ts : List Token} (h : Follows ts) :
    (.scalar v :: ts).IsChain Apart :=
  List.isChain_cons.mpr ⟨fun t ht _ => h.2 t ht, h.1⟩

mutual

theorem isChain_tokens (v : Value) {ts : List Token} (h : Follows ts) :
    (v.tokens ++ ts).IsChain Apart := by
  cases v with
  | null | bool b | integer i | real spelling | string s =>
    rw [Value.tokens]
    exact isChain_scalar _ h
  | array vs =>
    cases vs with
    | nil =>
      rw [Value.tokens]
      exact (follows_cons rfl (follows_cons rfl h.1).1).1
    | cons v vs =>
      have hclose : Follows (.closeArray :: ts) := follows_cons rfl h.1
      rw [Value.tokens]
      simp only [List.cons_append, List.append_assoc, List.nil_append]
      exact (follows_cons rfl (isChain_tokens v (follows_elements vs hclose))).1
  | object ms =>
    cases ms with
    | nil =>
      rw [Value.tokens]
      exact (follows_cons rfl (follows_cons rfl h.1).1).1
    | cons m ms =>
      obtain ⟨s, v⟩ := m
      have hclose : Follows (.closeObject :: ts) := follows_cons rfl h.1
      have hmember := isChain_tokens v (follows_members ms hclose)
      rw [Value.tokens]
      simp only [List.cons_append, List.append_assoc, List.nil_append]
      exact (follows_cons rfl (isChain_scalar _ (follows_cons rfl hmember))).1

theorem follows_elements (vs : List Value) {ts : List Token} (h : Follows ts) :
    Follows (elementTokens vs ++ ts) := by
  cases vs with
  | nil => exact h
  | cons v vs =>
    rw [elementTokens, List.cons_append, List.append_assoc]
    exact follows_cons rfl (isChain_tokens v (follows_elements vs h))

theorem follows_members (ms : List (Quoted × Value)) {ts : List Token} (h : Follows ts) :
    Follows (memberTokens ms ++ ts) := by
  cases ms with
  | nil => exact h
  | cons m ms =>
    obtain ⟨s, v⟩ := m
    have hmember := isChain_tokens v (follows_members ms h)
    rw [memberTokens]
    simp only [List.cons_append, List.append_assoc]
    exact follows_cons rfl (isChain_scalar _ (follows_cons rfl hmember))

end

/-! ## Values -/

namespace Reader

theorem foldlM_step {st st' : Stack × Goal} {t : Token} (h : step st t = some st')
    (ts : List Token) : (t :: ts).foldlM step st = ts.foldlM step st' := by
  rw [List.foldlM_cons, h]
  rfl

theorem foldlM_first (v : Value) (stack : Stack) (ts : List Token) :
    (v.tokens ++ ts).foldlM step (stack, .elementOrEnd) =
      (v.tokens ++ ts).foldlM step (.elements [] :: stack, .value) := by
  cases v with
  | null | bool b | integer i | real spelling | string s =>
    rw [Value.tokens]
    rfl
  | array vs => cases vs <;> (rw [Value.tokens]; rfl)
  | object ms => rcases ms with _ | ⟨⟨s, v⟩, ms⟩ <;> (rw [Value.tokens]; rfl)

mutual

theorem foldlM_tokens (v : Value) (stack : Stack) (ts : List Token) :
    (v.tokens ++ ts).foldlM step (stack, .value) = ts.foldlM step (stack, .after v) := by
  cases v with
  | null | bool b | integer i | real spelling | string s =>
    rw [Value.tokens]
    rfl
  | array vs =>
    cases vs with
    | nil =>
      rw [Value.tokens]
      rfl
    | cons v vs =>
      rw [Value.tokens]
      simp only [List.cons_append, List.append_assoc, List.nil_append]
      rw [foldlM_step rfl, foldlM_first, foldlM_tokens v, foldlM_elements vs]
      rfl
  | object ms =>
    cases ms with
    | nil =>
      rw [Value.tokens]
      rfl
    | cons m ms =>
      obtain ⟨s, v⟩ := m
      rw [Value.tokens]
      simp only [List.cons_append, List.append_assoc, List.nil_append]
      rw [foldlM_step rfl, foldlM_step rfl, foldlM_step rfl, foldlM_tokens v, foldlM_members ms]
      rfl

theorem foldlM_elements (vs done : List Value) (v : Value) (stack : Stack) (ts : List Token) :
    (elementTokens vs ++ .closeArray :: ts).foldlM step (.elements done :: stack, .after v) =
      ts.foldlM step (stack, .after (.array (done.reverse ++ v :: vs))) := by
  cases vs with
  | nil =>
    rw [elementTokens, List.nil_append, foldlM_step rfl, List.reverse_cons]
  | cons v' vs =>
    rw [elementTokens, List.cons_append, List.append_assoc, foldlM_step rfl, foldlM_tokens v',
      foldlM_elements vs, List.reverse_cons, List.append_assoc]
    rfl

theorem foldlM_members (ms done : List (Quoted × Value)) (s : Quoted) (v : Value) (stack : Stack)
    (ts : List Token) :
    (memberTokens ms ++ .closeObject :: ts).foldlM step (.member done s :: stack, .after v) =
      ts.foldlM step (stack, .after (.object (done.reverse ++ (s, v) :: ms))) := by
  cases ms with
  | nil =>
    rw [memberTokens, List.nil_append, foldlM_step rfl, List.reverse_cons]
  | cons m ms =>
    obtain ⟨s', v'⟩ := m
    rw [memberTokens]
    simp only [List.cons_append, List.append_assoc]
    rw [foldlM_step rfl, foldlM_step rfl, foldlM_step rfl, foldlM_tokens v', foldlM_members ms,
      List.reverse_cons, List.append_assoc]
    rfl

end

theorem value?_tokens (v : Value) : value? v.tokens = some v := by
  have hread := foldlM_tokens v [] []
  rw [List.append_nil] at hread
  unfold value?
  rw [hread]
  rfl

end Reader

theorem parse?_of_spells {text : String} {v : Value} (h : Spells text v) :
    parse? text = some v := by
  have hend : Follows [] := ⟨.nil, by simp⟩
  have hts := isChain_tokens v hend
  rw [List.append_nil] at hts
  unfold parse? tokens?
  rw [tokensFrom_of_text h hts]
  exact Reader.value?_tokens v

end LittleMan.Json
