import LittleMan.Text

/-!
# JSON values and tokens

The tree that a JSON text denotes, and the list of tokens that the text falls into. Members of an
object stay in the order of the text and may repeat a name: whether that is allowed is for the
reader of the value to say. The rules for tokens are strict: four blank characters, no comments, no
control characters in strings, no superfluous zeros in front of a number.
-/

namespace LittleMan.Json

/-! ## Values -/

inductive Quoted
  | text (s : String)
  /-- Half of a surrogate pair is named without the other, so this is no text: only its spelling is
  kept. -/
  | broken (spelling : String)
deriving DecidableEq, Inhabited

namespace Quoted

instance : Coe String Quoted := ⟨text⟩

def isText : Quoted → Bool
  | text _ => true
  | broken _ => false

end Quoted

inductive Value
  | null
  | bool (b : Bool)
  /-- A number written with digits only, perhaps behind a minus sign. -/
  | integer (i : Int)
  /-- Any other number, and minus zero: only its spelling is kept. -/
  | real (spelling : String)
  | string (s : Quoted)
  | array (elements : List Value)
  | object (members : List (Quoted × Value))
deriving Inhabited

/-! ## Tokens -/

inductive Token
  | openArray
  | closeArray
  | openObject
  | closeObject
  | colon
  | comma
  /-- A value without parts. -/
  | scalar (v : Value)

/-! ## Strings -/

/-- What a string spells at one place: a character, or a 16-bit unit given by its number. -/
inductive Piece
  | char (c : Char)
  | unit (n : Nat)

def hexDigit? (c : Char) : Option Nat :=
  if c.isDigit then some (c.toNat - '0'.toNat)
  else if 'a' ≤ c ∧ c ≤ 'f' then some (c.toNat - 'a'.toNat + 10)
  else if 'A' ≤ c ∧ c ≤ 'F' then some (c.toNat - 'A'.toNat + 10)
  else none

def hexUnit? (a b c d : Char) : Option Nat := do
  let a ← hexDigit? a
  let b ← hexDigit? b
  let c ← hexDigit? c
  let d ← hexDigit? d
  some (((a * 16 + b) * 16 + c) * 16 + d)

def escaped? (c : Char) : Option Char :=
  match c with
  | '"' => some '"'
  | '\\' => some '\\'
  | '/' => some '/'
  | 'b' => some '\x08'
  | 'f' => some '\x0c'
  | 'n' => some '\n'
  | 'r' => some '\r'
  | 't' => some '\t'
  | _ => none

/-- The pieces up to the closing quote, behind the reversed `done`, and what follows the quote. -/
def scanString (done : List Piece) : List Char → Option (List Piece × List Char)
  | [] => none
  | '"' :: rest => some (done.reverse, rest)
  | '\\' :: 'u' :: a :: b :: c :: d :: rest =>
    match hexUnit? a b c d with
    | some n => scanString (.unit n :: done) rest
    | none => none
  | '\\' :: e :: rest =>
    match escaped? e with
    | some c => scanString (.char c :: done) rest
    | none => none
  | c :: rest => if c.toNat < 0x20 then none else scanString (.char c :: done) rest

/-- Whether `n` is the first unit of a surrogate pair. -/
def isLeading (n : Nat) : Bool := 0xD800 ≤ n && n ≤ 0xDBFF

/-- Whether `n` is the second unit of a surrogate pair. -/
def isTrailing (n : Nat) : Bool := 0xDC00 ≤ n && n ≤ 0xDFFF

/-- The text that pieces spell, behind the reversed `done`; none if half a surrogate pair is
missing. -/
def assemblePieces (done : List Char) : List Piece → Option (List Char)
  | [] => some done.reverse
  | .char c :: rest => assemblePieces (c :: done) rest
  | .unit n :: .unit m :: rest =>
    if isLeading n then
      if isTrailing m then
        assemblePieces (Char.ofNat (0x10000 + (n - 0xD800) * 0x400 + (m - 0xDC00)) :: done) rest
      else none
    else if isTrailing n then none
    else assemblePieces (Char.ofNat n :: done) (.unit m :: rest)
  | .unit n :: rest =>
    if isLeading n || isTrailing n then none else assemblePieces (Char.ofNat n :: done) rest

def string? (cs : List Char) : Option (Value × List Char) :=
  match scanString [] cs with
  | none => none
  | some (pieces, rest) =>
    match assemblePieces [] pieces with
    | some s => some (.string (.text (String.ofList s)), rest)
    | none =>
      some (.string (.broken (String.ofList (cs.take (cs.length - rest.length - 1)))), rest)

theorem scanString_length {done : List Piece} {cs rest : List Char} {pieces : List Piece}
    (h : scanString done cs = some (pieces, rest)) : rest.length < cs.length := by
  fun_induction scanString done cs with
  | case1 => simp at h
  | case2 => simp at h; simp [h.2]
  | case3 done a b c d tail n hn ih => have := ih h; simp only [List.length_cons]; omega
  | case4 => simp at h
  | case5 done e tail _ c hc ih => have := ih h; simp only [List.length_cons]; omega
  | case6 => simp at h
  | case7 => simp at h
  | case8 done c tail _ _ _ _ ih => have := ih h; simp only [List.length_cons]; omega

theorem string?_length {cs rest : List Char} {v : Value} (h : string? cs = some (v, rest)) :
    rest.length < cs.length := by
  unfold string? at h
  split at h
  · simp at h
  · rename_i hs
    have := scanString_length hs
    split at h <;> (simp at h; obtain ⟨-, rfl⟩ := h; exact this)

/-! ## Numbers -/

/-- What follows a point and the digits behind it; all of the text if it does not start with a
point. -/
def afterFraction? : List Char → Option (List Char)
  | '.' :: cs => if cs.takeWhile Char.isDigit = [] then none else some (cs.dropWhile Char.isDigit)
  | cs => some cs

/-- What follows an exponent; all of the text if it does not start with one. -/
def afterExponent? : List Char → Option (List Char)
  | [] => some []
  | e :: cs =>
    if e = 'e' ∨ e = 'E' then
      let digits := match cs with
        | '+' :: ds => ds
        | '-' :: ds => ds
        | ds => ds
      if digits.takeWhile Char.isDigit = [] then none else some (digits.dropWhile Char.isDigit)
    else some (e :: cs)

def number? (spelling : List Char) : Option Value :=
  let negative := spelling.head? = some '-'
  let body := if negative then spelling.tail else spelling
  let whole := body.takeWhile Char.isDigit
  let rest := body.dropWhile Char.isDigit
  if whole = [] ∨ (whole.head? = some '0' ∧ whole ≠ ['0']) then none
  else if rest = [] then
    if negative ∧ whole = ['0'] then some (.real (String.ofList spelling))
    else (Numeral.integer? spelling).map .integer
  else if (afterFraction? rest).bind afterExponent? = some [] then
    some (.real (String.ofList spelling))
  else none

def isNumberChar (c : Char) : Bool :=
  c.isDigit || c == '+' || c == '-' || c == '.' || c == 'e' || c == 'E'

/-! ## Texts -/

def isSpace (c : Char) : Bool := c == ' ' || c == '\t' || c == '\n' || c == '\r'

def token? (c : Char) (cs : List Char) : Option (Token × List Char) :=
  match c, cs with
  | '[', cs => some (.openArray, cs)
  | ']', cs => some (.closeArray, cs)
  | '{', cs => some (.openObject, cs)
  | '}', cs => some (.closeObject, cs)
  | ':', cs => some (.colon, cs)
  | ',', cs => some (.comma, cs)
  | '"', cs => (string? cs).map fun (v, rest) => (.scalar v, rest)
  | 'n', 'u' :: 'l' :: 'l' :: rest => some (.scalar .null, rest)
  | 't', 'r' :: 'u' :: 'e' :: rest => some (.scalar (.bool true), rest)
  | 'f', 'a' :: 'l' :: 's' :: 'e' :: rest => some (.scalar (.bool false), rest)
  | c, cs =>
    (number? (c :: cs.takeWhile isNumberChar)).map fun v =>
      (.scalar v, cs.dropWhile isNumberChar)

theorem token?_length {c : Char} {cs rest : List Char} {t : Token}
    (h : token? c cs = some (t, rest)) : rest.length ≤ cs.length := by
  unfold token? at h
  split at h
  case h_7 =>
    obtain ⟨⟨v, r⟩, hs, he⟩ := Option.map_eq_some_iff.1 h
    simp at he
    obtain ⟨-, rfl⟩ := he
    exact Nat.le_of_lt (string?_length hs)
  case h_11 =>
    obtain ⟨v, -, he⟩ := Option.map_eq_some_iff.1 h
    simp at he
    obtain ⟨-, rfl⟩ := he
    exact (List.dropWhile_sublist _).length_le
  all_goals
    simp only [Option.some.injEq, Prod.mk.injEq] at h
    obtain ⟨-, rfl⟩ := h
    simp
    try omega

def tokensFrom (done : Array Token) : List Char → Option (List Token)
  | [] => some done.toList
  | c :: cs =>
    if isSpace c then tokensFrom done cs
    else
      match h : token? c cs with
      | none => none
      | some (t, rest) =>
        have := token?_length h
        tokensFrom (done.push t) rest
termination_by cs => cs.length
decreasing_by
  · exact Nat.lt_succ_self _
  · exact Nat.lt_succ_of_le this

def tokens? (text : List Char) : Option (List Token) := tokensFrom #[] text

end LittleMan.Json
