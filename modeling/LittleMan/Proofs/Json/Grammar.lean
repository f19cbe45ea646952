import LittleMan.Json.Token

/-!
# JSON texts

Which texts denote a value. A value has one list of tokens, and a text spells the tokens in their
order, with any blanks in front of, between and behind them. A token may have many spellings: a
character of a string can be written as it is or be escaped, and characters beyond 16 bits take a
pair of escapes.
-/

namespace LittleMan.Json

/-! ## The tokens of a value -/

mutual

def Value.tokens : Value → List Token
  | .null => [.scalar .null]
  | .bool b => [.scalar (.bool b)]
  | .integer i => [.scalar (.integer i)]
  | .real spelling => [.scalar (.real spelling)]
  | .string s => [.scalar (.string s)]
  | .array [] => [.openArray, .closeArray]
  | .array (v :: vs) => .openArray :: (v.tokens ++ (elementTokens vs ++ [.closeArray]))
  | .object [] => [.openObject, .closeObject]
  | .object ((s, v) :: ms) =>
    .openObject :: .scalar (.string s) :: .colon ::
      (v.tokens ++ (memberTokens ms ++ [.closeObject]))

/-- The tokens of the elements behind the first one. -/
def elementTokens : List Value → List Token
  | [] => []
  | v :: vs => .comma :: (v.tokens ++ elementTokens vs)

def memberTokens : List (Quoted × Value) → List Token
  | [] => []
  | (s, v) :: ms => .comma :: .scalar (.string s) :: .colon :: (v.tokens ++ memberTokens ms)

end

/-! ## Strings -/

inductive PiecesText : List Piece → List Char → Prop
  | nil : PiecesText [] []
  /-- A character that is neither a quote nor a backslash nor a control character. -/
  | char {c : Char} {ps : List Piece} {cs : List Char} (hc : 0x20 ≤ c.toNat) (hq : c ≠ '"')
    (hb : c ≠ '\\') (h : PiecesText ps cs) : PiecesText (.char c :: ps) (c :: cs)
  | escape {e c : Char} {ps : List Piece} {cs : List Char} (hc : escaped? e = some c)
    (h : PiecesText ps cs) : PiecesText (.char c :: ps) ('\\' :: e :: cs)
  | unit {a b c d : Char} {n : Nat} {ps : List Piece} {cs : List Char}
    (hn : hexUnit? a b c d = some n) (h : PiecesText ps cs) :
    PiecesText (.unit n :: ps) ('\\' :: 'u' :: a :: b :: c :: d :: cs)

/-- The pieces mean the characters. Two units that are the halves of a surrogate pair mean one
character. A half without the other means nothing. -/
inductive PiecesMean : List Piece → List Char → Prop
  | nil : PiecesMean [] []
  | char {c : Char} {ps : List Piece} {s : List Char} (h : PiecesMean ps s) :
    PiecesMean (.char c :: ps) (c :: s)
  | unit {n : Nat} {ps : List Piece} {s : List Char} (hl : isLeading n = false)
    (ht : isTrailing n = false) (h : PiecesMean ps s) :
    PiecesMean (.unit n :: ps) (Char.ofNat n :: s)
  | pair {n m : Nat} {ps : List Piece} {s : List Char} (hl : isLeading n = true)
    (ht : isTrailing m = true) (h : PiecesMean ps s) :
    PiecesMean (.unit n :: .unit m :: ps)
      (Char.ofNat (0x10000 + (n - 0xD800) * 0x400 + (m - 0xDC00)) :: s)

inductive QuotedText : Quoted → List Char → Prop
  | text {ps : List Piece} {s cs : List Char} (h : PiecesText ps cs) (hs : PiecesMean ps s) :
    QuotedText (.text (String.ofList s)) cs
  | broken {ps : List Piece} {cs : List Char} (h : PiecesText ps cs)
    (hs : ∀ s, ¬ PiecesMean ps s) : QuotedText (.broken (String.ofList cs)) cs

/-! ## Numbers -/

def Digits (ds : List Char) : Prop := ds ≠ [] ∧ ∀ d ∈ ds, d.isDigit = true

/-- The digits of a whole number: a zero in front stands alone. -/
def Whole (ds : List Char) : Prop := Digits ds ∧ (ds.head? = some '0' → ds = ['0'])

def Sign (cs : List Char) : Prop := cs = [] ∨ cs = ['-']

def Fraction (cs : List Char) : Prop := cs = [] ∨ ∃ ds, Digits ds ∧ cs = '.' :: ds

/-- The letter, the sign and the digits of an exponent, or nothing. -/
def Exponent (cs : List Char) : Prop :=
  cs = [] ∨ ∃ e sign ds, (e = 'e' ∨ e = 'E') ∧ (Sign sign ∨ sign = ['+']) ∧ Digits ds ∧
    cs = e :: (sign ++ ds)

inductive NumberText : Value → List Char → Prop
  | integer {sign ds : List Char} {i : Int} (hs : Sign sign) (hd : Whole ds)
    (hz : sign ++ ds ≠ ['-', '0']) (hi : Numeral.integer? (sign ++ ds) = some i) :
    NumberText (.integer i) (sign ++ ds)
  | minusZero : NumberText (.real "-0") ['-', '0']
  | real {sign ds fraction exponent : List Char} (hs : Sign sign) (hd : Whole ds)
    (hf : Fraction fraction) (he : Exponent exponent) (hne : fraction ++ exponent ≠ []) :
    NumberText (.real (String.ofList (sign ++ ds ++ (fraction ++ exponent))))
      (sign ++ ds ++ (fraction ++ exponent))

/-! ## Tokens -/

inductive TokenText : Token → List Char → Prop
  | openArray : TokenText .openArray ['[']
  | closeArray : TokenText .closeArray [']']
  | openObject : TokenText .openObject ['{']
  | closeObject : TokenText .closeObject ['}']
  | colon : TokenText .colon [':']
  | comma : TokenText .comma [',']
  | null : TokenText (.scalar .null) ['n', 'u', 'l', 'l']
  | true : TokenText (.scalar (.bool true)) ['t', 'r', 'u', 'e']
  | false : TokenText (.scalar (.bool false)) ['f', 'a', 'l', 's', 'e']
  | number {v : Value} {cs : List Char} (h : NumberText v cs) : TokenText (.scalar v) cs
  | string {s : Quoted} {cs : List Char} (h : QuotedText s cs) :
    TokenText (.scalar (.string s)) ('"' :: (cs ++ ['"']))

/-- The characters spell the tokens, with blanks around them. -/
inductive TokensText : List Token → List Char → Prop
  | nil {blanks : List Char} (hb : ∀ c ∈ blanks, isSpace c = true) : TokensText [] blanks
  | cons {blanks cs rest : List Char} {t : Token} {ts : List Token}
    (hb : ∀ c ∈ blanks, isSpace c = true) (ht : TokenText t cs) (h : TokensText ts rest) :
    TokensText (t :: ts) (blanks ++ (cs ++ rest))

def Spells (text : String) (v : Value) : Prop := TokensText v.tokens text.toList

end LittleMan.Json
