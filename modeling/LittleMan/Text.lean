/-!
# Texts

How a text falls into lines, a line into words, and a word into digits. White space has the Unicode
property `White_Space`, which is wider than ASCII blanks and narrower than "invisible": the
zero-width space and the byte order mark are ordinary characters. Everything works on lists of
characters; the callers turn the pieces they keep back into strings.
-/

namespace LittleMan.Text

/-! ## Lines -/

def dropReturn (line : List Char) : List Char :=
  if line.getLast? = some '\r' then line.dropLast else line

/-- The lines of a text. A newline ends a line, together with a carriage return right before it.
What follows the last newline is a line only if it is not empty. -/
def lines (text : List Char) : List (List Char) :=
  let pieces := text.splitOn '\n'
  pieces.dropLast.map dropReturn ++ (pieces.getLast?.filter (· ≠ [])).toList

/-- `kept`, reversed, followed by the characters before the first `//`. -/
def uncommentedFrom (kept : List Char) : List Char → List Char
  | '/' :: '/' :: _ => kept.reverse
  | c :: rest => uncommentedFrom (c :: kept) rest
  | [] => kept.reverse

/-- A line up to its comment, which starts at the first `//`. -/
def uncommented (line : List Char) : List Char := uncommentedFrom [] line

/-! ## Words -/

def isBlank (c : Char) : Bool :=
  let n := c.toNat
  (0x09 ≤ n && n ≤ 0x0D) || n == 0x20 || n == 0x85 || n == 0xA0 || n == 0x1680
    || (0x2000 ≤ n && n ≤ 0x200A) || n == 0x2028 || n == 0x2029 || n == 0x202F
    || n == 0x205F || n == 0x3000

def trim (text : List Char) : List Char :=
  ((text.dropWhile isBlank).reverse.dropWhile isBlank).reverse

def words (text : List Char) : List (List Char) :=
  (text.splitOnP isBlank).filter (· ≠ [])

/-! ## Columns -/

def fill (n : Nat) (c : Char) : String := String.ofList (List.replicate n c)

/-- `text` and then blanks up to `width` characters. A text that is as wide already is left as it
is: nothing is ever cut. -/
def padRight (width : Nat) (text : String) : String :=
  text ++ fill (width - text.length) ' '

def padLeft (width : Nat) (c : Char) (text : String) : String :=
  fill (width - text.length) c ++ text

end LittleMan.Text

/-! ## Numerals

The one way a number is written, and the ways it may be read: a sign may stand in front of a
positive number too, and leading zeros do not matter. -/

namespace LittleMan.Numeral

def ofNat (n : Nat) : String := String.ofList (Nat.toDigits 10 n)

def ofInt : Int → String
  | .ofNat n => ofNat n
  | .negSucc n => "-" ++ ofNat (n + 1)

def appendDigit? (n : Nat) (c : Char) : Option Nat :=
  if c.isDigit then some (10 * n + (c.toNat - '0'.toNat)) else none

def digits? : List Char → Option Nat
  | [] => none
  | cs => cs.foldlM appendDigit? 0

def natural? : List Char → Option Nat
  | '+' :: cs => digits? cs
  | cs => digits? cs

def integer? : List Char → Option Int
  | '-' :: cs => (digits? cs).map fun n => -(n : Int)
  | cs => (natural? cs).map Int.ofNat

end LittleMan.Numeral
