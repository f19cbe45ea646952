import LittleMan.Json.Token

/-!
# Printing JSON

A value as text, either without any blanks or with one element or member a line.
-/

namespace LittleMan.Json

/-- How the parts of a value are set apart. -/
inductive Layout
  | compact
  /-- Each part on a line of its own, two blanks further in at each depth. -/
  | indented (depth : Nat)

namespace Layout

def deeper : Layout → Layout
  | compact => compact
  | indented depth => indented (depth + 1)

/-- What stands in front of a part. -/
def lineBreak : Layout → String
  | compact => ""
  | indented depth => "\n" ++ Text.fill (2 * depth) ' '

def colon : Layout → String
  | compact => ":"
  | indented _ => ": "

end Layout

def hexDigit (n : Nat) : Char := Nat.digitChar n

def escape (c : Char) : String :=
  match c with
  | '"' => "\\\""
  | '\\' => "\\\\"
  | '\x08' => "\\b"
  | '\x0c' => "\\f"
  | '\n' => "\\n"
  | '\r' => "\\r"
  | '\t' => "\\t"
  | c =>
    if c.toNat < 0x20 then
      "\\u00" ++ String.ofList [hexDigit (c.toNat / 16), hexDigit (c.toNat % 16)]
    else String.ofList [c]

def spell : Quoted → String
  | .text s => String.join (s.toList.map escape)
  | .broken spelling => spelling

def quote (s : Quoted) : String := "\"" ++ spell s ++ "\""

mutual

def render (l : Layout) : Value → String
  | .null => "null"
  | .bool true => "true"
  | .bool false => "false"
  | .integer i => Numeral.ofInt i
  | .real spelling => spelling
  | .string s => quote s
  | .array [] => "[]"
  | .array (v :: vs) =>
    renderElements l.deeper ("[" ++ l.deeper.lineBreak ++ render l.deeper v) vs
      ++ l.lineBreak ++ "]"
  | .object [] => "\x7b\x7d"
  | .object ((s, v) :: ms) =>
    renderMembers l.deeper
        ("\x7b" ++ l.deeper.lineBreak ++ quote s ++ l.colon ++ render l.deeper v) ms
      ++ l.lineBreak ++ "\x7d"

/-- The elements behind the first one, after the text `done`. -/
def renderElements (l : Layout) (done : String) : List Value → String
  | [] => done
  | v :: vs => renderElements l (done ++ "," ++ l.lineBreak ++ render l v) vs

def renderMembers (l : Layout) (done : String) : List (Quoted × Value) → String
  | [] => done
  | (s, v) :: ms =>
    renderMembers l (done ++ "," ++ l.lineBreak ++ quote s ++ l.colon ++ render l v) ms

end

def compact (v : Value) : String := render .compact v

def pretty (v : Value) : String := render (.indented 0) v

end LittleMan.Json
