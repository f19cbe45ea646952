import LittleMan.Architecture
import LittleMan.Json.Token

/-!
# Reading JSON

From a list of tokens to a value, and from a value to what it means. The reader takes one token at a
time and keeps the arrays and objects that are still open on a stack, so it reads nested values of
any depth.

In the values of the library, a choice between named cases is a string, or an object with the name
of the case as its only member. A record is an object, or an array of the fields in their order.
-/

namespace LittleMan.Json.Reader

/-- An array or object that is still open, with what it holds so far, last first. -/
inductive Frame
  | elements (done : List Value)
  | member (done : List (Quoted × Value)) (name : Quoted)

/-- What the next token has to be. -/
inductive Goal
  | value
  /-- The start of the first element of an array, or its end. -/
  | elementOrEnd
  | nameOrEnd
  /-- A name, behind the members of `done`. -/
  | name (done : List (Quoted × Value))
  /-- The colon behind a name. -/
  | colon (done : List (Quoted × Value)) (name : Quoted)
  /-- A comma or a closing bracket, behind the value `v`. -/
  | after (v : Value)

/-- The innermost open part comes first. -/
abbrev Stack := List Frame

def start (stack : Stack) : Token → Option (Stack × Goal)
  | .scalar v => some (stack, .after v)
  | .openArray => some (stack, .elementOrEnd)
  | .openObject => some (stack, .nameOrEnd)
  | _ => none

def step : Stack × Goal → Token → Option (Stack × Goal)
  | (stack, .value), t => start stack t
  | (stack, .elementOrEnd), .closeArray => some (stack, .after (.array []))
  | (stack, .elementOrEnd), t => start (.elements [] :: stack) t
  | (stack, .nameOrEnd), .closeObject => some (stack, .after (.object []))
  | (stack, .nameOrEnd), .scalar (.string s) => some (stack, .colon [] s)
  | (stack, .name done), .scalar (.string s) => some (stack, .colon done s)
  | (stack, .colon done s), .colon => some (.member done s :: stack, .value)
  | (.elements done :: stack, .after v), .comma => some (.elements (v :: done) :: stack, .value)
  | (.member done s :: stack, .after v), .comma => some (stack, .name ((s, v) :: done))
  | (.elements done :: stack, .after v), .closeArray =>
    some (stack, .after (.array (v :: done).reverse))
  | (.member done s :: stack, .after v), .closeObject =>
    some (stack, .after (.object ((s, v) :: done).reverse))
  | _, _ => none

/-- The value that a whole list of tokens spells. -/
def value? (tokens : List Token) : Option Value :=
  match tokens.foldlM step ([], .value) with
  | some ([], .after v) => some v
  | _ => none

end LittleMan.Json.Reader

namespace LittleMan.Json

def parse? (text : String) : Option Value := (tokens? text.toList).bind Reader.value?

end LittleMan.Json

namespace LittleMan.Json.Value

/-! ## Numbers -/

def word? : Value → Option Word
  | .integer i => Word.ofInt? i
  | _ => none

def uint32? : Value → Option UInt32
  | .integer i => if 0 ≤ i ∧ i < UInt32.size then some (UInt32.ofNat i.toNat) else none
  | _ => none

def uint64? : Value → Option UInt64
  | .integer i => if 0 ≤ i ∧ i < UInt64.size then some (UInt64.ofNat i.toNat) else none
  | _ => none

/-! ## Choices -/

/-- The name of the case that a value chooses, and what is given with it. -/
def choice? : Value → Option (String × Option Value)
  | .string (.text name) => some (name, none)
  | .object [(.text name, v)] => some (name, some v)
  | _ => none

def isBare : Option Value → Bool
  | none => true
  | some .null => true
  | _ => false

/-- The case of the given list that a value chooses and gives nothing with. -/
def bareChoice? {α : Type} (cases : List (String × α)) (v : Value) : Option α :=
  match v.choice? with
  | some (name, content) => if isBare content then cases.lookup name else none
  | none => none

/-! ## Records -/

def distinct (names : List String) (members : List (Quoted × Value)) : Bool :=
  names.all fun name => members.countP (·.1 == .text name) ≤ 1

def select (names : List String) (members : List (Quoted × Value)) : List (Option Value) :=
  names.map fun name => members.lookup (.text name)

/-- The fields with the given names; an array has them all. Other members of an object do not
matter, as long as their names are texts. -/
def fields? (names : List String) : Value → Option (List (Option Value))
  | .array vs => if vs.length = names.length then some (vs.map some) else none
  | .object members =>
    if distinct names members && members.all (·.1.isText) then some (select names members)
    else none
  | _ => none

/-- The fields with the given names; an array may lack the last ones. An object has no other
members. -/
def strictFields? (names : List String) : Value → Option (List (Option Value))
  | .array vs =>
    if vs.length ≤ names.length then
      some (vs.map some ++ List.replicate (names.length - vs.length) none)
    else none
  | .object members =>
    if distinct names members && members.all ((names.map .text).contains ·.1) then
      some (select names members)
    else none
  | _ => none

end LittleMan.Json.Value
