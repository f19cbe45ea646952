import LittleMan.Architecture

/-!
# Memory and registers

Memory is a fixed number of cells, counted from zero. The number is set when a memory is made and
never changes afterwards. Registers hold what they are given: bringing values into range is the
business of the machine that owns them.
-/

namespace LittleMan

/-! ## Memory -/

structure Memory where
  cells : Array Word
deriving DecidableEq

namespace Memory

structure ImageTooLarge where
  size : Nat
  capacity : Nat
deriving DecidableEq

def ImageTooLarge.message (e : ImageTooLarge) : String :=
  "memory image of " ++ Numeral.ofNat e.size ++ " words doesn't fit in the " ++
    Numeral.ofNat e.capacity ++ "-word memory"

structure BadIndex where
  index : Nat
  size : Nat
deriving DecidableEq

/-- The text of the error, which names the last index there is. A memory without cells has none,
and the 64-bit number before zero stands in for it. -/
def BadIndex.message (e : BadIndex) : String :=
  "Memory index " ++ Numeral.ofNat e.index ++ " out of range (0-" ++
    Numeral.ofNat (UInt64.ofNat e.size - 1).toNat ++ ")"

def size (m : Memory) : Nat := m.cells.size

def zeros (size : Nat) : Memory := ⟨Array.replicate size 0⟩

/-- Replace the contents by an image, and by zeros behind it. -/
def load (m : Memory) (image : List Word) : Except ImageTooLarge Memory :=
  if image.length ≤ m.size then
    .ok ⟨(image ++ List.replicate (m.size - image.length) 0).toArray⟩
  else .error ⟨image.length, m.size⟩

def ofImage (image : List Word) (size : Nat) : Except ImageTooLarge Memory :=
  (zeros size).load image

def read (m : Memory) (index : Nat) : Except BadIndex Word :=
  match m.cells[index]? with
  | some w => .ok w
  | none => .error ⟨index, m.size⟩

/-- Put a word in a cell; nothing happens if there is no such cell. -/
def put (m : Memory) (index : Nat) (w : Word) : Memory := ⟨m.cells.setIfInBounds index w⟩

def write (m : Memory) (index : Nat) (w : Word) : Except BadIndex Memory :=
  if index < m.size then .ok (m.put index w) else .error ⟨index, m.size⟩

def indexed (m : Memory) : List (Nat × Word) := m.cells.toList.zipIdx.map fun (w, i) => (i, w)

def dump (m : Memory) (start count : Nat) : List (Nat × Word) :=
  (m.indexed.drop start).take count

/-- The cells of `after` that hold something else than in `before`, with their indices. -/
def changes (before after : Memory) : List (Nat × Word) :=
  after.indexed.filter fun (i, w) => before.cells[i]? != some w

def nonZero (m : Memory) : Nat := m.cells.toList.countP (· != 0)

def describe (m : Memory) : String :=
  "Memory \x7b non_zero_cells: " ++ Numeral.ofNat m.nonZero ++
    ", total_cells: " ++ Numeral.ofNat m.size ++ " \x7d"

end Memory

/-! ## Registers -/

structure Registers where
  acc : Word := 0
  /-- The index of the next word to fetch; it may be one past the last cell. -/
  ip : UInt64 := 0
  cir : Option Word := none
deriving DecidableEq, Inhabited

namespace Registers

/-- Move the instruction pointer on by one, unless it is at its greatest value. -/
def advance (r : Registers) : Registers :=
  { r with ip := if r.ip = UInt64.ofNat (UInt64.size - 1) then r.ip else r.ip + 1 }

def jump (r : Registers) (index : UInt64) : Registers := { r with ip := index }

def describe (r : Registers) : String :=
  let cir := match r.cir with
    | some w => "Some(" ++ w.text ++ ")"
    | none => "None"
  "Registers \x7b acc: " ++ r.acc.text ++ ", ip: " ++ Numeral.ofNat r.ip.toNat ++
    ", cir: " ++ cir ++ " \x7d"

end Registers

end LittleMan
