import LittleMan.Instruction

/-!
# Listings and image files

Two texts of a memory image. A listing is assembly text: each line carries the address and the word
as a comment, so it can be assembled again. An image file has one word a line, in the order of
addresses; a comment starts at `//`, and blank lines do not count.
-/

namespace LittleMan.Listing

/-! ## Listings -/

def items (a : Architecture) (memory : List Word) : List Item := memory.map (Item.guess a)

def used (memory : List Word) : List Word :=
  (memory.reverse.dropWhile (· == 0)).reverse

def address (n : Nat) : String := Text.padLeft 3 '0' (Numeral.ofNat n)

def line (a : Architecture) (w : Word) (n : Nat) : String :=
  "    " ++ Text.padRight 12 (Item.guess a w).text ++ " // " ++ address n ++ ": " ++ w.text ++ "\n"

def header (a : Architecture) : String :=
  "// LMC disassembly (" ++ a.name ++ " machine)\n" ++
    "// best effort: code and data may be confused\n\n"

/-- The listing of a memory image, which leaves out the zero words at its end. -/
def render (a : Architecture) (memory : List Word) : String :=
  header a ++ String.join ((used memory).zipIdx.map fun (w, n) => line a w n)

end LittleMan.Listing

namespace LittleMan.ImageFile

/-! ## Image files -/

/-- The line of the word `w` at address `n`, with a guess at its meaning as a comment. -/
def line (a : Architecture) (w : Word) (n : Nat) : String :=
  Text.padRight 11 w.text ++ " // " ++ Listing.address n ++ ": " ++ (Item.guess a w).text ++ "\n"

def header (a : Architecture) (size : Nat) : String :=
  "// LMC memory image (" ++ a.name ++ " machine)\n" ++
    "// " ++ Numeral.ofNat size ++ " words\n\n"

def render (a : Architecture) (image : List Word) : String :=
  header a image.length ++ String.join (image.zipIdx.map fun (w, n) => line a w n)

inductive Error
  /-- The file cannot be read or written; the reason is the system's. -/
  | file (reason : String)
  | notAWord (line : Nat) (content : String)
deriving DecidableEq

def Error.message : Error → String
  | file reason => "I/O error: " ++ reason
  | notAWord line content =>
    "parse error on line " ++ Numeral.ofNat line ++ ": `" ++ content ++ "` is not a word"

/-- What counts on a line. -/
def content (line : List Char) : List Char := Text.trim (Text.uncommented line)

/-- The words on `lines`, the first of which has number `n`, behind those of `image`. -/
def parseFrom (image : Array Word) (n : Nat) : List (List Char) → Except Error (List Word)
  | [] => .ok image.toList
  | line :: rest =>
    let written := content line
    if written = [] then parseFrom image (n + 1) rest
    else
      match Word.read? written with
      | some w => parseFrom (image.push w) (n + 1) rest
      | none => .error (.notAWord n (String.ofList written))

def parse (text : String) : Except Error (List Word) := parseFrom #[] 1 (Text.lines text.toList)

end LittleMan.ImageFile
