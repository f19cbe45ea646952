import LittleMan.Text

/-!
# Paths and file trees

The file name at the end of a path, and its extension; slashes and single dots at the end of a path
do not count. And the files below a working directory, and what opening a path in it comes to. A
directory is there as long as a file is in it.
-/

namespace LittleMan.Command.Path

def pieces (path : String) : List (List Char) :=
  ((path.toList.splitOn '/').reverse.dropWhile fun piece => piece == [] || piece == ['.']).reverse

def fileName? (path : String) : Option (List Char) :=
  (pieces path).getLast?.filter (· ≠ ['.', '.'])

/-- What stands before and after the last dot of a name. A dot at the start does not count. -/
def splitName (name : List Char) : List Char × Option (List Char) :=
  let backwards := name.reverse
  match backwards.dropWhile (· != '.') with
  | _ :: c :: stem => ((c :: stem).reverse, some (backwards.takeWhile (· != '.')).reverse)
  | _ => (name, none)

def extension? (path : String) : Option String :=
  (fileName? path).bind fun name => (splitName name).2.map String.ofList

/-- A path without the extension at its end. The dot in front of it stays. -/
def withoutExtension (path : String) : String :=
  match extension? path with
  | none => path
  | some extension =>
    if extension.toList.isSuffixOf path.toList then
      String.ofList (path.toList.take (path.length - extension.length))
    else path

/-- A path with the extension of its file name replaced, or added if there is none. The old
extension is taken off first. If what is left has no file name nothing is added to it, so `..txt`
becomes `..`. -/
def withExtension (path extension : String) : String :=
  let bare := withoutExtension path
  match fileName? bare with
  | none => bare
  | some name =>
    let renamed := (splitName name).1 ++ '.' :: extension.toList
    String.ofList (['/'].intercalate ((pieces bare).dropLast ++ [renamed]))

end LittleMan.Command.Path

namespace LittleMan.Command

abbrev Names := List String

structure FileTree where
  files : List (Names × ByteArray)

namespace FileTree

inductive Error
  | noEntry
  | notDirectory
  | isDirectory
  | nameTooLong
deriving DecidableEq

def Error.message : Error → String
  | noEntry => "No such file or directory (os error 2)"
  | notDirectory => "Not a directory (os error 20)"
  | isDirectory => "Is a directory (os error 21)"
  | nameTooLong => "File name too long (os error 36)"

/-- What a path leads to. Of what lies outside the working directory nothing is known but that it is
a directory; it has no names. -/
inductive Place
  | directory (names : Option Names)
  | file (names : Names) (content : ByteArray)
  /-- A name in a directory that has no entry of that name. -/
  | vacant (names : Option Names)

/-- Whether there are files in a directory. The working directory is always there. -/
def hasDirectory (t : FileTree) (names : Names) : Bool :=
  names.isEmpty || t.files.any fun (file, _) => names.isPrefixOf file && names != file

def child (t : FileTree) : Option Names → String → Place
  | none, _ => .vacant none
  | some names, name =>
    let names := names ++ [name]
    match t.files.lookup names with
    | some content => .file names content
    | none => if t.hasDirectory names then .directory (some names) else .vacant (some names)

def parent : Option Names → Option Names
  | none => none
  | some [] => none
  | some names => some names.dropLast

def longestName : Nat := 255

def longestPath : Nat := 4095

def enter (t : FileTree) : Place → List Char → Except Error Place
  | .file .., _ => .error .notDirectory
  | .vacant _, _ => .error .noEntry
  | .directory names, [] => .ok (.directory names)
  | .directory names, ['.'] => .ok (.directory names)
  | .directory names, ['.', '.'] => .ok (.directory (parent names))
  | .directory names, name =>
    let name := String.ofList name
    if longestName < name.utf8ByteSize then .error .nameTooLong else .ok (t.child names name)

/-- What the pieces of a path lead to. A path that starts with a slash starts outside. -/
def walk (t : FileTree) (pieces : List (List Char)) : Except Error Place :=
  pieces.foldlM t.enter (.directory (if pieces.head? = some [] then none else some []))

def read (t : FileTree) (path : String) : Except Error ByteArray :=
  if path = "" then .error .noEntry
  else if longestPath < path.utf8ByteSize then .error .nameTooLong
  else
    match t.walk (path.toList.splitOn '/') with
    | .error e => .error e
    | .ok (.directory _) => .error .isDirectory
    | .ok (.vacant _) => .error .noEntry
    | .ok (.file _ content) => .ok content

def put (t : FileTree) (names : Names) (content : ByteArray) : FileTree :=
  ⟨(names, content) :: t.files.filter (·.1 != names)⟩

def bare (pieces : List (List Char)) : List (List Char) :=
  (pieces.reverse.dropWhile (· == [])).reverse

/-- The pieces to walk when a file is made. A path that ends in a slash names a directory, whatever
its last name leads to: that name is not looked up, and the directory around it is taken instead. -/
def target (pieces : List (List Char)) : List (List Char) :=
  if pieces.getLast? = some [] then (bare pieces).dropLast ++ [['.']] else pieces

/-- Make a file, or replace one. Files outside the working directory are not kept. -/
def write (t : FileTree) (path : String) (content : ByteArray) : Except Error FileTree :=
  if path = "" then .error .noEntry
  else if longestPath < path.utf8ByteSize then .error .nameTooLong
  else
    match t.walk (target (path.toList.splitOn '/')) with
    | .error e => .error e
    | .ok (.directory _) => .error .isDirectory
    | .ok (.vacant (some names)) => .ok (t.put names content)
    | .ok (.vacant none) => .ok t
    | .ok (.file names _) => .ok (t.put names content)

def ofPaths (files : List (String × ByteArray)) : FileTree :=
  ⟨files.map fun (path, content) =>
    (((path.toList.splitOn '/').filter fun piece => piece != [] && piece != ['.']).map
      String.ofList, content)⟩

def paths (t : FileTree) : List (String × ByteArray) :=
  t.files.map fun (names, content) => ("/".intercalate names, content)

/-- The files of `after` that are not in `before`, or have another content there. -/
def changes (before after : FileTree) : List (String × ByteArray) :=
  paths ⟨after.files.filter fun (names, content) =>
    (before.files.lookup names).map ByteArray.data != some content.data⟩

end FileTree

end LittleMan.Command
