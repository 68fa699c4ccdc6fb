import CoolMachine.Image.Load

/-! A tree of files. Directories are the proper beginnings of the files' paths, and the directory
that relative paths start from is the root. What lies outside it is not part of the tree: names
there are missing. -/

namespace CoolMachine.Files

/-- The names on the way to a file or directory. -/
abbrev Path := List (List Char)

/-- Slashes separate names, and empty names count for nothing. -/
def Path.ofText (text : List Char) : Path := (text.splitOn '/').filter fun name => !name.isEmpty

inductive SystemError where
  | missing
  | notDirectory
  | isDirectory
  | nameTooLong
  | nulInName
  deriving DecidableEq

def SystemError.message : SystemError → String
  | missing => "No such file or directory (os error 2)"
  | notDirectory => "Not a directory (os error 20)"
  | isDirectory => "Is a directory (os error 21)"
  | nameTooLong => "File name too long (os error 36)"
  | nulInName => "file name contained an unexpected NUL byte"

/-- Every path occurs at most once. -/
structure Tree where
  files : List (Path × List UInt8) := []

/-- Where a path leads. -/
inductive Place where
  | file (bytes : List UInt8)
  | directory (path : Path)
  | outside

/-- The greatest number of bytes in one name. -/
def nameLimit : Nat := 255

/-- The greatest number of bytes in a path. -/
def pathLimit : Nat := 4095

def byteLength (text : List Char) : Nat := (String.ofList text).utf8ByteSize

def here : List Char := ['.']

def above : List Char := ['.', '.']

/-- The path without steps in place and without steps up again. -/
def Path.direct (path : Path) : Path :=
  (path.foldl (fun taken name =>
    if name = here then taken else if name = above then taken.drop 1 else name :: taken) []).reverse

namespace Tree

def find? (tree : Tree) (path : Path) : Option (List UInt8) := tree.files.lookup path

/-- Puts a file in place, over the one that was there before if there was one. -/
def insert (tree : Tree) (path : Path) (bytes : List UInt8) : Tree :=
  ⟨(path, bytes) :: tree.files.filter fun (other, _) => other != path⟩

/-- Puts a file at a path as written, making directories on the way as needed. -/
def install (tree : Tree) (path : String) (bytes : List UInt8) : Tree :=
  tree.insert (Path.ofText path.toList).direct bytes

def isDirectory (tree : Tree) (path : Path) : Bool :=
  path.isEmpty || tree.files.any fun (other, _) => path.isPrefixOf other && path != other

/-- The place that a name leads to from a place. -/
def enter (tree : Tree) (place : Place) (name : List Char) : Except SystemError Place :=
  match place with
  | .file _ => .error .notDirectory
  | .directory path =>
    if name = here then .ok place
    else if name = above then
      .ok (if path.isEmpty then .outside else .directory path.dropLast)
    else if nameLimit < byteLength name then .error .nameTooLong
    else
      let path := path ++ [name]
      match tree.find? path with
      | some bytes => .ok (.file bytes)
      | none => if tree.isDirectory path then .ok (.directory path) else .error .missing
  | .outside =>
    if name = here ∨ name = above then .ok place
    else if nameLimit < byteLength name then .error .nameTooLong
    else .error .missing

end Tree

/-- A path as written: where it starts, its names, and whether it asks for a directory. -/
structure Route where
  start : Place
  names : Path
  trailingSlash : Bool

/-- A slash at the start leads outside. -/
def Route.ofString (path : String) : Except SystemError Route :=
  let text := path.toList
  if '\x00' ∈ text then .error .nulInName
  else if text.isEmpty then .error .missing
  else if pathLimit < byteLength text then .error .nameTooLong
  else .ok {
    start := if text.head? = some '/' then .outside else .directory []
    names := Path.ofText text
    trailingSlash := text.getLast? = some '/' }

namespace Tree

/-- Opens a path for reading; a directory opens, but yields nothing. -/
def openPath (tree : Tree) (path : String) : Except SystemError ByteStream := do
  let route ← Route.ofString path
  match ← route.names.foldlM tree.enter route.start with
  | .file bytes => if route.trailingSlash then .error .notDirectory else return { bytes }
  | .directory _ | .outside =>
    return { bytes := [], failure := some SystemError.isDirectory.message }

/-- Creates or replaces the file at a path, whose directory has to be there. -/
def create (tree : Tree) (path : String) (bytes : List UInt8) : Except SystemError Tree := do
  let route ← Route.ofString path
  match route.names.getLast? with
  | none => .error .isDirectory
  | some name =>
    match ← route.names.dropLast.foldlM tree.enter route.start with
    | .file _ => .error .notDirectory
    | .outside => .error (if name = here ∨ name = above then .isDirectory else .missing)
    | .directory directory =>
      let target := directory ++ [name]
      if route.trailingSlash ∨ name = here ∨ name = above then .error .isDirectory
      else if nameLimit < byteLength name then .error .nameTooLong
      else if tree.isDirectory target then .error .isDirectory
      else return tree.insert target bytes

/-- The contents of the file at a path, if there is one. -/
def contents? (tree : Tree) (path : String) : Option (List UInt8) :=
  match tree.openPath path with
  | .ok ⟨bytes, none⟩ => some bytes
  | _ => none

end Tree

end CoolMachine.Files
