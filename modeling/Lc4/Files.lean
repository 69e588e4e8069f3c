/-!
# Files

Reading a file gives its bytes or the system's words for why that fails. A `Directory` is a
working directory with known files: a path is followed name by name, a name that leads nowhere is
not found, a file is no directory and a directory cannot be read. No name can be longer than 255
bytes. Outside there are only folders that lead up to the root.
-/
namespace Lc4

/-- Why a file cannot be read: a description and the system's number for it, if it has one. -/
structure FileError where
  description : String
  code : Option Nat
deriving DecidableEq

namespace FileError

def notFound : FileError := ⟨"No such file or directory", some 2⟩

def permissionDenied : FileError := ⟨"Permission denied", some 13⟩

def notDirectory : FileError := ⟨"Not a directory", some 20⟩

def isDirectory : FileError := ⟨"Is a directory", some 21⟩

def nameTooLong : FileError := ⟨"File name too long", some 36⟩

def nulByte : FileError := ⟨"file name contained an unexpected NUL byte", none⟩

/-- The error with a number; the description is used if the number is not a common one. -/
def ofNumber (n : Nat) (description : String) : FileError :=
  ([notFound, permissionDenied, notDirectory, isDirectory, nameTooLong].find?
    (·.code == some n)).getD ⟨description, some n⟩

def message (e : FileError) : String :=
  match e.code with
  | some n => e.description ++ " (os error " ++ toString n ++ ")"
  | none => e.description

end FileError

/-- What a path leads to. -/
abbrev ReadFile := String → Except FileError (List UInt8)

/-- What keeps a path from being followed, whatever files there are. -/
def pathFault? (path : String) : Option FileError :=
  if path.toList.contains '\x00' then some .nulByte
  else if path = "" then some .notFound
  else if 4096 ≤ path.utf8ByteSize then some .nameTooLong
  else none

/-- Files with their paths below the working directory. -/
structure Directory where
  files : List (String × List UInt8)

namespace Directory

/-- A place that a path can lead to. A place inside is given by the names that lead there. -/
inductive Place
  | inside (names : List String)
  | outside

/-- The folder that a folder is in; the root is in itself. -/
def Place.parent : Place → Place
  | .inside [] | .outside => .outside
  | .inside names => .inside names.dropLast

def content? (d : Directory) (names : List String) : Option (List UInt8) :=
  d.files.findSome? fun f => if f.1.splitOn "/" = names then some f.2 else none

def isFolder (d : Directory) (names : List String) : Bool :=
  names.isEmpty || d.files.any fun f =>
    names.isPrefixOf (f.1.splitOn "/") && (f.1.splitOn "/").length != names.length

def isFolderAt (d : Directory) : Place → Bool
  | .outside => true
  | .inside names => d.isFolder names

/-- What a name in a folder leads to. -/
def child? (d : Directory) : Place → String → Option Place
  | .outside, _ => none
  | .inside names, name =>
    let names := names ++ [name]
    if (d.content? names).isSome || d.isFolder names then some (.inside names) else none

/-- One name further. The names `.` and the empty name stay in a folder, `..` leaves it. Whether a
name is too long is looked at before whether it leads anywhere. -/
def enter (d : Directory) (p : Place) (name : String) : Except FileError Place :=
  if !d.isFolderAt p then .error .notDirectory
  else if name = "" ∨ name = "." then .ok p
  else if name = ".." then .ok p.parent
  else if 255 < name.utf8ByteSize then .error .nameTooLong
  else
    match d.child? p name with
    | some q => .ok q
    | none => .error .notFound

def read (d : Directory) : ReadFile := fun path =>
  match pathFault? path with
  | some e => .error e
  | none => do
    let start : Place := if path.startsWith "/" then .outside else .inside []
    match ← (path.splitOn "/").foldlM d.enter start with
    | .outside => .error .isDirectory
    | .inside names =>
      match d.content? names with
      | some bytes => .ok bytes
      | none => .error .isDirectory

end Directory

end Lc4
