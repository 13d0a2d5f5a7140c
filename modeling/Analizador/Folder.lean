import Analizador.Text.Quoted
import Analizador.Text.Utf8

/-! # Folders

The files that a window can open and save: a working folder with files and folders below it. Paths
are relative to the working folder. -/

namespace Analizador

/-- A working folder. Files and folders below it are named by their paths. -/
structure Folder where
  files : List (String × List UInt8)
  folders : List String
  deriving Repr, Inhabited

namespace Folder

/-- Why a file cannot be read or written. -/
inductive Fault where
  | missing (path : String)
  | notFolder (path : String)
  | isFolder (path : String)
  | longName (path : String)
  | nullByte
  | notText (f : Text.Utf8.Fault)
  deriving DecidableEq, Repr, Inhabited

/-- The wording of a fault. -/
def Fault.message : Fault → String
  | missing path => s!"[Errno 2] No such file or directory: {Text.quoted path}"
  | notFolder path => s!"[Errno 20] Not a directory: {Text.quoted path}"
  | isFolder path => s!"[Errno 21] Is a directory: {Text.quoted path}"
  | longName path => s!"[Errno 36] File name too long: {Text.quoted path}"
  | nullByte => "embedded null byte"
  | notText f => f.message

/-- What stands at a path. -/
inductive Entry where
  | folder
  | file (key : String)
  | free (key : String)
  deriving DecidableEq, Repr, Inhabited

/-- The longest name of a file, in bytes. -/
def nameLimit : Nat := 255

/-- Cuts a path at its slashes. -/
def splitPath : List Char → List (List Char)
  | [] => [[]]
  | c :: rest =>
    if c = '/' then [] :: splitPath rest
    else match splitPath rest with
      | [] => [[c]]
      | name :: names => (c :: name) :: names

/-- The names in a path. -/
def names (path : String) : List String :=
  ((splitPath path.toList).filter (!·.isEmpty)).map String.ofList

/-- The last name in a path; it is empty when the path ends in a slash. -/
def baseName (path : String) : String := String.ofList ((splitPath path.toList).getLastD [])

/-- The key of the names of a path. -/
def key (names : List String) : String := "/".intercalate names

/-- What stands at some names below a folder. -/
def entryAt (d : Folder) (names : List String) : Entry :=
  if names.isEmpty || d.folders.contains (key names) then .folder
  else if d.files.any (·.1 == key names) then .file (key names)
  else .free (key names)

/-- Follows names from a folder; `none` is a place outside the working folder, of which only its
being a folder is known. -/
def follow (d : Folder) (path : String) (place : Option (List String)) :
    List String → Except Fault Entry
  | [] => .ok .folder
  | name :: rest =>
    if nameLimit < name.utf8ByteSize then .error (.longName path)
    else if name = "." then follow d path place rest
    else if name = ".." then
      match place with
      | none | some [] => follow d path none rest
      | some (up :: ups) => follow d path (some (up :: ups).dropLast) rest
    else match place with
      | none => .error (.missing path)
      | some above =>
        match d.entryAt (above ++ [name]), rest with
        | .folder, rest => follow d path (some (above ++ [name])) rest
        | entry, [] => .ok entry
        | .file _, _ => .error (.notFolder path)
        | .free _, _ => .error (.missing path)

/-- What stands at a path. -/
def locate (d : Folder) (path : String) : Except Fault Entry :=
  if path.toList.contains '\x00' then .error .nullByte
  else d.follow path (if path.toList.head? = some '/' then none else some []) (names path)

/-- Whether a path ends in a slash. -/
def endsInSlash (path : String) : Bool := path.toList.getLast? = some '/'

/-- The bytes of a file. -/
def bytesAt (d : Folder) (key : String) : List UInt8 := (d.files.lookup key).getD []

/-- Reads a text file; every line end becomes a single line feed. -/
def read (d : Folder) (path : String) : Except Fault String := do
  match ← d.locate path with
  | .folder => throw (.isFolder path)
  | .free _ => throw (.missing path)
  | .file key =>
    if endsInSlash path then throw (.notFolder path)
    match Text.Utf8.decodeFrom 0 0 (d.bytesAt key) with
    | .ok cs => return String.ofList (Text.Utf8.unifyLineEnds cs)
    | .error f => throw (.notText f)

/-- Puts a file into a folder, in the place of one of the same key. -/
def put (files : List (String × List UInt8)) (key : String) (bytes : List UInt8) :
    List (String × List UInt8) :=
  match files with
  | [] => [(key, bytes)]
  | (k, old) :: rest => if k = key then (k, bytes) :: rest else (k, old) :: put rest key bytes

/-- Writes a text file as it is. -/
def write (d : Folder) (path text : String) : Except Fault Folder := do
  match ← d.locate path with
  | .folder => throw (.isFolder path)
  | .file key | .free key =>
    if endsInSlash path then throw (.isFolder path)
    return { d with files := put d.files key (Text.Utf8.encode text) }

end Folder

end Analizador
