/-!
# Folders

A working directory held in memory, with the reading and writing of files by path. Beyond its own
contents only the directories around it are known to exist. A path is a text whose parts are divided by
slashes, and empty parts say nothing.
-/
namespace RegionIR

namespace Path

/-- The parts of a path between its slashes, empty ones included. -/
def parts (path : String) : List String := path.splitOn "/"

def isAbsolute (path : String) : Bool := path.startsWith "/"

/-- The parts of a path that have to be followed. -/
def steps (path : String) : List String := (parts path).filter (· != "")

/-- Whether a path ends in a slash, as only that of a directory may. -/
def endsInSlash (path : String) : Bool := path.endsWith "/"

/-- The last name in a path; empty when the path ends in a parent directory or has no name. -/
def fileName (path : String) : String :=
  match ((steps path).filter (· != ".")).getLast? with
  | some name => if name = ".." then "" else name
  | none => ""

end Path

/-- Why a file could not be read or written. -/
inductive FileFault where
  | notFound
  | isDirectory
  | notDirectory
  | nameTooLong
  | nulInName
  | notText
  | other (reason : String)
  deriving DecidableEq

def FileFault.message : FileFault → String
  | notFound => "No such file or directory (os error 2)"
  | isDirectory => "Is a directory (os error 21)"
  | notDirectory => "Not a directory (os error 20)"
  | nameTooLong => "File name too long (os error 36)"
  | nulInName => "file name contained an unexpected NUL byte"
  | notText => "stream did not contain valid UTF-8"
  | other reason => reason

/-- The text of a file's bytes. -/
def textOfBytes (bytes : ByteArray) : Except FileFault String :=
  match String.fromUTF8? bytes with
  | some s => .ok s
  | none => .error .notText

inductive Entry where
  | file (bytes : ByteArray)
  | directory

/-- What a folder holds, by the names that lead there. -/
abbrev Folder := List (List String × Entry)

namespace Folder

/-- A directory: one in the folder, or one outside of it. -/
inductive Spot where
  | inside (names : List String)
  | outside

/-- What a path leads to. -/
inductive Target where
  | directory (spot : Spot)
  | file (names : List String) (bytes : ByteArray)
  /-- No entry, in an existing directory. -/
  | absent (spot : Spot) (name : String)

def entry? (f : Folder) (names : List String) : Option Entry :=
  (f.find? (·.1 = names)).map (·.2)

/-- The directory above. -/
def Spot.parent : Spot → Spot
  | inside [] => outside
  | inside names => inside names.dropLast
  | outside => outside

/-- The longest name of a file, in bytes. -/
def longestName : Nat := 255

/-- The longest path, in bytes. -/
def longestPath : Nat := 4095

/-- What a name in a directory leads to. -/
def enter (f : Folder) (spot : Spot) (name : String) : Except FileFault Target :=
  if longestName < name.utf8ByteSize then .error .nameTooLong
  else if name = "." then .ok (.directory spot)
  else if name = ".." then .ok (.directory spot.parent)
  else
    match spot with
    | .outside => .ok (.absent spot name)
    | .inside names =>
      match f.entry? (names ++ [name]) with
      | some (.file bytes) => .ok (.file (names ++ [name]) bytes)
      | some .directory => .ok (.directory (.inside (names ++ [name])))
      | none => .ok (.absent spot name)

/-- Follows names from a directory, each of which has to lead to a directory. -/
def walk (f : Folder) (spot : Spot) : List String → Except FileFault Spot
  | [] => .ok spot
  | name :: rest => do
    match ← f.enter spot name with
    | .directory next => f.walk next rest
    | .file .. => .error .notDirectory
    | .absent .. => .error .notFound

/-- The directory in which the last name of a path is looked up, and that name if there is one. -/
def approach (f : Folder) (path : String) : Except FileFault (Spot × Option String) := do
  if path.any (· = '\x00') then .error .nulInName
  else if path = "" then .error .notFound
  else if longestPath < path.utf8ByteSize then .error .nameTooLong
  else
    let names := Path.steps path
    let spot ← f.walk (if Path.isAbsolute path then .outside else .inside []) names.dropLast
    return (spot, names.getLast?)

/-- What the last name of a path leads to. -/
def arrive (f : Folder) (spot : Spot) : Option String → Except FileFault Target
  | none => .ok (.directory spot)
  | some name => f.enter spot name

/-- The bytes of a file. -/
def read (f : Folder) (path : String) : Except FileFault ByteArray := do
  let (spot, last) ← f.approach path
  match ← f.arrive spot last with
  | .directory _ => .error .isDirectory
  | .file _ bytes => if Path.endsInSlash path then .error .notDirectory else .ok bytes
  | .absent .. => .error .notFound

/-- Puts an entry in place of the one of the same names. -/
def put (f : Folder) (names : List String) (e : Entry) : Folder :=
  f.filter (·.1 != names) ++ [(names, e)]

/-- The folder after a file is written. A path that ends in a slash names no file, whatever its last
name, which is not looked up; and what is written outside of the folder does not show. -/
def write (f : Folder) (path : String) (bytes : ByteArray) : Except FileFault Folder := do
  let (spot, last) ← f.approach path
  if Path.endsInSlash path then .error .isDirectory
  else
    match ← f.arrive spot last with
    | .directory _ => .error .isDirectory
    | .file names _ => .ok (f.put names (.file bytes))
    | .absent (.inside names) name => .ok (f.put (names ++ [name]) (.file bytes))
    | .absent .outside _ => .ok f

end Folder

end RegionIR
