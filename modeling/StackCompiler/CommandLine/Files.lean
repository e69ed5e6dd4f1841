/-!
# CommandLine/Files — reading and writing files

A run needs two things of the world: to read a file as text and to write one.  `Files` is what
provides them.  A `Directory` provides them **in memory**: files by their paths below the place
where a run starts, folders wherever a file is below them, and around it the folders and devices
that every system has.
-/

namespace StackCompiler.CommandLine

/-! ## Failing -/

/-- Why a file cannot be read or written. -/
inductive FileError where
  /-- A refusal of the system, with its number. -/
  | system (code : Nat) (text : String)
  | notText
deriving DecidableEq, Repr

namespace FileError

def missing : FileError := system 2 "No such file or directory"

def notDirectory : FileError := system 20 "Not a directory"

def isDirectory : FileError := system 21 "Is a directory"

def noSpace : FileError := system 28 "No space left on device"

def nameTooLong : FileError := system 36 "File name too long"

def message : FileError → String
  | system code text => text ++ " (os error " ++ toString code ++ ")"
  | notText => "stream did not contain valid UTF-8"

end FileError

/-- Access to files. -/
structure Files (m : Type → Type) where
  read : String → m (Except FileError String)
  write : String → String → m (Except FileError Unit)

/-! ## Paths -/

/-- The names of a path; a name is empty where a slash has nothing before or after it. -/
def components (path : String) : List String :=
  path.splitOn "/"

/-- Whether the name goes to a folder that is there anyway. -/
def isStep (name : String) : Bool :=
  name = "" || name = "." || name = ".."

/-- The most bytes that a name may have. -/
def nameLimit : Nat := 255

/-- The most bytes that a path may have, **whatever its names are**. -/
def pathLimit : Nat := 4095

/-- The names of a path that is not too long. -/
def namesOf (path : String) : Except FileError (List String) :=
  if pathLimit < path.utf8ByteSize then .error .nameTooLong else .ok (components path)

/-- A folder, by its names from the place where a run starts or from the top. -/
inductive Folder where
  | inside (path : List String)
  | outside (path : List String)
deriving DecidableEq, Repr

/-- The folder around the one that a run starts in. -/
def Folder.around : Folder := outside ["tmp"]

/-- The folder around a folder; **the top has none** and leads to itself. -/
def Folder.parent : Folder → Folder
  | inside [] => around
  | inside path => inside path.dropLast
  | outside path => outside path.dropLast

/-- Where a path starts: at the top if a slash comes first. -/
def Folder.start (path : String) : Folder :=
  if path.startsWith "/" then outside [] else inside []

/-! ## The system -/

/-- A file that keeps nothing: nothing is read from it, and what is written to it is dropped,
refused for want of room, or printed. -/
inductive Device where
  | null
  | full
  | output
  | errors
deriving DecidableEq, Repr

/-- The names of the folders at the top of every system. -/
def topFolders : List String :=
  ["bin", "boot", "dev", "etc", "home", "lib", "media", "mnt", "opt", "proc", "root", "run", "sbin",
   "srv", "sys", "tmp", "usr", "var"]

/-- The names of the devices, which are in one folder.  The standard input of a run **is empty**. -/
def devices : List (String × Device) :=
  [("null", .null), ("full", .full), ("stdin", .null), ("stdout", .output), ("stderr", .errors)]

/-- What a name can stand for. -/
inductive Entry where
  | folder (folder : Folder)
  | file (bytes : List UInt8)
  | device (device : Device)
deriving DecidableEq, Repr

/-- What every system has under a name. -/
def systemEntry? : List String → String → Option Entry
  | [], name => if name ∈ topFolders then some (.folder (.outside [name])) else none
  | ["dev"], name => (devices.lookup name).map .device
  | _, _ => none

/-! ## Directories -/

/-- Files and their bytes, by the names of their paths, with the text that was printed **by way of
a device**. -/
structure Directory where
  files : List (List String × List UInt8)
  output : String := ""
  errors : String := ""
deriving DecidableEq, Repr

namespace Directory

def content? (d : Directory) (path : List String) : Option (List UInt8) :=
  d.files.lookup path

/-- Whether a file is below the path. -/
def isFolder (d : Directory) (path : List String) : Bool :=
  d.files.any fun (file, _) => path.isPrefixOf file && path != file

/-! ### Finding -/

/-- What a folder has under a name. -/
def entry? (d : Directory) (folder : Folder) (name : String) : Option Entry :=
  match folder with
  | .outside path => systemEntry? path name
  | .inside path =>
    match d.content? (path ++ [name]) with
    | some bytes => some (.file bytes)
    | none =>
      if d.isFolder (path ++ [name]) then some (.folder (.inside (path ++ [name]))) else none

/-- What a folder has under a name that is not too long. -/
def find (d : Directory) (folder : Folder) (name : String) : Except FileError (Option Entry) :=
  if nameLimit < name.utf8ByteSize then .error .nameTooLong else .ok (d.entry? folder name)

/-- The folder that a name leads to from another. -/
def enter (d : Directory) (folder : Folder) (name : String) : Except FileError Folder := do
  if name = "" || name = "." then return folder
  if name = ".." then return folder.parent
  match ← d.find folder name with
  | some (.folder inner) => return inner
  | some _ => throw .notDirectory
  | none => throw .missing

/-- The folder that names lead to. -/
def walk (d : Directory) (folder : Folder) (names : List String) : Except FileError Folder :=
  names.foldlM d.enter folder

example : walk ⟨[], "", ""⟩ (.inside []) ["..", "..", "..", "dev"] = .ok (.outside ["dev"]) := rfl

example : walk ⟨[(["a"], [])], "", ""⟩ (.inside []) ["a", ".."] = .error .notDirectory := rfl

/-! ### Reading -/

/-- The bytes of the file at a path. -/
def readBytes (d : Directory) (path : String) : Except FileError (List UInt8) := do
  let names ← namesOf path
  let name := names.getLast?.getD ""
  if isStep name then
    let _ ← d.walk (.start path) names
    throw .isDirectory
  match ← d.find (← d.walk (.start path) names.dropLast) name with
  | some (.file bytes) => return bytes
  | some (.device _) => return []
  | some (.folder _) => throw .isDirectory
  | none => throw .missing

/-- The text of the file at a path. -/
def readText (d : Directory) (path : String) : Except FileError String := do
  match String.fromUTF8? ⟨(← d.readBytes path).toArray⟩ with
  | some text => return text
  | none => throw .notText

/-! ### Writing -/

/-- The directory with a file at the names of a path, in place of one that was there. -/
def put (d : Directory) (path : List String) (bytes : List UInt8) : Directory :=
  { d with files := d.files.filter (fun (file, _) => file != path) ++ [(path, bytes)] }

/-- The directory after a text went to a device. -/
def send (d : Directory) (device : Device) (text : String) : Except FileError Directory :=
  match device with
  | .null => .ok d
  | .full => .error .noSpace
  | .output => .ok { d with output := d.output ++ text }
  | .errors => .ok { d with errors := d.errors ++ text }

/-- The directory with a text written in a folder; a file that is new outside **is not seen**. -/
def writeIn (d : Directory) (folder : Folder) (name text : String) :
    Except FileError Directory := do
  match ← d.find folder name with
  | some (.folder _) => throw .isDirectory
  | some (.device device) => d.send device text
  | _ =>
    match folder with
    | .outside _ => return d
    | .inside path => return d.put (path ++ [name]) text.toUTF8.toList

/-- The directory with a text written at a path.  A path that ends in a slash **cannot be made**. -/
def writeText (d : Directory) (path text : String) : Except FileError Directory := do
  let names ← namesOf path
  let trimmed := (names.reverse.dropWhile (· == "")).reverse
  let name := trimmed.getLast?.getD ""
  if isStep name then
    let _ ← d.walk (.start path) trimmed
    throw .isDirectory
  let folder ← d.walk (.start path) trimmed.dropLast
  if trimmed.length < names.length then throw .isDirectory
  d.writeIn folder name text

/-- The files of a directory. -/
def access : Files (StateM Directory) where
  read path := return (← get).readText path
  write path text := do
    match (← get).writeText path text with
    | .ok d =>
      set d
      return .ok ()
    | .error e => return .error e

end Directory

end StackCompiler.CommandLine
