import Backfill.Failure
import Backfill.Text.Map

/-! A directory of files, and the steps by which its files are changed. -/
namespace Backfill

/-- What a name in a directory stands for. -/
inductive Entry where
  | file (content : ByteArray)
  | folder

structure Directory where
  entries : TextMap Entry := .empty

/-- A change of one file. Each is taken as a whole: it happens or it does not. -/
inductive FileStep where
  /-- Makes a file empty, and makes it if it is not there. -/
  | openTruncate (name : String)
  /-- Writes the content of a file. -/
  | write (name : String) (content : ByteArray)
  /-- Waits until a file is stored durably. -/
  | sync (name : String)
  /-- Gives a file another name; a file of that name is replaced. -/
  | rename (source target : String)

namespace Directory

def maxNameBytes : Nat := 255

/-- Whether a name stands for the directory itself or for the folder around it. -/
def isSurrounding (name : String) : Bool := name = "" || name = "." || name = ".."

/-- Refuses names that no file of the directory itself can have. -/
def checkName (name : String) : Except Failure Unit :=
  if isSurrounding name || name.toList.contains '/' then
    .error (.io .invalidName "no name of a file in the directory")
  else if name.toList.contains '\x00' then .error (.io .invalidName "file name holds a zero byte")
  else if maxNameBytes < name.utf8ByteSize then .error (.io .nameTooLong "file name too long")
  else .ok ()

def get? (d : Directory) (name : String) : Option Entry := d.entries.get? name

def has (d : Directory) (name : String) : Bool := (d.get? name).isSome

def isFolder (d : Directory) (name : String) : Bool :=
  match d.get? name with
  | some .folder => true
  | _ => false

def put (d : Directory) (name : String) (content : ByteArray) : Directory :=
  ⟨d.entries.insert name (.file content)⟩

def folderFailure : Failure := .io .isADirectory "is a directory"

def missingFailure : Failure := .io .notFound "no such file"

def checkTarget (d : Directory) (name : String) : Except Failure Unit := do
  checkName name
  if d.isFolder name then .error folderFailure else .ok ()

def readText (d : Directory) (name : String) : Except Failure String :=
  match d.get? name with
  | none => .error missingFailure
  | some .folder => .error folderFailure
  | some (.file content) =>
    match String.fromUTF8? content with
    | some s => .ok s
    | none => .error (.io .invalidData "stream did not contain valid UTF-8")

def remove (d : Directory) (name : String) : Except Failure Directory :=
  match d.get? name with
  | none => .error missingFailure
  | some .folder => .error folderFailure
  | some (.file _) => .ok ⟨d.entries.erase name⟩

def makeFolder (d : Directory) (name : String) : Except Failure Directory :=
  if isSurrounding name then .ok d
  else do
    checkName name
    match d.get? name with
    | some (.file _) => .error (.io .other "file exists")
    | _ => .ok ⟨d.entries.insert name .folder⟩

def step (d : Directory) : FileStep → Except Failure Directory
  | .openTruncate name => (d.checkTarget name).map fun _ => d.put name .empty
  | .write name content => .ok (d.put name content)
  | .sync _ => .ok d
  | .rename source target => do
    d.checkTarget target
    match d.get? source with
    | some (.file content) => .ok ⟨(d.entries.erase source).insert target (.file content)⟩
    | _ => .error missingFailure

/-- Which steps a storage medium fails to take, and with what failure. -/
abbrev Medium := FileStep → Option Failure

def soundMedium : Medium := fun _ => none

/-- Takes steps one after the other up to the first that fails. -/
def run (m : Medium) (d : Directory) : List FileStep → Except Failure Unit × Directory
  | [] => (.ok (), d)
  | s :: ss =>
    match m s with
    | some f => (.error f, d)
    | none =>
      match d.step s with
      | .error f => (.error f, d)
      | .ok d => run m d ss

end Directory
end Backfill
