import Backfill.Archive.Basic
import Backfill.Archive.Directory

/-! Runs kept as files of a directory, one file a key. A run is written to a temporary file first,
which then takes the place of the old one, so that a file never holds half a run. -/
namespace Backfill

/-- The runs of a directory, together with those known already. -/
structure FileArchive where
  directory : Directory
  /-- The runs that were loaded or saved. -/
  known : TextMap Run := .empty
  /-- Whether a saved run is stored durably before it takes its place. -/
  durable : Bool := true

namespace FileArchive

def fileName (key : String) : String := key ++ ".json"

/-- The temporary file of a key. That of the key `.` is `..`, the folder around the directory, which
no run can be written to; so nothing is ever saved under that key. -/
def draftName (key : String) : String := if key = "." then ".." else key ++ ".tmp"

def keyOf? (name : String) : Option String :=
  match Text.cutLast '.' name.toList with
  | some (c :: key, ['j', 's', 'o', 'n']) => some (String.ofList (c :: key))
  | _ => none

/-- The steps by which a text takes the place of a key's file. -/
def saveSteps (durable : Bool) (key : String) (content : ByteArray) : List FileStep :=
  [.openTruncate (draftName key), .write (draftName key) content]
    ++ (if durable then [.sync (draftName key)] else [])
    ++ [.rename (draftName key) (fileName key)]

/-- Keeps a run under a key, on a medium that may fail. -/
def saveOn (m : Directory.Medium) (a : FileArchive) (key : String) (r : Run) :
    Except Failure Unit × FileArchive :=
  match checkArchiveKey key with
  | .error f => (.error f, a)
  | .ok () =>
    match a.directory.run m (saveSteps a.durable key (Json.renderPretty r).toUTF8) with
    | (.error f, d) => (.error f, { a with directory := d })
    | (.ok (), d) => (.ok (), { a with directory := d, known := a.known.insert key r })

def save (a : FileArchive) (key : String) (r : Run) : Except Failure Unit × FileArchive :=
  a.saveOn Directory.soundMedium key r

def unreadable (key : String) : Failure := .serialization ("context '" ++ key ++ "'")

def readRun (d : Directory) (key : String) : Except Failure Run := do
  let text ← d.readText (fileName key)
  match Run.restore text with
  | .ok r => .ok r
  | .error _ => .error (unreadable key)

/-- The run under a key: the known one, or else the one in the key's file. -/
def load (a : FileArchive) (key : String) : Except Failure (Option Run) × FileArchive :=
  match checkArchiveKey key with
  | .error f => (.error f, a)
  | .ok () =>
    match a.known.get? key with
    | some r => (.ok (some r), a)
    | none =>
      if a.directory.has (fileName key) then
        match readRun a.directory key with
        | .error f => (.error f, a)
        | .ok r => (.ok (some r), { a with known := a.known.insert key r })
      else (.ok none, a)

def delete (a : FileArchive) (key : String) : Except Failure Unit × FileArchive :=
  match checkArchiveKey key with
  | .error f => (.error f, a)
  | .ok () =>
    let removed :=
      if a.directory.has (fileName key) then a.directory.remove (fileName key)
      else .ok a.directory
    match removed with
    | .error f => (.error f, a)
    | .ok d => (.ok (), { a with directory := d, known := a.known.erase key })

def list (a : FileArchive) : List String := a.known.keys

/-- Learns the run in a file; files that hold none are passed over. -/
def learn (a : FileArchive) (name : String) : FileArchive :=
  match keyOf? name with
  | some key => (a.load key).2
  | none => a

def ofDirectory (d : Directory) (durable : Bool) : FileArchive :=
  d.entries.keys.foldl learn ⟨d, .empty, durable⟩

end FileArchive
end Backfill
