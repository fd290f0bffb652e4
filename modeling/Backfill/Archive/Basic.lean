import Backfill.Run.Format

/-! Where runs are kept between sessions: under keys, in memory. -/
namespace Backfill

/-- Whether a key may name a stored run. It becomes a file name, so it must not lead elsewhere. -/
def isArchiveKey (key : String) : Bool :=
  key ≠ "" && key ≠ ".." && !key.toList.contains '/' && !key.toList.contains '\\'

def checkArchiveKey (key : String) : Except Failure Unit :=
  if isArchiveKey key then .ok () else .error (.config ("invalid context key '" ++ key ++ "'"))

structure MemoryArchive where
  runs : TextMap Run := .empty

namespace MemoryArchive

def save (a : MemoryArchive) (key : String) (r : Run) : Except Failure Unit × MemoryArchive :=
  match checkArchiveKey key with
  | .error f => (.error f, a)
  | .ok () => (.ok (), ⟨a.runs.insert key r⟩)

def load (a : MemoryArchive) (key : String) : Except Failure (Option Run) :=
  (checkArchiveKey key).map fun _ => a.runs.get? key

def delete (a : MemoryArchive) (key : String) : Except Failure Unit × MemoryArchive :=
  match checkArchiveKey key with
  | .error f => (.error f, a)
  | .ok () => (.ok (), ⟨a.runs.erase key⟩)

def list (a : MemoryArchive) : List String := a.runs.keys

end MemoryArchive
end Backfill
