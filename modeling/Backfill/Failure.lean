import Backfill.Text.Pieces

/-! What can end an operation without a result: the failures, their wording, their codes, and
what retry and alerting rules need to know about them. -/
namespace Backfill

/-- The kinds of input and output failures that callers tell apart. -/
inductive IoKind where
  | connectionReset
  | connectionAborted
  | connectionRefused
  | timedOut
  | interrupted
  | wouldBlock
  | notFound
  | permissionDenied
  | isADirectory
  | nameTooLong
  | invalidName
  | invalidData
  | other
deriving DecidableEq, Repr

/-- The groups under which failures are counted for alerting. -/
inductive FailureCategory where
  | store
  | position
  | signal
  | configuration
  | serialization
  | cancellation
  | other
deriving DecidableEq, Repr

/-- Why an operation failed. The texts say what was at fault. -/
inductive Failure where
  /-- A query of the data store or the delivery of a record failed. -/
  | dataAccess (what : String)
  /-- The server is older than the `required` version. -/
  | unsupportedVersion (required actual : String)
  /-- A text is no position, or no set of positions. -/
  | invalidPosition (what : String)
  /-- A control command is malformed or cannot be queued. -/
  | signal (what : String)
  /-- A setting or a server version is malformed. -/
  | config (what : String)
  /-- A stored run cannot be read back. -/
  | serialization (what : String)
  /-- A text is no JSON document of the wanted form. -/
  | json
  /-- The file system or a connection failed. -/
  | io (kind : IoKind) (what : String)
  /-- The operation was asked to stop. -/
  | interrupted
  /-- The operation does not apply yet. -/
  | invalidState (what : String)
  /-- Any other failure. -/
  | other (what : String)
deriving DecidableEq, Repr

namespace Failure

def message : Failure → String
  | .dataAccess what => "Data access error: " ++ what
  | .unsupportedVersion required actual =>
    "Server version " ++ actual ++ " does not expose executed position sets (requires "
      ++ required ++ " or later)"
  | .invalidPosition what => "Invalid position: " ++ what
  | .signal what => "Signal error: " ++ what
  | .config what => "Configuration error: " ++ what
  | .serialization what => "Serialization error: " ++ what
  | .json => "JSON error: unexpected form"
  | .io _ what => "IO error: " ++ what
  | .interrupted => "Snapshot interrupted"
  | .invalidState what => "Invalid state: " ++ what
  | .other what => what

/-- A short name of the failure's kind, safe to use as a metric label. -/
def code : Failure → String
  | .dataAccess _ => "data_access_error"
  | .unsupportedVersion .. => "unsupported_version"
  | .invalidPosition _ => "invalid_position"
  | .signal _ => "signal_error"
  | .config _ => "config_error"
  | .serialization _ => "serialization_error"
  | .json => "json_error"
  | .io .. => "io_error"
  | .interrupted => "interrupted"
  | .invalidState _ => "invalid_state"
  | .other _ => "unknown"

def category : Failure → FailureCategory
  | .dataAccess _ => .store
  | .unsupportedVersion .. => .configuration
  | .invalidPosition _ => .position
  | .signal _ => .signal
  | .config _ => .configuration
  | .serialization _ => .serialization
  | .json => .serialization
  | .io .. => .store
  | .interrupted => .cancellation
  | .invalidState _ => .other
  | .other _ => .other

/-- Phrases by which a data store reports a passing disturbance. -/
def passingPhrases : List String := ["Lost connection", "Deadlock", "Lock wait timeout"]

def isRetriable : Failure → Bool
  | .io kind _ =>
    kind = .connectionReset || kind = .connectionAborted || kind = .timedOut || kind = .interrupted
  | .dataAccess what => passingPhrases.any fun p => Text.occurs p.toList what.toList
  | _ => false

def isInterrupted (f : Failure) : Bool := f = .interrupted

end Failure
end Backfill
