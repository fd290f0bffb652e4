import Backfill.Command.Queue
import Backfill.Run.Basic
import Backfill.Settings
import Backfill.Statistics
import Backfill.Stream.Event
import Backfill.Window.Buffer

/-! A coordinator of an incremental snapshot and the world it works in. The world is a state of any
type; calls of the store and the sink read and change it. An action on a coordinator may stop with
a failure at any call, and what was done up to there stays done. -/
namespace Backfill

/-- The query for the rows of one chunk, in ascending order of their keys. -/
structure ChunkQuery where
  table : Table
  /-- The key after which rows are asked for. -/
  after : Option Key
  /-- The largest key asked for. -/
  upTo : Option Key
  /-- The largest number of rows. -/
  limit : Nat
  /-- An additional filter for the rows. -/
  filter : Option String
deriving DecidableEq, Repr

/-- A record on its way to the sink. -/
structure Emission where
  partition : Partition
  table : Table
  record : Record
  offset : Offset

/-- The calls that connect a coordinator with the world. -/
structure Environment (σ : Type) where
  /-- The version of the server. -/
  serverVersion : σ → Except Failure String × σ
  /-- The positions executed so far. -/
  executedPositions : σ → Except Failure PositionSet × σ
  /-- Begins the transaction in which chunks are read. -/
  beginRead : σ → Except Failure Unit × σ
  /-- Ends the transaction, so that later reads see all that was executed. -/
  commit : σ → Except Failure Unit × σ
  /-- The largest key of a table. -/
  maximumKey : Table → σ → Except Failure (Option Key) × σ
  /-- The rows of a chunk. -/
  rangeQuery : ChunkQuery → σ → Except Failure (List Row) × σ
  /-- Gives a record to the sink. -/
  emit : Emission → σ → Except Failure Unit × σ
  /-- Whether the coordinator is asked to stop. -/
  isInterrupted : σ → Bool
  /-- The present time in milliseconds since 1970. -/
  now : σ → Int64
  /-- A token for the name of a new run. -/
  freshToken : σ → String

/-- A coordinator. It has no run before it is started. -/
structure Coordinator where
  settings : Settings
  run : Option Run := none
  /-- The rows of the chunk in progress. -/
  buffer : RowBuffer := .empty
  /-- The table from which the buffered rows were read. -/
  bufferTable : Option Table := none
  /-- The commands that wait to be applied, if commands are accepted. -/
  commands : Option CommandQueue := none
  statistics : Statistics := {}

structure Session (σ : Type) where
  coordinator : Coordinator
  world : σ

/-- Why an action has no result. -/
inductive Stop where
  | failed (f : Failure)
  /-- A loop has not ended within the number of rounds it was given. -/
  | exhausted
deriving DecidableEq, Repr

/-- An action on a session. The session it leaves is known also if it stops. -/
abbrev Procedure (σ α : Type) := EStateM Stop (Session σ) α

namespace Coordinator
variable {σ α : Type}

/-- Whether a run is in progress and a chunk of it may be read. -/
def mayRead (c : Coordinator) : Bool := c.run.any fun r => r.isRunning && !r.paused

def isRunning (c : Coordinator) : Bool := c.run.any Run.isRunning

def currentTable (c : Coordinator) : Option Table := c.run.bind Run.currentTable

def updateRun (c : Coordinator) (f : Run → Run) : Coordinator := { c with run := c.run.map f }

def dropRows (c : Coordinator) : Coordinator := { c with buffer := .empty }

/-- The coordinator without buffered rows and without a table for them. -/
def dropWindow (c : Coordinator) : Coordinator :=
  { c with buffer := .empty, bufferTable := none }

def count (c : Coordinator) (f : Statistics → Statistics) : Coordinator :=
  { c with statistics := f c.statistics }

end Coordinator

namespace Procedure
variable {σ α : Type}

def current : Procedure σ Coordinator := return (← get).coordinator

def update (f : Coordinator → Coordinator) : Procedure σ Unit :=
  modify fun s => { s with coordinator := f s.coordinator }

def updateRun (f : Run → Run) : Procedure σ Unit := update fun c => c.updateRun f

def count (f : Statistics → Statistics) : Procedure σ Unit := update fun c => c.count f

def fail (f : Failure) : Procedure σ α := throw (.failed f)

def call (f : σ → Except Failure α × σ) : Procedure σ α := fun s =>
  match f s.world with
  | (.ok a, w) => .ok a { s with world := w }
  | (.error e, w) => .error (.failed e) { s with world := w }

def now (env : Environment σ) : Procedure σ Int64 := return env.now (← get).world

def checkInterrupted (env : Environment σ) : Procedure σ Unit := do
  if env.isInterrupted (← get).world then fail .interrupted

end Procedure
end Backfill
