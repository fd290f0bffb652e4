import Backfill.Row.Basic
import Backfill.Window.Watermarks

/-! The state of one incremental snapshot: the tables still to be read, how far the reading of the
first of them has come, and the window of the chunk in progress. The buffered rows are not part of
it, so that a run that is taken up again reads its last chunk once more. -/
namespace Backfill

/-- How far the reading of the current table has come. -/
structure ChunkProgress where
  /-- The number of chunks started for the table. -/
  sequence : UInt64 := 0
  /-- The key after which the chunk in progress was read. -/
  start : Option Key := none
  /-- The last key that was read; the next chunk comes after it. -/
  stop : Option Key := none
  /-- The largest key when the table's first chunk was read. -/
  maximum : Option Key := none
  /-- The last key given to the sink. -/
  lastSent : Option Key := none
deriving DecidableEq, Repr

/-- The state of an incremental snapshot. Times are milliseconds since 1970. -/
structure Run where
  id : String
  /-- The tables to be read; the first one is current. -/
  tables : List Table := []
  /-- The additional filter of a table, under the table's text. -/
  filters : TextMap String := .empty
  chunk : ChunkProgress := {}
  mode : WindowMode := .closed
  watermarks : Watermarks := {}
  /-- The offset of the control command applied last. -/
  commandOffset : Option UInt64 := none
  paused : Bool := false
  startedAt : Int64
  lastActivity : Int64
deriving DecidableEq

namespace Run

/-- A run without tables, from a token that tells it from other runs and the present time. -/
def fresh (token : String) (now : Int64) : Run :=
  { id := "incr-snap-" ++ token, startedAt := now, lastActivity := now }

def isRunning (r : Run) : Bool := !r.tables.isEmpty

/-- Whether no table remains and no window is pending. -/
def isFinished (r : Run) : Bool :=
  !r.isRunning && r.mode = .closed && r.watermarks.high.isNone

def currentTable (r : Run) : Option Table := r.tables.head?

def currentFilter (r : Run) : Option String :=
  r.currentTable.bind fun t => r.filters.get? t.text

def touch (r : Run) (now : Int64) : Run := { r with lastActivity := now }

/-- Queues a table with its filter, unless it is queued already. -/
def enqueue (filters : TextMap String) (r : Run) (t : Table) : Run :=
  if t ∈ r.tables then r
  else
    { r with
      tables := r.tables ++ [t]
      filters := match filters.get? t.text with
        | some filter => r.filters.insert t.text filter
        | none => r.filters }

/-- Queues tables with their filters; those queued already are skipped. -/
def addTables (r : Run) (now : Int64) (tables : List Table) (filters : TextMap String) : Run :=
  (tables.foldl (enqueue filters) r).touch now

/-- The tables at the end of `s` that `r`, from which `s` came by queueing, does not have. -/
def addedTo (r s : Run) : List Table := s.tables.drop r.tables.length

def isCurrentIn (r : Run) (tables : List Table) : Bool := r.currentTable.any (· ∈ tables)

/-- Takes tables off the queue. If the current one is among them, the next one starts anew; the
window stays as it is. -/
def removeTables (r : Run) (now : Int64) (tables : List Table) : Run :=
  let r' : Run :=
    { r with
      tables := r.tables.filter fun t => t ∉ tables
      filters := tables.foldl (fun m t => m.erase t.text) r.filters
      chunk := if r.isCurrentIn tables then {} else r.chunk }
  r'.touch now

def clearTables (r : Run) (now : Int64) : Run :=
  let r' : Run := { r with tables := [], filters := .empty, chunk := {} }
  r'.touch now

/-- Takes the current table off the queue; the next one starts anew. -/
def nextTable (r : Run) (now : Int64) : Run :=
  let r' : Run :=
    { r with
      tables := r.tables.tail
      filters := match r.currentTable with
        | some t => r.filters.erase t.text
        | none => r.filters
      chunk := {} }
  r'.touch now

def startChunk (r : Run) (now : Int64) : Run :=
  let r' : Run :=
    { r with chunk := { r.chunk with start := r.chunk.stop, sequence := r.chunk.sequence + 1 } }
  r'.touch now

def chunkEndsAt (r : Run) (k : Key) : Run := { r with chunk := { r.chunk with stop := some k } }

def revertChunk (r : Run) : Run :=
  { r with chunk := { r.chunk with stop := r.chunk.start }, mode := .closed }

def setMaximum (r : Run) (k : Key) : Run := { r with chunk := { r.chunk with maximum := some k } }

def recordSent (r : Run) (k : Key) : Run := { r with chunk := { r.chunk with lastSent := some k } }

/-- Captures the low watermark; the high watermark of the chunk is still to come. -/
def setLow (r : Run) (executed : PositionSet) : Run :=
  { r with watermarks := { low := some executed, high := none } }

/-- Captures the high watermark: what was executed since the low watermark. -/
def setHigh (r : Run) (executed : PositionSet) : Run :=
  let high := match r.watermarks.low with
    | some low => executed.subtract low
    | none => executed
  { r with watermarks := { r.watermarks with high := some high } }

/-- Ends the window; its watermarks are spent. -/
def closeWindow (r : Run) (now : Int64) : Run :=
  let r' : Run := { r with mode := .closed, watermarks := {} }
  r'.touch now

def transition (r : Run) (position : Option Position) : Transition :=
  r.watermarks.transition r.mode position

/-- Takes the window to where a position of the stream moves it. -/
def advance (r : Run) (now : Int64) (position : Option Position) : Run :=
  let t := r.transition position
  if t.closes then r.closeWindow now else { r with mode := t.mode }

/-- Whether changes have to be compared with the buffered rows. -/
def isDeduplicating (r : Run) : Bool := r.mode = .opened

/-- Makes a persisted run ready to go on: its rows were not persisted, so that the chunk in
progress is read again with fresh watermarks. -/
def prepareResume (r : Run) (now : Int64) : Run := r.revertChunk.closeWindow now

end Run
end Backfill
