import Backfill.Coordinator.Basic

/-! Reading chunks. The executed positions are captured before a chunk is read, the low watermark,
and again after it was read; what is new is the high watermark. A high watermark over several
sources cannot be placed in the stream of one source, so such a chunk is read again. -/
namespace Backfill.Coordinator

def chunkQuery (c : Coordinator) (t : Table) : ChunkQuery where
  table := t
  after := c.run.bind fun r => r.chunk.stop
  upTo := c.run.bind fun r => r.chunk.maximum
  limit := c.settings.chunkSize.toNat
  filter := c.run.bind Run.currentFilter

def bufferRows (c : Coordinator) (t : Table) (rows : List Row) : Coordinator :=
  let buffer := c.buffer.insertAll rows
  { c with
    buffer
    bufferTable := some t
    run := match buffer.lastKey? with
      | some k => c.run.map fun r => r.chunkEndsAt k
      | none => c.run
    statistics := c.statistics.chunkRead (UInt64.ofNat rows.length) }

end Backfill.Coordinator

namespace Backfill.Session
open Procedure
variable {σ : Type} (env : Environment σ)

/-- Captures the low watermark and begins the transaction in which the chunk is read. -/
def openWindow : Procedure σ Unit := do
  let low ← call env.executedPositions
  call env.commit
  call env.beginRead
  updateRun fun r => r.setLow low
  count .windowOpened

/-- Takes the current table off the queue, since it has no rows left. -/
def finishTable : Procedure σ Unit := do
  let now ← now env
  updateRun fun r => r.nextTable now
  count .tableCompleted

/-- Finds out the largest key of the current table, unless it is known. The answer is whether the
table has one. -/
def findMaximum (t : Table) : Procedure σ Bool := do
  if (← current).run.any fun r => r.chunk.maximum.isSome then return true
  match ← call (env.maximumKey t) with
  | some k =>
    updateRun fun r => r.setMaximum k
    return true
  | none => return false

/-- Reads a chunk of the first of the queued tables that still has rows. The tables before it are
finished. -/
def fillFrom : List Table → Procedure σ Unit
  | [] => checkInterrupted env
  | t :: ts => do
    checkInterrupted env
    if ← findMaximum env t then
      let query := (← current).chunkQuery t
      match ← call (env.rangeQuery query) with
      | [] =>
        finishTable env
        fillFrom ts
      | row :: rows => update fun c => c.bufferRows t (row :: rows)
    else
      finishTable env
      fillFrom ts

def fillBuffer : Procedure σ Unit := do
  fillFrom env (((← current).run.map Run.tables).getD [])

/-- Captures the high watermark; if no table is left, the window ends at once. The answer is
whether the chunk was discarded and has to be read again. -/
def closeChunk : Procedure σ Bool := do
  if (← current).isRunning then
    let executed ← call env.executedPositions
    updateRun fun r => r.setHigh executed
    let c ← current
    if c.run.any (fun r => r.watermarks.isAmbiguous) && !c.buffer.isEmpty then
      update fun c => (c.dropRows.updateRun Run.revertChunk).count .chunkReread
      return true
    else return false
  else
    let now ← now env
    updateRun fun r => r.closeWindow now
    return false

def readOnce : Procedure σ Bool := do
  call env.commit
  let now ← now env
  updateRun fun r => r.startChunk now
  openWindow env
  fillBuffer env
  closeChunk env

/-- Reads the next chunk if a run is in progress and not paused, again as often as the high
watermark is ambiguous, but at most `rounds` times. -/
def readChunk : Nat → Procedure σ Unit
  | 0 => do
    checkInterrupted env
    if (← current).mayRead then throw .exhausted
  | rounds + 1 => do
    checkInterrupted env
    if (← current).mayRead then
      if ← readOnce env then readChunk rounds

end Backfill.Session
