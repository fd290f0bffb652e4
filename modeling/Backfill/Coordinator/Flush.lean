import Backfill.Coordinator.Chunk

/-! Giving the buffered rows to the sink when their window has closed, and reading on. -/
namespace Backfill.Coordinator

def tableOfBuffer (c : Coordinator) : Option Table := c.bufferTable <|> c.currentTable

end Backfill.Coordinator

namespace Backfill.Session
open Procedure
variable {σ : Type} (env : Environment σ)

def emitRows (p : Partition) (t : Table) (o : Offset) : List Row → Procedure σ Unit
  | [] => return ()
  | row :: rows => do
    call (env.emit ⟨p, t, row.record, o⟩)
    updateRun fun r => r.recordSent row.key
    emitRows p t o rows

def sendBuffer (p : Partition) (o : Offset) : Procedure σ Unit := do
  checkInterrupted env
  let c ← current
  if c.buffer.isEmpty then return
  update Coordinator.dropRows
  match c.tableOfBuffer with
  | none => return
  | some t =>
    emitRows env p t o.forSnapshot c.buffer.rows
    count fun s => s.rowsSent (UInt64.ofNat c.buffer.size)

/-- Gives the buffered rows to the sink, then reads the next chunk. -/
def flushAndAdvance (rounds : Nat) (p : Partition) (o : Offset) : Procedure σ Unit := do
  sendBuffer env p o
  readChunk env rounds

end Backfill.Session
