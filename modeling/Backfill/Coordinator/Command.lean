import Backfill.Coordinator.Chunk

/-! Control of a snapshot: which tables are read, and whether chunks are read at all. -/
namespace Backfill.Coordinator

/-- Takes tables off the queue, or all tables if none are named. The rows of the current table are
dropped with it; a pending window then closes on its own and leads to the next table. -/
def stopTables (c : Coordinator) (now : Int64) (tables : List Table) : Coordinator :=
  match c.run with
  | none => c
  | some r =>
    if !r.isRunning then c
    else if tables.isEmpty then
      { c.dropWindow with run := some ((r.clearTables now).closeWindow now) }
    else if r.isCurrentIn tables then
      { c.dropWindow with run := some (r.removeTables now tables) }
    else { c with run := some (r.removeTables now tables) }

end Backfill.Coordinator

namespace Backfill.Session
open Procedure
variable {σ : Type} (env : Environment σ)

/-- Queues tables with their filters. If no run is in progress, one begins with its first chunk. -/
def addTables (rounds : Nat) (tables : List Table) (filters : TextMap String) : Procedure σ Unit := do
  match (← current).run with
  | none => fail (.invalidState "snapshot context not initialized")
  | some r =>
    let now ← now env
    let added := r.addTables now tables filters
    updateRun fun _ => added
    if !r.isRunning && added.isRunning then readChunk env rounds

def stop (tables : List Table) : Procedure σ Unit := do
  let now ← now env
  update fun c => c.stopTables now tables

def pause : Procedure σ Unit := updateRun fun r => { r with paused := true }

/-- Goes on after a pause; a chunk is read unless a window is pending. -/
def resume (rounds : Nat) : Procedure σ Unit := do
  match (← current).run with
  | none => return
  | some r =>
    if r.paused then
      updateRun fun r => { r with paused := false }
      if r.watermarks.high.isNone then readChunk env rounds

def apply (rounds : Nat) (cmd : Command) : Procedure σ Unit := do
  match cmd.action with
  | .execute => addTables env rounds cmd.tables cmd.filters
  | .stop => stop env cmd.tables
  | .pause => pause
  | .resume => resume env rounds
  updateRun fun r => { r with commandOffset := some cmd.offset }
  count .signalApplied

def applyAll (rounds : Nat) : List Command → Procedure σ Unit
  | [] => return
  | cmd :: cmds => do
    apply env rounds cmd
    applyAll rounds cmds

def applyPending (rounds : Nat) : Procedure σ Unit := do
  match (← current).commands with
  | none => return
  | some q =>
    update fun c => { c with commands := some q.drained }
    applyAll env rounds q.pending

end Backfill.Session
