import Backfill.Coordinator.Command
import Backfill.Coordinator.Flush

/-! Taking part in the change stream: each unit first moves the window, which may give rows to the
sink and read on; then a change is passed on itself. -/
namespace Backfill.Coordinator

/-- The coordinator without the buffered row that a change supersedes. Only changes of the current
table count. -/
def deduplicate (c : Coordinator) (change : Change) : Coordinator :=
  if c.currentTable = some change.table && c.buffer.holds change.key then
    { c with buffer := c.buffer.erase change.key }.count .rowDeduplicated
  else c

/-- Whether tables remain and a position has reached the end of the high watermark. -/
def isReachedBy (c : Coordinator) (position : Option Position) : Bool :=
  c.run.any fun r => r.isRunning && r.watermarks.isReached position

end Backfill.Coordinator

namespace Backfill.Session
open Procedure
variable {σ : Type} (env : Environment σ)

def passOn (e : Event) (c : Change) : Procedure σ Unit :=
  call (env.emit ⟨e.partition, c.table, c.record, e.offset⟩)

/-- Moves the window to the position of a unit. If the window closes, its rows are sent and the
next chunk is read. The answer is what the position asked for. -/
def updateWindow (rounds : Nat) (e : Event) : Procedure σ Transition := do
  match (← current).run with
  | none => return ⟨.closed, []⟩
  | some r =>
    let now ← now env
    let t := r.transition e.position
    updateRun fun r => r.advance now e.position
    if t.closes then
      count .windowClosed
      flushAndAdvance env rounds e.partition e.offset
    return t

/-- Moves the window to the position of a change, which supersedes a buffered row if it falls
within the window. -/
def windowChange (rounds : Nat) (e : Event) (change : Change) : Procedure σ Unit := do
  let t ← updateWindow env rounds e
  if !t.closes && t.deduplicates then update fun c => c.deduplicate change

/-- Closes one window after the other as long as the position of a unit has reached it, at most
`windows` times. -/
def advance (rounds : Nat) (e : Event) : (windows : Nat) → Procedure σ Unit
  | 0 => do
    if (← current).isReachedBy e.position then throw .exhausted
  | windows + 1 => do
    if (← current).isReachedBy e.position then
      let now ← now env
      updateRun fun r => r.closeWindow now
      count .windowClosed
      flushAndAdvance env rounds e.partition e.offset
      advance rounds e windows

/-- Takes a unit of the stream. Before the coordinator is started, changes only pass. -/
def process (rounds : Nat) (e : Event) : Procedure σ Unit := do
  if (← current).run.isNone then
    match e.kind with
    | .change c => passOn env e c
    | _ => return
  else
    applyPending env rounds
    match e.kind with
    | .change c =>
      windowChange env rounds e c
      passOn env e c
    | .filtered _ | .begin => discard (updateWindow env rounds e)
    | .heartbeat | .commit =>
      discard (updateWindow env rounds e)
      advance env rounds e rounds

/-- Starts the coordinator, with a new run or with one that is taken up again, whose chunk in
progress is read at once. The answer is the offset of the command applied last. -/
def start (rounds : Nat) (restored : Option Run) : Procedure σ (Option UInt64) := do
  let version ← call env.serverVersion
  match (← current).settings.checkServerVersion version with
  | .error f => fail f
  | .ok () =>
    let _ ← call env.executedPositions
    let now ← now env
    let token := env.freshToken (← get).world
    let run := match restored with
      | some r => r.prepareResume now
      | none => Run.fresh token now
    update fun c => { c.dropWindow with run := some run }
    if restored.isSome && run.isRunning && !run.paused then readChunk env rounds
    return run.commandOffset

end Backfill.Session
