import Backfill.Coordinator.Stream
import Backfill.Rehearsal.World
import Backfill.Run.Format

/-! Rehearsals: steps taken on a coordinator in a scripted world, one after the other. -/
namespace Backfill.Rehearsal

inductive Step where
  /-- Starts the coordinator, with a persisted run if there is a text of one. -/
  | start (restored : Option String)
  /-- Persists the run and starts a new coordinator from it. -/
  | restart
  | add (tables : List Table) (filters : TextMap String)
  | stop (tables : List Table)
  | pause
  | resume
  | apply (cmd : Command)
  /-- Puts a command in the coordinator's queue. -/
  | enqueue (cmd : Command)
  | process (e : Event)
  | flush (p : Partition) (o : Offset)
  | readChunk
  | act (a : Act)

inductive Reply where
  /-- A result; that of a start is the offset of the command applied last. -/
  | result (r : Except Failure (Option UInt64))
  /-- The coordinator accepts no commands. -/
  | noQueue
  /-- A loop did not end in time. -/
  | exhausted

/-- The reply to an action, and the session that it leaves. -/
def reply {α : Type} (offset : α → Option UInt64) (action : Procedure World α) (s : Session World) :
    Reply × Session World :=
  match action s with
  | .ok a s => (.result (.ok (offset a)), s)
  | .error (.failed f) s => (.result (.error f), s)
  | .error .exhausted s => (.exhausted, s)

def perform (action : Procedure World Unit) (s : Session World) : Reply × Session World :=
  reply (fun _ => none) action s

/-- The tables that a run, a command or both bring to a session. -/
def tableCount (s : Session World) : Nat :=
  let queued := (s.coordinator.run.map fun r => r.tables.length).getD 0
  let waiting := (s.coordinator.commands.map fun q => q.pending.flatMap Command.tables).getD []
  queued + waiting.length

def total (ns : List Nat) : Nat := ns.foldl (· + ·) 0

/-- A number of acts, and of sets of positions that they add. -/
def actCount (acts : List Act) : Nat :=
  total (acts.map fun
    | .addPositions ps => ps.length + 1
    | _ => 1)

/-- More rounds than a loop over a scripted world can take, if `tables` more tables are queued.
Every round uses up a row, a table, a set of positions or an act of a hook. -/
def roundLimit (s : Session World) (tables : Nat) : Nat :=
  let w := s.world
  let rows := total (w.tables.map fun t => t.rows.length)
  let events := w.positions.length + total (w.hooks.map actCount)
  (rows + events + 2) * (tableCount s + tables + 2)

def startFrom (s : Session World) : Option String → Reply × Session World
  | none => reply id (Session.start environment (roundLimit s 0) none) s
  | some text =>
    match Run.restore text with
    | .error f => (.result (.error f), s)
    | .ok r => reply id (Session.start environment (roundLimit s r.tables.length) (some r)) s

def renew (s : Session World) : Session World where
  coordinator :=
    { settings := s.coordinator.settings
      commands := s.coordinator.commands.map fun q => { capacity := q.capacity } }
  world := { s.world with interrupted := false }

def enqueue (s : Session World) (cmd : Command) : Reply × Session World :=
  match s.coordinator.commands with
  | none => (.noQueue, s)
  | some q =>
    match q.trySend cmd with
    | .error f => (.result (.error f), s)
    | .ok q =>
      (.result (.ok none), { s with coordinator := { s.coordinator with commands := some q } })

def step (s : Session World) : Step → Reply × Session World
  | .start restored => startFrom s restored
  | .restart => startFrom (renew s) (s.coordinator.run.map Run.persist)
  | .add tables filters =>
    perform (Session.addTables environment (roundLimit s tables.length) tables filters) s
  | .stop tables => perform (Session.stop environment tables) s
  | .pause => perform Session.pause s
  | .resume => perform (Session.resume environment (roundLimit s 0)) s
  | .apply cmd => perform (Session.apply environment (roundLimit s cmd.tables.length) cmd) s
  | .enqueue cmd => enqueue s cmd
  | .process e => perform (Session.process environment (roundLimit s 0) e) s
  | .flush p o => perform (Session.flushAndAdvance environment (roundLimit s 0) p o) s
  | .readChunk => perform (Session.readChunk environment (roundLimit s 0)) s
  | .act a => (.result (.ok none), { s with world := s.world.act a })

/-- What a step has shown: its reply, the calls and emissions it led to, and the coordinator that
it left. -/
structure Report where
  reply : Reply
  calls : List Call
  emissions : List Emission
  coordinator : Coordinator

def observe (s : Session World) (t : Step) : Report × Session World :=
  let (r, s) := step { s with world := { s.world with calls := [], emissions := [] } } t
  (⟨r, s.world.calls.reverse, s.world.emissions.reverse, s.coordinator⟩, s)

end Backfill.Rehearsal
