import Backfill.Coordinator.Basic

/-! A scripted world: tables in memory, a script of executed positions, failures planned ahead, and
acts that happen right after a query. It keeps a log of the calls and of the records it was given,
so that a coordinator can be rehearsed without a database. -/
namespace Backfill.Rehearsal

inductive CallKind where
  | version
  | positions
  | beginRead
  | commit
  | maximum
  | query
  | emit
deriving DecidableEq, Repr

/-- A call of the store, as the log shows it. -/
inductive Call where
  | version
  | positions
  | beginRead
  | commit
  | maximum (t : Table)
  | query (q : ChunkQuery)

def Call.kind : Call → CallKind
  | .version => .version
  | .positions => .positions
  | .beginRead => .beginRead
  | .commit => .commit
  | .maximum _ => .maximum
  | .query _ => .query

/-- A failure that happens once, when calls of its kind were let pass `delay` times. -/
structure PlannedFailure where
  kind : CallKind
  delay : Nat
  failure : Failure

/-- A table of the store, with its largest key if that is not the key of the last row. -/
structure StoredTable where
  table : Table
  rows : List Row
  maximum : Option Key := none

/-- A change of the world that no call makes. -/
inductive Act where
  | addPositions (ps : List PositionSet)
  | setVersion (v : String)
  | interrupt (on : Bool)
  | put (t : Table) (row : Row)
  | remove (t : Table) (k : Key)
  | plan (f : PlannedFailure)

/-- A scripted world. The log and the emissions are kept last first. -/
structure World where
  version : String := "8.0.34-log"
  /-- The sets of executed positions still to come. -/
  positions : List PositionSet := []
  /-- The set that was reported last; it is repeated when no other is to come. -/
  reported : PositionSet := .empty
  tables : List StoredTable := []
  /-- What happens after each of the next queries. -/
  hooks : List (List Act) := []
  failures : List PlannedFailure := []
  interrupted : Bool := false
  /-- What tells the new runs of this world from runs of other worlds. -/
  token : String := "rehearsal"
  calls : List Call := []
  emissions : List Emission := []

def replaceRow (row : Row) : List Row → List Row
  | [] => []
  | r :: rs => if r.key = row.key then row :: rs else r :: replaceRow row rs

def placeRow (row : Row) : List Row → List Row
  | [] => [row]
  | r :: rs => if row.key < r.key then row :: r :: rs else r :: placeRow row rs

/-- Puts a row in the place of one with its key, or before the first one with a greater key. -/
def putRow (row : Row) (rs : List Row) : List Row :=
  if rs.any fun r => r.key = row.key then replaceRow row rs else placeRow row rs

/-- Changes the rows of the first table of a name; a missing one is made if `create` holds. -/
def changeRows (t : Table) (create : Bool) (f : List Row → List Row) :
    List StoredTable → List StoredTable
  | [] => if create then [⟨t, f [], none⟩] else []
  | s :: ss =>
    if s.table = t then { s with rows := f s.rows } :: ss else s :: changeRows t create f ss

/-- Looks at the planned failures of a kind in their order. The first one whose delay is over
happens and is removed; those before it come one call nearer. -/
def strike (kind : CallKind) : List PlannedFailure → Option Failure × List PlannedFailure
  | [] => (none, [])
  | p :: ps =>
    if p.kind = kind then
      match p.delay with
      | 0 => (some p.failure, ps)
      | n + 1 =>
        let (f, ps) := strike kind ps
        (f, { p with delay := n } :: ps)
    else
      let (f, ps) := strike kind ps
      (f, p :: ps)

namespace World

def act (w : World) : Act → World
  | .addPositions ps => { w with positions := w.positions ++ ps }
  | .setVersion v => { w with version := v }
  | .interrupt on => { w with interrupted := on }
  | .put t row => { w with tables := changeRows t true (putRow row) w.tables }
  | .remove t k =>
    { w with tables := changeRows t false (fun rs => rs.filter fun r => r.key ≠ k) w.tables }
  | .plan f => { w with failures := w.failures ++ [f] }

def table? (w : World) (t : Table) : Option StoredTable := w.tables.find? fun s => s.table = t

/-- A call that fails if a failure was planned for it, and else happens. -/
def attempt {α : Type} (kind : CallKind) (f : World → α × World) (w : World) :
    Except Failure α × World :=
  let (planned, rest) := strike kind w.failures
  let w : World := { w with failures := rest }
  match planned with
  | some e => (.error e, w)
  | none =>
    let (a, w) := f w
    (.ok a, w)

/-- A call of the store. It is logged whether it fails or not. -/
def ask {α : Type} (c : Call) (f : World → α × World) (w : World) : Except Failure α × World :=
  attempt c.kind f { w with calls := c :: w.calls }

/-- Reports the next set of executed positions, or the last one again. -/
def report (w : World) : PositionSet × World :=
  match w.positions with
  | [] => (w.reported, w)
  | p :: ps => (p, { w with positions := ps, reported := p })

def maximum (w : World) (t : Table) : Option Key :=
  (w.table? t).bind fun s => s.maximum <|> s.rows.getLast?.map Row.key

/-- Whether a key is one that a query asks for. -/
def isAsked (q : ChunkQuery) (k : Key) : Bool :=
  q.after.all (fun a => a < k) && q.upTo.all fun m => !(m < k)

/-- The rows that a query returns, in the order in which they are stored. -/
def select (w : World) (q : ChunkQuery) : List Row :=
  (((w.table? q.table).map StoredTable.rows).getD [] |>.filter fun r => isAsked q r.key).take q.limit

def follow (w : World) : World :=
  match w.hooks with
  | [] => w
  | acts :: hooks => acts.foldl act { w with hooks }

end World

def environment : Environment World where
  serverVersion := World.ask .version fun w => (w.version, w)
  executedPositions := World.ask .positions World.report
  beginRead := World.ask .beginRead fun w => ((), w)
  commit := World.ask .commit fun w => ((), w)
  maximumKey t := World.ask (.maximum t) fun w => (w.maximum t, w)
  rangeQuery q := World.ask (.query q) fun w => (w.select q, w.follow)
  emit e := World.attempt .emit fun w => ((), { w with emissions := e :: w.emissions })
  isInterrupted w := w.interrupted
  now _ := 0
  freshToken w := w.token

end Backfill.Rehearsal
