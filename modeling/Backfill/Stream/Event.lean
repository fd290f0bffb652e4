import Backfill.Position.Format
import Backfill.Row.Basic

/-! The units of a change stream, in commit order, each with the position of its transaction. -/
namespace Backfill
open Json (Format Fields)

/-- The part of the stream that a unit was read from. -/
structure Partition where
  server : String
deriving DecidableEq, Repr

/-- Where in the stream a unit or a record belongs. -/
structure Offset where
  /-- The transaction in progress; none before the first one. -/
  position : Option Position := none
  /-- Whether the record was read by the snapshot and not from the stream. -/
  fromSnapshot : Bool := false
deriving DecidableEq, Repr

/-- The offset of snapshot records that are emitted at `o`. -/
def Offset.forSnapshot (o : Offset) : Offset := ⟨o.position, true⟩

inductive Event.Kind where
  /-- A row of a captured table changed. -/
  | change (c : Change)
  /-- A row of a table that is not captured changed. -/
  | filtered (t : Table)
  /-- The stream has reached a position. -/
  | heartbeat
  /-- A transaction began. -/
  | begin
  /-- A transaction was committed. -/
  | commit

structure Event where
  partition : Partition
  offset : Offset
  kind : Event.Kind

namespace Event

def position (e : Event) : Option Position := e.offset.position

def Kind.label : Kind → String
  | .change _ => "data_change"
  | .filtered _ => "filtered"
  | .heartbeat => "heartbeat"
  | .begin => "transaction_started"
  | .commit => "transaction_committed"

/-- The record of a unit that is passed on to the sink. -/
def record? (e : Event) : Option Record :=
  match e.kind with
  | .change c => some c.record
  | _ => none

end Event

instance : Format Partition where
  write p := .object [("server_name", .text p.server)]
  read? r := do
    let fs ← Fields.ofReading? ["server_name"] r
    some ⟨← fs.required "server_name"⟩

instance : Format Offset where
  write o := .object [("gtid", Format.write o.position),
    ("incremental_snapshot", .bool o.fromSnapshot)]
  read? r := do
    let fs ← Fields.ofReading? ["gtid", "incremental_snapshot"] r
    some ⟨← fs.optional "gtid", ← fs.defaulted "incremental_snapshot" false⟩

end Backfill
