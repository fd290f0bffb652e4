import Backfill.Row.Key
import Backfill.Row.Table

/-! Rows read from a table, changes made to rows, and the records that tell a sink about both. -/
namespace Backfill
open Json (Format Fields)

structure Row where
  key : Key
  data : Json

inductive Operation where
  | insert
  | update
  | delete
  /-- The row was read by the snapshot. -/
  | read
deriving DecidableEq, Repr

/-- A change that a transaction made to a row; `after` is the row's new data, if there is any. -/
structure Change where
  table : Table
  operation : Operation
  key : Key
  after : Option Json

/-- What a sink is told about a row. -/
structure Record where
  operation : Operation
  key : Key
  data : Option Json

def Row.record (r : Row) : Record := ⟨.read, r.key, some r.data⟩

def Change.record (c : Change) : Record := ⟨c.operation, c.key, c.after⟩

instance : Format Row where
  write r := .object [("key", Format.write r.key), ("data", Format.write r.data)]
  read? r := do
    let fs ← Fields.ofReading? ["key", "data"] r
    some ⟨← fs.required "key", ← fs.required "data"⟩

def Operation.name : Operation → String
  | .insert => "Insert"
  | .update => "Update"
  | .delete => "Delete"
  | .read => "Read"

def Operation.ofName? : String → Option Operation
  | "Insert" => some .insert
  | "Update" => some .update
  | "Delete" => some .delete
  | "Read" => some .read
  | _ => none

instance : Format Operation where
  write o := .text o.name
  read? r := (Json.unitChoice? r).bind Operation.ofName?

instance : Format Change where
  write c := .object [("table", Format.write c.table), ("op", Format.write c.operation),
    ("key", Format.write c.key), ("after", Format.write c.after)]
  read? r := do
    let fs ← Fields.ofReading? ["table", "op", "key", "after"] r
    some ⟨← fs.required "table", ← fs.required "op", ← fs.required "key", ← fs.optional "after"⟩

instance : Format Record where
  write r := .object [("op", Format.write r.operation), ("key", Format.write r.key),
    ("data", Format.write r.data)]
  read? r := do
    let fs ← Fields.ofReading? ["op", "key", "data"] r
    some ⟨← fs.required "op", ← fs.required "key", ← fs.optional "data"⟩

end Backfill
