import Backfill.Row.Table

/-! Control commands for a snapshot, and the records in which they are sent. -/
namespace Backfill
open Json (Format Fields Reading)

inductive CommandAction where
  /-- Read tables. -/
  | execute
  /-- Do not read tables any more. -/
  | stop
  /-- Read no further chunk for the time being. -/
  | pause
  /-- Go on reading chunks. -/
  | resume
deriving DecidableEq, Repr

namespace CommandAction

def name : CommandAction → String
  | .execute => "execute-snapshot"
  | .stop => "stop-snapshot"
  | .pause => "pause-snapshot"
  | .resume => "resume-snapshot"

def ofName? : String → Option CommandAction
  | "execute-snapshot" => some .execute
  | "stop-snapshot" => some .stop
  | "pause-snapshot" => some .pause
  | "resume-snapshot" => some .resume
  | _ => none

instance : Format CommandAction where
  write a := .text a.name
  read? r := (Json.unitChoice? r).bind ofName?

end CommandAction

/-- A command, with the offset at which it was read. -/
structure Command where
  offset : UInt64
  action : CommandAction
  tables : List Table := []
  /-- The additional filter of a table, under the table's text. -/
  filters : TextMap String := .empty
deriving DecidableEq

namespace Command

def execute (offset : UInt64) (tables : List Table) : Command := ⟨offset, .execute, tables, .empty⟩

/-- The command to stop reading tables, or all tables if the list is empty. -/
def stop (offset : UInt64) (tables : List Table) : Command := ⟨offset, .stop, tables, .empty⟩

def pause (offset : UInt64) : Command := ⟨offset, .pause, [], .empty⟩

def resume (offset : UInt64) : Command := ⟨offset, .resume, [], .empty⟩

def withFilter (c : Command) (t : Table) (filter : String) : Command :=
  { c with filters := c.filters.insert t.text filter }

end Command

structure TableFilter where
  table : String
  filter : String
deriving DecidableEq, Repr

structure CommandDetails where
  tables : List String := []
  /-- The kind of snapshot asked for. -/
  kind : Option String := none
  filters : List TableFilter := []
deriving DecidableEq, Repr

structure CommandRecord where
  offset : UInt64
  /-- The connector to which the record is addressed. -/
  key : Option String
  /-- The JSON text of the command. -/
  value : String
deriving DecidableEq, Repr

instance : Format TableFilter where
  write f := .object [("data-collection", .text f.table), ("filter", .text f.filter)]
  read? r := do
    let fs ← Fields.ofReading? ["data-collection", "filter"] r
    some ⟨← fs.required "data-collection", ← fs.required "filter"⟩

instance : Format CommandDetails where
  write d := .object [("data-collections", Format.write d.tables), ("type", Format.write d.kind),
    ("additional-conditions", Format.write d.filters)]
  read? r := do
    let fs ← Fields.ofReading? ["data-collections", "type", "additional-conditions"] r
    some {
      tables := ← fs.defaulted "data-collections" []
      kind := ← fs.defaulted "type" none
      filters := ← fs.defaulted "additional-conditions" [] }

instance : Format CommandRecord where
  write c := .object [("offset", Format.write c.offset), ("key", Format.write c.key),
    ("value", .text c.value)]
  read? r := do
    let fs ← Fields.ofReading? ["offset", "key", "value"] r
    some ⟨← fs.required "offset", ← fs.optional "key", ← fs.required "value"⟩

namespace CommandRecord

/-- The name of the action and the details in a record's value. -/
def payload? (r : Reading) : Option (String × CommandDetails) := do
  let fs ← Fields.ofReading? ["type", "data"] r
  let action : String ← fs.required "type"
  let details : Option CommandDetails ← fs.defaulted "data" none
  some (action, details.getD {})

def malformed (offset : UInt64) : Failure :=
  .signal ("invalid signal at offset " ++ String.ofList (Text.numeral offset.toNat))

/-- Whether two texts are equal up to the case of ASCII letters. -/
def sameIgnoringCase (s t : String) : Bool := s.toList.map Char.toLower = t.toList.map Char.toLower

def addFilter (filters : TextMap String) (f : TableFilter) : Except Failure (TextMap String) := do
  let t ← Table.parse f.table
  .ok (filters.insert t.text f.filter)

/-- The command of an action and its details, or none for a snapshot of a kind not served here. -/
def command (offset : UInt64) (action : CommandAction) (d : CommandDetails) :
    Except Failure (Option Command) :=
  if action = .execute && d.kind.any fun kind => !sameIgnoringCase kind "incremental" then .ok none
  else do
    let tables ← d.tables.mapM Table.parse
    let filters ← d.filters.foldlM addFilter .empty
    .ok (some ⟨offset, action, tables, filters⟩)

/-- The command that a record holds for a connector. There is none in a record for another
connector, or in one of an unknown action or kind. -/
def parse (r : CommandRecord) (connector : String) : Except Failure (Option Command) :=
  if r.key ≠ some connector then .ok none
  else match (Json.read r.value).bind payload? with
    | none => .error (malformed r.offset)
    | some (name, details) =>
      match CommandAction.ofName? name with
      | none => .ok none
      | some action => command r.offset action details

end CommandRecord
end Backfill
