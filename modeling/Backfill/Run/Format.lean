import Backfill.Run.Basic

/-! Runs as documents, the form in which they are persisted. -/
namespace Backfill
open Json (Format Fields)

instance : Format ChunkProgress where
  write c := .object [("sequence", Format.write c.sequence), ("chunk_start", Format.write c.start),
    ("chunk_end", Format.write c.stop), ("maximum_key", Format.write c.maximum),
    ("last_sent", Format.write c.lastSent)]
  read? r := do
    let fs ← Fields.ofReading?
      ["sequence", "chunk_start", "chunk_end", "maximum_key", "last_sent"] r
    some {
      sequence := ← fs.required "sequence"
      start := ← fs.optional "chunk_start"
      stop := ← fs.optional "chunk_end"
      maximum := ← fs.optional "maximum_key"
      lastSent := ← fs.optional "last_sent" }

namespace Run

def fieldNames : List String :=
  ["snapshot_id", "tables", "conditions", "chunk", "mode", "watermarks", "signal_offset",
   "paused", "started_at", "last_activity"]

instance : Format Run where
  write r := .object [("snapshot_id", .text r.id), ("tables", Format.write r.tables),
    ("conditions", Format.write r.filters), ("chunk", Format.write r.chunk),
    ("mode", Format.write r.mode), ("watermarks", Format.write r.watermarks),
    ("signal_offset", Format.write r.commandOffset), ("paused", .bool r.paused),
    ("started_at", Format.write r.startedAt), ("last_activity", Format.write r.lastActivity)]
  read? r := do
    let fs ← Fields.ofReading? fieldNames r
    some {
      id := ← fs.required "snapshot_id"
      tables := ← fs.required "tables"
      filters := ← fs.defaulted "conditions" .empty
      chunk := ← fs.required "chunk"
      mode := ← fs.defaulted "mode" .closed
      watermarks := ← fs.defaulted "watermarks" {}
      commandOffset := ← fs.optional "signal_offset"
      paused := ← fs.defaulted "paused" false
      startedAt := ← fs.required "started_at"
      lastActivity := ← fs.required "last_activity" }

def persist (r : Run) : String := Json.render r

def restore (s : String) : Except Failure Run := Json.parse s

end Run
end Backfill
