import Backfill.Server.Version

/-! The settings of a snapshot. -/
namespace Backfill
open Json (Format Fields)

/-- The settings of a snapshot, with their defaults. -/
structure Settings where
  /-- The name under which control commands are addressed to this snapshot. -/
  connector : String := "watermark-snapshot"
  /-- The number of rows that one chunk query asks for. -/
  chunkSize : UInt64 := 1024
  /-- The number of commands that can wait to be applied. -/
  queueCapacity : UInt64 := 128
  /-- The pause between two looks for new commands. -/
  pollIntervalMs : UInt64 := 500
  /-- The oldest server that reports executed positions. -/
  minServerVersion : ServerVersion := ⟨5, 6, 5⟩
deriving DecidableEq, Repr

namespace Settings

def validate (s : Settings) : Except Failure Unit :=
  if (Text.trim s.connector.toList).isEmpty then .error (.config "connector_name must not be empty")
  else if s.chunkSize = 0 then .error (.config "chunk_size must be at least 1")
  else if s.queueCapacity = 0 then .error (.config "signal_channel_capacity must be at least 1")
  else .ok ()

def validated (s : Settings) : Except Failure Settings := s.validate.map fun _ => s

def checkServerVersion (s : Settings) (version : String) : Except Failure Unit := do
  let actual ← ServerVersion.parse version
  if actual < s.minServerVersion then
    .error (.unsupportedVersion s.minServerVersion.text version)
  else .ok ()

instance : Format Settings where
  write s := .object [("connector_name", .text s.connector),
    ("chunk_size", Format.write s.chunkSize),
    ("signal_channel_capacity", Format.write s.queueCapacity),
    ("signal_poll_interval_ms", Format.write s.pollIntervalMs),
    ("min_server_version", Format.write s.minServerVersion)]
  read? r := do
    let fs ← Fields.ofReading? ["connector_name", "chunk_size", "signal_channel_capacity",
      "signal_poll_interval_ms", "min_server_version"] r
    let d : Settings := {}
    some {
      connector := ← fs.required "connector_name"
      chunkSize := ← fs.defaulted "chunk_size" d.chunkSize
      queueCapacity := ← fs.defaulted "signal_channel_capacity" d.queueCapacity
      pollIntervalMs := ← fs.defaulted "signal_poll_interval_ms" d.pollIntervalMs
      minServerVersion := ← fs.defaulted "min_server_version" d.minServerVersion }

end Settings
end Backfill
