import Backfill.Json.Format

/-! Counts of what a snapshot has done. Counters wrap around at 64 bits. -/
namespace Backfill
open Json (Format Fields)

/-- The counters of a snapshot. -/
structure Statistics where
  windowsOpened : UInt64 := 0
  windowsClosed : UInt64 := 0
  chunksRead : UInt64 := 0
  /-- Chunks discarded because their high watermark spans several sources. -/
  chunkRereads : UInt64 := 0
  rowsBuffered : UInt64 := 0
  rowsDeduplicated : UInt64 := 0
  rowsEmitted : UInt64 := 0
  tablesCompleted : UInt64 := 0
  signalsApplied : UInt64 := 0
deriving DecidableEq, Repr

namespace Statistics

def windowOpened (s : Statistics) : Statistics :=
  { s with windowsOpened := s.windowsOpened + 1 }

/-- Counts a window that a position past its high watermark has closed. -/
def windowClosed (s : Statistics) : Statistics :=
  { s with windowsClosed := s.windowsClosed + 1 }

def chunkRead (s : Statistics) (rows : UInt64) : Statistics :=
  { s with chunksRead := s.chunksRead + 1, rowsBuffered := s.rowsBuffered + rows }

def chunkReread (s : Statistics) : Statistics :=
  { s with chunkRereads := s.chunkRereads + 1 }

def rowDeduplicated (s : Statistics) : Statistics :=
  { s with rowsDeduplicated := s.rowsDeduplicated + 1 }

def rowsSent (s : Statistics) (rows : UInt64) : Statistics :=
  { s with rowsEmitted := s.rowsEmitted + rows }

def tableCompleted (s : Statistics) : Statistics :=
  { s with tablesCompleted := s.tablesCompleted + 1 }

def signalApplied (s : Statistics) : Statistics :=
  { s with signalsApplied := s.signalsApplied + 1 }

def names : List String :=
  ["windows_opened", "windows_closed", "chunks_read", "chunk_rereads", "rows_buffered",
   "rows_deduplicated", "rows_emitted", "tables_completed", "signals_applied"]

def values (s : Statistics) : List UInt64 :=
  [s.windowsOpened, s.windowsClosed, s.chunksRead, s.chunkRereads, s.rowsBuffered,
   s.rowsDeduplicated, s.rowsEmitted, s.tablesCompleted, s.signalsApplied]

instance : Format Statistics where
  write s := .object (names.zip (s.values.map Format.write))
  read? r := do
    let fs ← Fields.ofReading? names r
    some {
      windowsOpened := ← fs.required "windows_opened"
      windowsClosed := ← fs.required "windows_closed"
      chunksRead := ← fs.required "chunks_read"
      chunkRereads := ← fs.required "chunk_rereads"
      rowsBuffered := ← fs.required "rows_buffered"
      rowsDeduplicated := ← fs.required "rows_deduplicated"
      rowsEmitted := ← fs.required "rows_emitted"
      tablesCompleted := ← fs.required "tables_completed"
      signalsApplied := ← fs.required "signals_applied" }

end Statistics
end Backfill
