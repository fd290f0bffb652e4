import Backfill.Position.Format

/-! The watermarks of a chunk and what a position of the stream means to its window.

The low watermark holds the positions executed before the chunk was read, the high watermark those
executed while it was read. A window opens with the first position outside the low watermark and
closes with the first one outside the high watermark. Several units may share a position, so that
reaching the last position of the high watermark does not close a window. A heartbeat is an
exception: it repeats the position of the latest transaction, and nothing of that transaction
follows it. -/
namespace Backfill
open Json (Format Fields)

/-- Whether the stream is within the window of the chunk in progress. -/
inductive WindowMode where
  /-- Changes pass by the buffer. -/
  | closed
  /-- Changes remove the rows they supersede from the buffer. -/
  | opened
deriving DecidableEq, Repr

inductive WindowAction where
  | openWindow
  | deduplicate
  | closeWindow
deriving DecidableEq, Repr

/-- The mode after a position and what the position asks for, in order. -/
structure Transition where
  mode : WindowMode
  actions : List WindowAction
deriving DecidableEq, Repr

namespace Transition

def opens (t : Transition) : Bool := .openWindow ∈ t.actions

def closes (t : Transition) : Bool := .closeWindow ∈ t.actions

/-- Whether a change has to be compared with the buffered rows. -/
def deduplicates (t : Transition) : Bool := .deduplicate ∈ t.actions

end Transition

/-- The watermarks of the chunk in progress, as far as they are captured. -/
structure Watermarks where
  low : Option PositionSet := none
  high : Option PositionSet := none
deriving DecidableEq

namespace Watermarks

instance : Inhabited Watermarks := ⟨{}⟩

/-- Whether a position is outside a watermark that is captured. -/
def isPast (mark : Option PositionSet) (p : Position) : Bool := mark.any fun s => !s.contains p

/-- What a position means in a mode. A unit without a position leaves the mode as it is. -/
def transition (w : Watermarks) (mode : WindowMode) (position : Option Position) : Transition :=
  let opens := mode = .closed && position.any (isPast w.low)
  let isOpen := mode = .opened || opens
  let closes := isOpen && position.any (isPast w.high)
  let staysOpen := isOpen && !closes
  { mode := if staysOpen then .opened else .closed
    actions := (if opens then [.openWindow] else []) ++ (if closes then [.closeWindow] else [])
      ++ if staysOpen then [.deduplicate] else [] }

/-- Whether a heartbeat or commit has reached the end of the high watermark. If nothing was
executed while the chunk was read, the end of the low watermark counts. Without a position it has;
with a position of a source that the watermark does not know it has not. -/
def isReached (w : Watermarks) (position : Option Position) : Bool :=
  match w.high, position with
  | none, _ => false
  | some _, none => true
  | some high, some p =>
    let last := if high.isEmpty then w.low.bind (·.max? p.source) else high.max? p.source
    last.any (· ≤ p.transaction)

/-- Whether the high watermark spans several sources. Such a chunk cannot be placed in the stream
of one source and has to be read again. -/
def isAmbiguous (w : Watermarks) : Bool := w.high.any fun high => 1 < high.sourceCount

end Watermarks

def WindowMode.name : WindowMode → String
  | .closed => "closed"
  | .opened => "open"

def WindowMode.ofName? : String → Option WindowMode
  | "closed" => some .closed
  | "open" => some .opened
  | _ => none

def WindowAction.name : WindowAction → String
  | .openWindow => "open"
  | .deduplicate => "deduplicate"
  | .closeWindow => "close"

instance : Format WindowMode where
  write m := .text m.name
  read? r := (Json.unitChoice? r).bind WindowMode.ofName?

instance : Format Watermarks where
  write w := .object [("low", Format.write w.low), ("high", Format.write w.high)]
  read? r := do
    let fs ← Fields.ofReading? ["low", "high"] r
    some ⟨← fs.optional "low", ← fs.optional "high"⟩

end Backfill
