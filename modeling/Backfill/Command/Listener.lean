import Backfill.Command.Queue

/-! The listener moves commands from a source of records into the queue. It skips records that hold
no command for its connector, and it ends when it is told to, when the queue is closed, or when
the source fails. Others can intervene between any two of its steps. -/
namespace Backfill

/-- What others do while a listener is at work. -/
inductive Intervention where
  /-- The receiver takes the commands that wait in the queue. -/
  | take
  /-- The receiver goes away. -/
  | leave
  /-- The listener is told to end. -/
  | stop
deriving DecidableEq

/-- What a listener goes through: a record that was fetched, or an intervention. -/
inductive Occurrence where
  | record (r : CommandRecord)
  | intervention (i : Intervention)
deriving DecidableEq

structure Look where
  /-- What others do until the source has answered. -/
  meanwhile : List Intervention := []
  /-- The new records, with what others do between them and until the next look, or the failure of
  the source. -/
  batch : Except Failure (List Occurrence)

inductive ListenerEnd where
  | finished (result : Except Failure Unit)
  /-- It waits for room in the queue. -/
  | blocked

/-- What a listener has done, and what the receiver of its queue has taken. -/
structure Listening where
  queue : CommandQueue
  /-- Whether there is a receiver. An open queue without one is never emptied. -/
  attended : Bool := true
  /-- Whether the listener was not told to end. -/
  running : Bool := true
  /-- The offsets from which the source was asked for records. -/
  seeks : List UInt64 := []
  polls : Nat := 0
  received : List Command := []

namespace Listening

def take (l : Listening) : Listening :=
  if l.attended then
    { l with queue := l.queue.drained, received := l.received ++ l.queue.pending }
  else l

def dropReceiver (l : Listening) : Listening :=
  if l.attended then { l with queue := l.queue.close, attended := false } else l

def withQueue (l : Listening) (q : CommandQueue) : Listening := { l with queue := q }

def seek (l : Listening) (offset : UInt64) : Listening := { l with seeks := l.seeks ++ [offset] }

def poll (l : Listening) : Listening := { l with polls := l.polls + 1 }

def intervene (l : Listening) : Intervention → Listening
  | .take => l.take
  | .leave => l.dropReceiver
  | .stop => { l with running := false }

/-- Whether there is a reason to end at the next look. -/
def isOver (l : Listening) : Bool := !l.running || l.queue.closed

/-- Puts the commands of records into the queue; malformed records are skipped. -/
def forward (connector : String) (l : Listening) : List Occurrence → Option ListenerEnd × Listening
  | [] => (none, l)
  | .intervention i :: os => forward connector (l.intervene i) os
  | .record r :: os =>
    match r.parse connector with
    | .ok (some c) =>
      match l.queue.send c with
      | some (.ok q) => forward connector (l.withQueue q) os
      | some (.error _) => (some (.finished (.ok ())), l)
      | none => (some .blocked, l)
    | _ => forward connector l os

/-- Looks at the source again and again; there is no end yet if a further look would follow. -/
def listen (connector : String) (l : Listening) : List Look → Option ListenerEnd × Listening
  | [] => (if l.isOver then some (.finished (.ok ())) else none, l)
  | k :: ks =>
    if l.isOver then (some (.finished (.ok ())), l)
    else
      let l := k.meanwhile.foldl intervene l.poll
      match k.batch with
      | .error f => (some (.finished (.error f)), l)
      | .ok os =>
        match forward connector l os with
        | (some e, l) => (some e, l)
        | (none, l) => listen connector l ks

def listenIf (found : Except Failure Unit) (connector : String) (l : Listening) (ks : List Look) :
    Option ListenerEnd × Listening :=
  match found with
  | .error f => (some (.finished (.error f)), l)
  | .ok () => l.listen connector ks

end Listening

/-- The offset from which a listener reads on after the command applied last. -/
def listenerStart (lastApplied : Option UInt64) : UInt64 := (lastApplied.map (· + 1)).getD 0

/-- Runs a listener on a new queue, through some looks at a source. The source is first asked for the
records from an offset on; others can intervene until it has answered. -/
def runListener (connector : String) (capacity : Nat) (lastApplied : Option UInt64)
    (seek : UInt64 → Except Failure Unit) (meanwhile : List Intervention) (ks : List Look) :
    Option ListenerEnd × Listening :=
  let start := listenerStart lastApplied
  let l : Listening := { queue := .ofCapacity capacity }
  (meanwhile.foldl Listening.intervene (l.seek start)).listenIf (seek start) connector ks

/-- A look during which the receiver takes what waits as soon as the look begins. -/
structure Poll where
  /-- The new records, or the failure of the source. -/
  records : Except Failure (List CommandRecord)
  /-- Whether the receiving side of the queue goes away. -/
  dropsReceiver : Bool := false
  /-- Whether the listener is told to end. -/
  stops : Bool := false

namespace Poll

def look (p : Poll) : Look where
  meanwhile := .take :: ((if p.dropsReceiver then [.leave] else []) ++ if p.stops then [.stop] else [])
  batch := p.records.map (List.map .record)

/-- Nothing is new, and the listener is told to end. -/
def last : Poll := { records := .ok [], stops := true }

end Poll

/-- Runs a listener to its end, after the source was asked for the records from an offset on. After
the polls of the list it is told to end. At the end the receiver takes what still waits. -/
def listenFrom (connector : String) (seek : Except Failure Unit) (running : Bool)
    (l : Listening) (polls : List Poll) : ListenerEnd × Listening :=
  let l := { l with running }
  let (e, l) := l.listenIf seek connector ((polls ++ [Poll.last]).map Poll.look)
  (e.getD (.finished (.ok ())), l.take)

end Backfill
