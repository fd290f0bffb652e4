import Backfill.Command.Basic

/-! The queue in which commands wait to be applied. It holds a limited number of commands, and its
receiving side can close it. -/
namespace Backfill

structure CommandQueue where
  capacity : Nat
  pending : List Command := []
  closed : Bool := false
deriving DecidableEq

namespace CommandQueue

def ofCapacity (n : Nat) : CommandQueue := { capacity := max n 1 }

def isFull (q : CommandQueue) : Bool := q.capacity ≤ q.pending.length

def push (q : CommandQueue) (c : Command) : CommandQueue := { q with pending := q.pending ++ [c] }

def trySend (q : CommandQueue) (c : Command) : Except Failure CommandQueue :=
  if q.closed then .error (.signal "failed to enqueue signal: channel closed")
  else if q.isFull then .error (.signal "failed to enqueue signal: no available capacity")
  else .ok (q.push c)

/-- Puts a command in line; `none` means that the sender would wait for room. -/
def send (q : CommandQueue) (c : Command) : Option (Except Failure CommandQueue) :=
  if q.closed then some (.error (.signal "signal queue closed: channel closed"))
  else if q.isFull then none
  else some (.ok (q.push c))

def drained (q : CommandQueue) : CommandQueue := { q with pending := [] }

/-- The queue after its receiving side is gone, with all that waited in it. -/
def close (q : CommandQueue) : CommandQueue := { q with pending := [], closed := true }

end CommandQueue
end Backfill
