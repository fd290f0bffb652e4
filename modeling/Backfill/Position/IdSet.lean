import Backfill.Position.RangeList
import Backfill.Text.Pieces

/-! Sets of transaction ids of one source, as ranges in ascending order with gaps between them. -/
namespace Backfill

structure IdSet where
  ranges : List IdRange
  /-- The ranges ascend, and at least one id lies between two of them. -/
  apart : ranges.Pairwise IdRange.IsBefore
deriving DecidableEq, Repr

namespace IdSet
open IdRange

def empty : IdSet := ⟨[], .nil⟩

def ofRanges (rs : List IdRange) : IdSet := ⟨normalize rs, normalize_apart rs⟩

def isEmpty (s : IdSet) : Bool := s.ranges.isEmpty

def max? (s : IdSet) : Option UInt64 := s.ranges.getLast?.map IdRange.last

/-- The index of the first element that `p` does not hold of, if it holds of no later one: there
the list is split in two, and halving the list finds the place. -/
def partitionPoint (p : IdRange → Bool) (rs : List IdRange) : Nat := (rs.takeWhile p).length

/-- Whether an id is in the set: the first range that does not end before it decides. -/
def contains (s : IdSet) (n : UInt64) : Bool :=
  (s.ranges[partitionPoint (fun r => r.last < n) s.ranges]?).any fun r => r.contains n

/-- The difference of the ranges of two sets is always found. -/
theorem sweep?_eq_some (s t : IdSet) :
    sweep? s.ranges t.ranges = some ((sweep? s.ranges t.ranges).getD []) := by
  obtain ⟨parts, hparts, -⟩ := exists_sweep? s.apart t.apart
  rw [hparts, Option.getD_some]

def subtract (s t : IdSet) : IdSet where
  ranges := (sweep? s.ranges t.ranges).getD []
  apart := by
    obtain ⟨parts, hparts, hapart, -⟩ := exists_sweep? s.apart t.apart
    rwa [hparts, Option.getD_some]

def union (s t : IdSet) : IdSet := ofRanges (s.ranges ++ t.ranges)

/-- A set is written as its ranges with colons between them. -/
def chars (s : IdSet) : List Char := Text.join [':'] (s.ranges.map IdRange.chars)

def text (s : IdSet) : String := String.ofList s.chars

end IdSet
end Backfill
