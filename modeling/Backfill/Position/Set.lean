import Backfill.Position.Basic
import Backfill.Position.IdSet
import Backfill.Text.Map

/-! Sets of positions, grouped by source: the executed transactions that serve as watermarks.
Sets are values: a difference or a union is a new set, so a captured watermark never changes. -/
namespace Backfill

/-- A set of positions. The operations below keep no source without ids. -/
structure PositionSet where
  bySource : TextMap IdSet
deriving DecidableEq

namespace PositionSet

def empty : PositionSet := ⟨.empty⟩

instance : Inhabited PositionSet := ⟨empty⟩

/-- Groups ids by source and leaves out sources without ids. -/
def ofMap (m : TextMap IdSet) : PositionSet :=
  ⟨m.filterMap fun _ ids => if ids.isEmpty then none else some ids⟩

/-- The positions of one source between two ids, given in either order. -/
def single (source : String) (a b : UInt64) : PositionSet :=
  ⟨TextMap.empty.insert source (.ofRanges [.between a b])⟩

def isEmpty (s : PositionSet) : Bool := s.bySource.isEmpty

def sourceCount (s : PositionSet) : Nat := s.bySource.size

/-- The sources with a position in the set, in ascending order. -/
def sources (s : PositionSet) : List String := s.bySource.keys

def ids? (s : PositionSet) (source : String) : Option IdSet := s.bySource.get? source

def max? (s : PositionSet) (source : String) : Option UInt64 := (s.ids? source).bind IdSet.max?

/-- Whether a position is in the set; one of an unknown source is not. -/
def contains (s : PositionSet) (p : Position) : Bool :=
  (s.ids? p.source).any fun ids => ids.contains p.transaction

def subtract (s t : PositionSet) : PositionSet :=
  ofMap (s.bySource.filterMap fun source ids =>
    some (match t.ids? source with
      | some cut => ids.subtract cut
      | none => ids))

/-- Ids of a source, together with those that a set has of it. -/
def joined (s : PositionSet) (source : String) (ids : IdSet) : IdSet :=
  match s.ids? source with
  | some own => own.union ids
  | none => ids

def union (s t : PositionSet) : PositionSet :=
  ofMap (t.bySource.entries.foldl (fun m e => m.insert e.1 (s.joined e.1 e.2)) s.bySource)

def insert (s : PositionSet) (p : Position) : PositionSet :=
  s.union (single p.source p.transaction p.transaction)

/-- A set is written as its sources in ascending order, commas between them, each followed by a
colon and its ids. -/
def chars (s : PositionSet) : List Char :=
  Text.join [','] (s.bySource.entries.map fun e => e.1.toList ++ ':' :: e.2.chars)

def text (s : PositionSet) : String := String.ofList s.chars

end PositionSet
end Backfill
