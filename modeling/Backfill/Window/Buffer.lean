import Backfill.Row.Basic

/-! The rows of the chunk in progress, one a key, in the order in which their keys came. -/
namespace Backfill

/-- Rows that wait for their window to close. -/
structure RowBuffer where
  rows : List Row

namespace RowBuffer

def empty : RowBuffer := ⟨[]⟩

instance : Inhabited RowBuffer := ⟨empty⟩

/-- Puts a row in the place of the row with its key, or at the end. -/
def insertRow (row : Row) : List Row → List Row
  | [] => [row]
  | r :: rs => if r.key = row.key then row :: rs else r :: insertRow row rs

/-- The buffer with one row more, or with new data for a key it holds. -/
def insert (b : RowBuffer) (row : Row) : RowBuffer := ⟨insertRow row b.rows⟩

def insertAll (b : RowBuffer) (rows : List Row) : RowBuffer := rows.foldl insert b

def holds (b : RowBuffer) (k : Key) : Bool := b.rows.any fun r => r.key = k

/-- The buffer without the row of a key; the other rows keep their order. -/
def erase (b : RowBuffer) (k : Key) : RowBuffer := ⟨b.rows.filter fun r => r.key ≠ k⟩

def lastKey? (b : RowBuffer) : Option Key := b.rows.getLast?.map Row.key

def size (b : RowBuffer) : Nat := b.rows.length

def isEmpty (b : RowBuffer) : Bool := b.rows.isEmpty

end RowBuffer
end Backfill
