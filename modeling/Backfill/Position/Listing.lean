import Backfill.Position.Set

/-! Reading sets of positions: entries `source:range:range` with commas between them, where a
range is `n` or `n-m`. Blanks are dropped, empty entries are skipped, and a source may come in
several entries. -/
namespace Backfill

/-- Why a text is no set of positions. `entry` is the entry at fault without its blanks. -/
inductive ListingError where
  | emptySource (entry : String)
  | noRanges (entry : String)
  | badRange (range entry : String) (cause : Text.NumeralError)
  | descending (range entry : String)
deriving DecidableEq, Repr

def ListingError.message : ListingError → String
  | .emptySource entry => "empty source in '" ++ entry ++ "'"
  | .noRanges entry => "no transaction ranges in '" ++ entry ++ "'"
  | .badRange range entry cause =>
    "bad range '" ++ range ++ "' in '" ++ entry ++ "': " ++ cause.message
  | .descending range entry => "descending range '" ++ range ++ "' in '" ++ entry ++ "'"

def ListingError.failure (e : ListingError) : Failure := .invalidPosition e.message

/-- Reads a range of an entry: one id, or two in ascending order with a hyphen between them. -/
def IdRange.parse (entry range : List Char) : Except ListingError IdRange :=
  let wrong := ListingError.badRange (String.ofList range) (String.ofList entry)
  match Text.cutFirst '-' range with
  | none => ((Text.readWord range).map IdRange.single).mapError wrong
  | some (a, b) => do
    let first ← (Text.readWord a).mapError wrong
    let last ← (Text.readWord b).mapError wrong
    if h : first ≤ last then .ok ⟨first, last, h⟩
    else .error (.descending (String.ofList range) (String.ofList entry))

namespace PositionSet

/-- Reads an entry without blanks: a source and at least one range. -/
def parseEntry (entry : List Char) : Except ListingError (String × List IdRange) :=
  match Text.pieces ':' entry with
  | [] | [] :: _ => .error (.emptySource (String.ofList entry))
  | [_] => .error (.noRanges (String.ofList entry))
  | source :: ranges => do
    let ranges ← ranges.mapM (IdRange.parse entry)
    .ok (String.ofList source, ranges)

/-- The entries of a text, without blanks and without empty entries. -/
def entriesOf (cs : List Char) : List (List Char) :=
  ((Text.pieces ',' cs).map Text.dropBlanks).filter fun entry => !entry.isEmpty

/-- Puts the ranges of an entry behind those of its source. -/
def addEntry (grouped : TextMap (List IdRange)) (e : String × List IdRange) :
    TextMap (List IdRange) :=
  grouped.insert e.1 ((grouped.get? e.1).getD [] ++ e.2)

/-- The positions of entries, whose ranges are given by source. -/
def ofEntries (es : List (String × List IdRange)) : PositionSet :=
  ofMap ((es.foldl addEntry .empty).filterMap fun _ ranges => some (.ofRanges ranges))

def parse (s : String) : Except ListingError PositionSet :=
  ((entriesOf s.toList).mapM parseEntry).map ofEntries

end PositionSet
end Backfill
