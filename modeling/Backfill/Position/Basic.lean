import Backfill.Failure
import Backfill.Text.Blank
import Backfill.Text.Numeral
import Backfill.Text.Pieces

/-! Positions in the change stream: a transaction id together with the source that gave it. -/
namespace Backfill

structure Position where
  source : String
  transaction : UInt64
deriving DecidableEq, Repr

/-- Why a text is no position. `whole` is the text without the blanks at its ends. -/
inductive PositionError where
  | noColon (whole : String)
  | emptySource (whole : String)
  | badTransaction (whole : String) (cause : Text.NumeralError)
deriving DecidableEq, Repr

def PositionError.message : PositionError → String
  | .noColon whole => "missing ':' in '" ++ whole ++ "'"
  | .emptySource whole => "empty source in '" ++ whole ++ "'"
  | .badTransaction whole cause => "bad transaction id in '" ++ whole ++ "': " ++ cause.message

def PositionError.failure (e : PositionError) : Failure := .invalidPosition e.message

namespace Position

/-- A position is written `source:transaction`. -/
def chars (p : Position) : List Char :=
  p.source.toList ++ ':' :: Text.numeral p.transaction.toNat

def text (p : Position) : String := String.ofList p.chars

/-- Reads a position. The last colon divides it, so that a source may hold colons itself. -/
def parse (s : String) : Except PositionError Position :=
  let cs := Text.trim s.toList
  let whole := String.ofList cs
  match Text.cutLast ':' cs with
  | none => .error (.noColon whole)
  | some (source, number) =>
    if source.isEmpty then .error (.emptySource whole)
    else match Text.readWord number with
      | .error e => .error (.badTransaction whole e)
      | .ok n => .ok ⟨String.ofList source, n⟩

end Position
end Backfill
