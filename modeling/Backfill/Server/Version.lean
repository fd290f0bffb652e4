import Backfill.Json.Format
import Backfill.Text.Blank

/-! Server versions. -/
namespace Backfill
open Json (Format)

/-- A version `major.minor.patch`. -/
structure ServerVersion where
  major : UInt32
  minor : UInt32
  patch : UInt32
deriving DecidableEq, Repr

namespace ServerVersion

/-- Versions are compared number by number. -/
instance : Ord ServerVersion :=
  ⟨fun v w => (Ord.compare v.major w.major).then
    ((Ord.compare v.minor w.minor).then (Ord.compare v.patch w.patch))⟩
instance : LT ServerVersion := ltOfOrd

/-- A version is written as its numbers with dots between them. -/
def chars (v : ServerVersion) : List Char :=
  Text.numeral v.major.toNat ++ '.' :: Text.numeral v.minor.toNat
    ++ '.' :: Text.numeral v.patch.toNat

def text (v : ServerVersion) : String := String.ofList v.chars

def isNumberPart (c : Char) : Bool := c.isDigit || c = '.'

/-- The numerals of a version text: what stands between dots before the first other character. -/
def numerals (s : String) : List (List Char) :=
  (Text.pieces '.' ((Text.trim s.toList).takeWhile isNumberPart)).filter fun p => !p.isEmpty

def number? (cs : List Char) : Option UInt32 :=
  (Text.readNumeral UInt32.size cs).toOption.map UInt32.ofNat

/-- The version of a list of numerals; the patch number may be missing and further ones are not
looked at. -/
def ofNumerals? : List (List Char) → Option ServerVersion
  | [major, minor] => return ⟨← number? major, ← number? minor, 0⟩
  | major :: minor :: patch :: _ => return ⟨← number? major, ← number? minor, ← number? patch⟩
  | _ => none

/-- Reads a version such as `8.0.34-log` or `5.7`. -/
def parse (s : String) : Except Failure ServerVersion :=
  match ofNumerals? (numerals s) with
  | some v => .ok v
  | none => .error (.config ("invalid server version '" ++ s ++ "'"))

instance : Format ServerVersion where
  write v := .text v.text
  read? r := (Format.read? r).bind fun s => (parse s).toOption

end ServerVersion
end Backfill
