import Backfill.Json.Format

/-! Primary keys: lists of column values, compared column by column. -/
namespace Backfill
open Json (Format)

/-- The value of one key column. -/
inductive KeyPart where
  | null
  | int (n : Int64)
  | text (s : String)
  | bytes (bs : List UInt8)
deriving DecidableEq, Repr

namespace KeyPart

/-- The place of a kind of value in the order of kinds. -/
def rank : KeyPart → Nat
  | .null => 0
  | .int _ => 1
  | .text _ => 2
  | .bytes _ => 3

def compareBytes : List UInt8 → List UInt8 → Ordering
  | [], [] => .eq
  | [], _ :: _ => .lt
  | _ :: _, [] => .gt
  | a :: as, b :: bs => (Ord.compare a b).then (compareBytes as bs)

/-- Null comes before integers, integers before texts and texts before bytes. Within a kind,
integers are in numeric order, texts and bytes in dictionary order. -/
protected def compare : KeyPart → KeyPart → Ordering
  | .int m, .int n => Ord.compare m n
  | .text s, .text t => Ord.compare s t
  | .bytes as, .bytes bs => compareBytes as bs
  | a, b => Ord.compare a.rank b.rank

instance : Ord KeyPart := ⟨KeyPart.compare⟩

def hexByte (b : UInt8) : List Char :=
  [Json.hexDigit (b.toNat / 16), Json.hexDigit (b.toNat % 16)]

def display : KeyPart → String
  | .null => "NULL"
  | .int n => String.ofList (Json.integer n.toInt)
  | .text s => "'" ++ s ++ "'"
  | .bytes bs => "0x" ++ String.ofList (bs.flatMap hexByte)

instance : Format KeyPart where
  write
    | .null => .text "null"
    | .int n => .object [("int", Format.write n)]
    | .text s => .object [("text", .text s)]
    | .bytes bs => .object [("bytes", Format.write bs)]
  read? r :=
    if Json.unitChoice? r = some "null" then some .null
    else match Json.choice? r with
      | some ("int", content) => (Format.read? content).map .int
      | some ("text", content) => (Format.read? content).map .text
      | some ("bytes", content) => (Format.read? content).map .bytes
      | _ => none

end KeyPart

structure Key where
  parts : List KeyPart
deriving DecidableEq, Repr

namespace Key

def compareParts : List KeyPart → List KeyPart → Ordering
  | [], [] => .eq
  | [], _ :: _ => .lt
  | _ :: _, [] => .gt
  | a :: as, b :: bs => (Ord.compare a b).then (compareParts as bs)

instance : Ord Key := ⟨fun a b => compareParts a.parts b.parts⟩
instance : LT Key := ltOfOrd
instance : LE Key := leOfOrd

/-- The text of a key: its column values between parentheses. -/
def text (k : Key) : String := "(" ++ ", ".intercalate (k.parts.map KeyPart.display) ++ ")"

instance : Format Key where
  write k := Format.write k.parts
  read? r := (Format.read? r).map Key.mk

end Key
end Backfill
