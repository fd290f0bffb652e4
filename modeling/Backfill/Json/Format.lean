import Backfill.Failure
import Backfill.Json.Printer
import Backfill.Json.Reader

/-! JSON forms of types. A record is an object with one member a field, or an array of its fields
in order; a choice without content is its name, or an object from its name to null; a choice with
content is an object from its name to the content. -/
namespace Backfill.Json

/-- The JSON form of a type: how a value is written, and what a reading denotes. -/
class Format (α : Type) where
  write : α → Json
  read? : Reading → Option α

def parse {α : Type} [Format α] (s : String) : Except Failure α :=
  match (Json.read s).bind Format.read? with
  | some a => .ok a
  | none => .error .json

def render {α : Type} [Format α] (a : α) : String := (Format.write a).print

def renderPretty {α : Type} [Format α] (a : α) : String := (Format.write a).printPretty

/-- The integer that a reading denotes, if it lies between two bounds, both included. -/
def integer? (low high : Int) : Reading → Option Int
  | .number (some (.int n)) => if low ≤ n ∧ n ≤ high then some n else none
  | _ => none

instance : Format UInt64 where
  write n := .nat n.toNat
  read? r := (integer? 0 0xFFFFFFFFFFFFFFFF r).map fun n => UInt64.ofNat n.toNat

instance : Format UInt8 where
  write n := .nat n.toNat
  read? r := (integer? 0 255 r).map fun n => UInt8.ofNat n.toNat

instance : Format Int64 where
  write n := .int n.toInt
  read? r := (integer? (-0x8000000000000000) 0x7FFFFFFFFFFFFFFF r).map Int64.ofInt

instance : Format Bool where
  write b := .bool b
  read?
    | .bool b => some b
    | _ => none

instance : Format String where
  write s := .text s
  read?
    | .text t => t
    | _ => none

/-- Data stands in a field of a record, which takes one of the levels to which a document may
nest. -/
instance : Format Json where
  write j := j
  read? := ofReading? (depthLimit - 1)

instance {α : Type} [Format α] : Format (List α) where
  write as := .array (as.map Format.write)
  read?
    | .array items => items.mapM Format.read?
    | _ => none

instance {α : Type} [Format α] : Format (Option α) where
  write
    | some a => Format.write a
    | none => .null
  read?
    | .null => some none
    | r => (Format.read? r).map some

/-- The entry of a map that a member of an object holds. -/
def readEntry? {α : Type} [Format α] (m : Option String × Reading) : Option (String × α) := do
  let name ← m.1
  let a ← Format.read? m.2
  some (name, a)

/-- A map is an object; of members with one name the last one counts. -/
instance {α : Type} [Format α] : Format (TextMap α) where
  write m := .object (m.entries.map fun e => (e.1, Format.write e.2))
  read?
    | .object members => (members.mapM readEntry?).map TextMap.ofList
    | _ => none

/-- The fields of a record that a reading holds, by name. -/
structure Fields where
  found : List (String × Reading)
  /-- Whether the record is written as an array, in which a field without a default must stand. -/
  positional : Bool

namespace Fields

/-- The fields with the given names. An object may hold other members, but no field twice; an
array may not hold more items than there are fields. -/
def ofReading? (names : List String) : Reading → Option Fields
  | .object members => do
    let named ← members.mapM fun m => m.1.map fun name => (name, m.2)
    let found := named.filter fun m => m.1 ∈ names
    if (found.map Prod.fst).Nodup then some ⟨found, false⟩ else none
  | .array items => if items.length ≤ names.length then some ⟨names.zip items, true⟩ else none
  | _ => none

def get? (fs : Fields) (name : String) : Option Reading :=
  (fs.found.find? fun m => m.1 = name).map Prod.snd

variable {α : Type} [Format α]

def required (fs : Fields) (name : String) : Option α := (fs.get? name).bind Format.read?

/-- A field that stands for nothing if an object lacks it. -/
def optional (fs : Fields) (name : String) : Option (Option α) :=
  match fs.get? name with
  | some r => Format.read? r
  | none => if fs.positional then none else some none

def defaulted (fs : Fields) (name : String) (default : α) : Option α :=
  match fs.get? name with
  | some r => Format.read? r
  | none => some default

end Fields

def unitChoice? : Reading → Option String
  | .text t => t
  | .object [(name, .null)] => name
  | _ => none

/-- The name and the content of a choice with content. -/
def choice? : Reading → Option (String × Reading)
  | .object [(some name, content)] => some (name, content)
  | _ => none

end Backfill.Json

namespace Backfill

def FailureCategory.name : FailureCategory → String
  | .store => "store"
  | .position => "position"
  | .signal => "signal"
  | .configuration => "configuration"
  | .serialization => "serialization"
  | .cancellation => "cancellation"
  | .other => "other"

def FailureCategory.ofName? : String → Option FailureCategory
  | "store" => some .store
  | "position" => some .position
  | "signal" => some .signal
  | "configuration" => some .configuration
  | "serialization" => some .serialization
  | "cancellation" => some .cancellation
  | "other" => some .other
  | _ => none

instance : Json.Format FailureCategory where
  write c := .text c.name
  read? r := (Json.unitChoice? r).bind FailureCategory.ofName?

end Backfill
