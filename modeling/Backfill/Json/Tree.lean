import Backfill.Json.Number
import Backfill.Text.Map

/-! JSON documents as trees. A tree is generic in what stands for a string and for a number: a
document that is written holds texts and numbers, and a document that was read may hold literals
that denote none. -/
namespace Backfill.Json

/-- A document whose strings and member names are of type `τ` and whose numbers are of type `ν`.
Members keep their order. -/
inductive Tree (τ ν : Type) where
  | null
  | bool (b : Bool)
  | number (n : ν)
  | text (t : τ)
  | array (items : List (Tree τ ν))
  | object (members : List (τ × Tree τ ν))

instance {τ ν : Type} : Inhabited (Tree τ ν) := ⟨.null⟩

end Backfill.Json

namespace Backfill

abbrev Json := Json.Tree String Json.Number

/-- What a JSON text says before its form is checked: members in the order written, repeated ones
included, `none` for a string literal with half of a surrogate pair, which denotes no text, and
`none` for a number literal beyond all binary numbers. -/
abbrev Json.Reading := Json.Tree (Option String) (Option Json.Number)

namespace Json

def int (n : Int) : Json := .number (.int n)

def nat (n : Nat) : Json := int n

def depthLimit : Nat := 127

mutual
/-- The value that a reading denotes, if all its literals denote something and it nests at most
`depth` levels. Members are sorted by name; of members with one name the last one counts. -/
def ofReading? (depth : Nat) : Reading → Option Json
  | .null => some .null
  | .bool b => some (.bool b)
  | .number n => n.map .number
  | .text t => t.map .text
  | .array items =>
    match depth with
    | 0 => none
    | depth + 1 => (itemsOfReading? depth items).map .array
  | .object members =>
    match depth with
    | 0 => none
    | depth + 1 =>
      (membersOfReading? depth members).map fun ms => .object (TextMap.ofList ms).entries
def itemsOfReading? (depth : Nat) : List Reading → Option (List Json)
  | [] => some []
  | r :: rs => do
    let j ← ofReading? depth r
    let js ← itemsOfReading? depth rs
    some (j :: js)
def membersOfReading? (depth : Nat) :
    List (Option String × Reading) → Option (List (String × Json))
  | [] => some []
  | (k, r) :: rs => do
    let k ← k
    let j ← ofReading? depth r
    let js ← membersOfReading? depth rs
    some ((k, j) :: js)
end

end Json
end Backfill
