import Backfill.Json.Format
import Backfill.Text.Blank

/-! Tables by their qualified names. -/
namespace Backfill
open Json (Format Fields)

structure Table where
  database : String
  name : String
deriving DecidableEq, Repr

namespace Table

/-- A table is written `database.name`. -/
def text (t : Table) : String := t.database ++ "." ++ t.name

def malformed (s : String) : Failure :=
  .signal ("table identifier '" ++ s ++ "' is not of the form database.table")

/-- Reads a table. The first dot divides it, so that a table's name may hold dots but a
database's name may not. -/
def parse (s : String) : Except Failure Table :=
  match Text.cutFirst '.' (Text.trim s.toList) with
  | some (d :: database, n :: name) =>
    .ok ⟨String.ofList (d :: database), String.ofList (n :: name)⟩
  | _ => .error (malformed s)

instance : Format Table where
  write t := .object [("database", .text t.database), ("table", .text t.name)]
  read? r := do
    let fs ← Fields.ofReading? ["database", "table"] r
    some ⟨← fs.required "database", ← fs.required "table"⟩

end Table
end Backfill
