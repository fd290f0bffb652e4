import Backfill.Proofs.Forms
import Backfill.Row.Basic

/-! What the forms of rows, changes and records lose. Data with integer numbers is read as itself from
where it was written, whatever it holds and up to the depth that a reader follows. But a field for
data that may be missing has one form for missing data and for data that is null. -/
namespace Backfill
open Json

namespace Json

/-- Data that nests at most so many levels, with integers of 64 bits for numbers. An object has one
member of each name, sorted by name. -/
inductive IsData : Nat → Json → Prop
  | null {depth : Nat} : IsData depth .null
  | bool {depth : Nat} (b : Bool) : IsData depth (.bool b)
  | int {depth : Nat} {n : Int} (low : -0x8000000000000000 ≤ n) (high : n < UInt64.size) :
      IsData depth (.number (.int n))
  | text {depth : Nat} (t : String) : IsData depth (.text t)
  | array {depth : Nat} {items : List Json} (data : ∀ j ∈ items, IsData depth j) :
      IsData (depth + 1) (.array items)
  | object {depth : Nat} {m : TextMap Json} (data : ∀ e ∈ m.entries, IsData depth e.2) :
      IsData (depth + 1) (.object m.entries)

variable {depth : Nat} {j : Json}

theorem IsData.rereads (h : IsData depth j) : Rereads j := by
  induction h with
  | null | bool | text => exact trivial
  | int low high => exact isWord_integer low high
  | array _ ih => exact itemsReread_iff.2 ih
  | object _ ih => exact membersReread_iff.2 ih

theorem itemsOfReading?_readings {js : List Json}
    (h : ∀ j ∈ js, ofReading? depth (reading j) = some j) :
    itemsOfReading? depth (readings js) = some js := by
  induction js with
  | nil => rfl
  | cons j js ih =>
    have hj := h j List.mem_cons_self
    have hjs := ih fun k hk => h k (List.mem_cons_of_mem _ hk)
    simp only [readings, itemsOfReading?, hj, hjs, Option.bind_eq_bind, Option.bind_some]

theorem membersOfReading?_memberReadings {ms : List (String × Json)}
    (h : ∀ m ∈ ms, ofReading? depth (reading m.2) = some m.2) :
    membersOfReading? depth (memberReadings ms) = some ms := by
  induction ms with
  | nil => rfl
  | cons m ms ih =>
    have hm := h m List.mem_cons_self
    have hms := ih fun k hk => h k (List.mem_cons_of_mem _ hk)
    simp only [memberReadings, membersOfReading?, hm, hms, Option.bind_eq_bind, Option.bind_some]

theorem IsData.ofReading?_reading (h : IsData depth j) : ofReading? depth (reading j) = some j := by
  induction h with
  | null | bool | text | int => rfl
  | array _ ih => rw [reading, ofReading?, itemsOfReading?_readings ih, Option.map_some]
  | @object depth m _ ih =>
    rw [reading, ofReading?, membersOfReading?_memberReadings ih, Option.map_some, m.ofList_entries]

/-- The depth to which the data of a record may nest: the record takes one level. -/
def dataDepth : Nat := depthLimit - 1

/-- Data that may be missing, as it is found again: null data is found missing. -/
def found : Option Json → Option Json
  | some .null => none
  | data => data

theorem found_eq_self_iff {data : Option Json} : found data = data ↔ data ≠ some .null := by
  unfold found
  split
  · simp
  · rename_i hnull
    exact iff_of_true rfl hnull

theorem read?_reading_data {data : Option Json} (h : ∀ j ∈ data, IsData dataDepth j) :
    Format.read? (reading (Format.write data)) = some (found data) := by
  cases data with
  | none => rfl
  | some j =>
    have hread : ofReading? dataDepth (reading j) = some j := (h j rfl).ofReading?_reading
    cases j with
    | null => rfl
    | _ => exact congrArg (Option.map some) hread

theorem rereads_data {data : Option Json} (h : ∀ j ∈ data, IsData dataDepth j) :
    Rereads (Format.write data) := by
  cases data with
  | none => exact trivial
  | some j => exact (h j rfl).rereads

end Json

instance : LawfulFormat Operation where
  rereads _ := trivial
  read_write o := by cases o <;> rfl

theorem Row.parse_render {row : Row} (h : IsData dataDepth row.data) :
    parse (render row) = .ok row := by
  have hdata : Format.read? (reading (Format.write row.data)) = some row.data :=
    h.ofReading?_reading
  refine parse_render_of_read ⟨LawfulFormat.rereads row.key, h.rereads, trivial⟩ ?_
  refine Option.bind_eq_some_iff.2 ⟨_, Fields.ofReading?_object (by simp), ?_⟩
  simp [Fields.required, Fields.get?, LawfulFormat.read_write, hdata]

theorem Change.parse_render {change : Change} (h : ∀ j ∈ change.after, IsData dataDepth j) :
    parse (render change) = .ok { change with after := found change.after } := by
  refine parse_render_of_read ⟨LawfulFormat.rereads change.table,
    LawfulFormat.rereads change.operation, LawfulFormat.rereads change.key, rereads_data h, trivial⟩ ?_
  refine Option.bind_eq_some_iff.2 ⟨_, Fields.ofReading?_object (by simp), ?_⟩
  simp [Fields.required, Fields.optional, Fields.get?, LawfulFormat.read_write, read?_reading_data h]

theorem Record.parse_render {record : Record} (h : ∀ j ∈ record.data, IsData dataDepth j) :
    parse (render record) = .ok { record with data := found record.data } := by
  refine parse_render_of_read ⟨LawfulFormat.rereads record.operation,
    LawfulFormat.rereads record.key, rereads_data h, trivial⟩ ?_
  refine Option.bind_eq_some_iff.2 ⟨_, Fields.ofReading?_object (by simp), ?_⟩
  simp [Fields.required, Fields.optional, Fields.get?, LawfulFormat.read_write, read?_reading_data h]

/-- Only a record with null data is not found again. -/
theorem Record.parse_render_iff {record : Record} (h : ∀ j ∈ record.data, IsData dataDepth j) :
    parse (render record) = .ok record ↔ record.data ≠ some .null := by
  rw [parse_render h, Except.ok.injEq, ← found_eq_self_iff]
  exact ⟨congrArg Record.data, fun hfound => by rw [hfound]⟩

theorem Change.parse_render_iff {change : Change} (h : ∀ j ∈ change.after, IsData dataDepth j) :
    parse (render change) = .ok change ↔ change.after ≠ some .null := by
  rw [parse_render h, Except.ok.injEq, ← found_eq_self_iff]
  exact ⟨congrArg Change.after, fun hfound => by rw [hfound]⟩

/-- A row is parsed as itself from what was rendered of it, whatever its key and its data. A change
and a record are parsed with all they hold but null data, which they are parsed without. So a record
is found again, be it that of a row, that of a change or any other, just if its data is not null. -/
theorem Record.parse_render_rows {row : Row} {change : Change} {record : Record}
    (hrow : IsData dataDepth row.data) (hchange : ∀ j ∈ change.after, IsData dataDepth j)
    (hrecord : ∀ j ∈ record.data, IsData dataDepth j) :
    (parse (render row) = .ok row ∧
      (parse (render row.record) = .ok row.record ↔ row.data ≠ .null)) ∧
    (parse (render change) = .ok { change with after := found change.after } ∧
      (parse (render change) = .ok change ↔ change.after ≠ some .null) ∧
      (parse (render change.record) = .ok change.record ↔ change.after ≠ some .null)) ∧
    parse (render record) = .ok { record with data := found record.data } ∧
      (parse (render record) = .ok record ↔ record.data ≠ some .null) := by
  have hrowRecord : ∀ j ∈ row.record.data, IsData dataDepth j := fun j hj =>
    Option.some.inj hj ▸ hrow
  have hchangeRecord : ∀ j ∈ change.record.data, IsData dataDepth j := hchange
  refine ⟨⟨row.parse_render hrow, ?_⟩, ⟨Change.parse_render hchange,
    Change.parse_render_iff hchange, parse_render_iff hchangeRecord⟩, parse_render hrecord,
    parse_render_iff hrecord⟩
  refine (parse_render_iff hrowRecord).trans (not_congr ⟨fun hnull => ?_, fun hnull => ?_⟩)
  · exact Option.some.inj hnull
  · exact congrArg some hnull

namespace Rehearsal

def nested : Json :=
  .object ((TextMap.empty.insert "b" (.array [.null, int (-1)])).insert "a\\n" (.text "\\")).entries

theorem nested_isData : IsData dataDepth nested := by
  have hentries {m : TextMap Json} {name : String} {j : Json} {depth : Nat}
      (hm : ∀ e ∈ m.entries, IsData depth e.2) (hj : IsData depth j) :
      ∀ e ∈ (m.insert name j).entries, IsData depth e.2 := by
    intro e he
    rcases TextMap.mem_insertEntry he with rfl | he
    · exact hj
    · exact hm e he
  have hitems : ∀ j ∈ [.null, int (-1)], IsData 124 j := by
    intro j hj
    simp only [List.mem_cons, List.not_mem_nil, or_false] at hj
    rcases hj with rfl | rfl
    · exact .null
    · exact .int (by decide) (by decide)
  exact .object (hentries (hentries (List.forall_mem_nil _) (.array hitems)) (.text _))

theorem nested_parse_render :
    parse (render (Row.mk ⟨[.bytes [0, 255]]⟩ nested)) = .ok (Row.mk ⟨[.bytes [0, 255]]⟩ nested) ∧
    parse (render (Row.mk ⟨[.null]⟩ nested).record) = .ok (Row.mk ⟨[.null]⟩ nested).record ∧
    parse (render (Change.mk ⟨"d", ""⟩ .update ⟨[.text "k"]⟩ (some nested))) =
      .ok (Change.mk ⟨"d", ""⟩ .update ⟨[.text "k"]⟩ (some nested)) ∧
    parse (render (Record.mk .delete ⟨[]⟩ none)) = .ok (Record.mk .delete ⟨[]⟩ none) := by
  have hrow (key : Key) : IsData dataDepth (Row.mk key nested).data := nested_isData
  have hupdate : ∀ j ∈ (Change.mk ⟨"d", ""⟩ .update ⟨[.text "k"]⟩ (some nested)).after,
      IsData dataDepth j := fun j hj => Option.some.inj hj ▸ nested_isData
  have hdelete : ∀ j ∈ (Record.mk .delete ⟨[]⟩ none).data, IsData dataDepth j := nofun
  obtain ⟨⟨hbytes, -⟩, ⟨-, hchange, -⟩, -, hrecord⟩ :=
    Record.parse_render_rows (hrow ⟨[.bytes [0, 255]]⟩) hupdate hdelete
  obtain ⟨⟨-, hread⟩, -⟩ := Record.parse_render_rows (hrow ⟨[.null]⟩) hupdate hdelete
  exact ⟨hbytes, hread.2 nofun, hchange.2 (by simp [nested]), hrecord.2 nofun⟩

/-- A row with null data is found again, but its record is rendered as one without data. -/
theorem null_parse_render :
    parse (render (Row.mk ⟨[.int 1]⟩ .null)) = .ok (Row.mk ⟨[.int 1]⟩ .null) ∧
    (Row.mk ⟨[.int 1]⟩ .null).record.data = some .null ∧
    render (Row.mk ⟨[.int 1]⟩ .null).record = render (Record.mk .read ⟨[.int 1]⟩ none) ∧
    parse (render (Row.mk ⟨[.int 1]⟩ .null).record) = .ok (Record.mk .read ⟨[.int 1]⟩ none) ∧
    parse (render (Row.mk ⟨[.int 1]⟩ .null).record) ≠ .ok (Row.mk ⟨[.int 1]⟩ .null).record := by
  have hnull : ∀ j ∈ (Row.mk ⟨[.int 1]⟩ .null).record.data, IsData dataDepth j := fun j hj =>
    Option.some.inj hj ▸ .null
  have hread := Record.parse_render hnull
  refine ⟨Row.parse_render .null, rfl, rfl, hread, fun hsame => ?_⟩
  exact (Record.parse_render_iff hnull).1 hsame rfl

end Rehearsal
end Backfill
