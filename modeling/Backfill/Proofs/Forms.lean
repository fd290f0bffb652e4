import Backfill.Proofs.Rereading
import Backfill.Run.Format

/-! Forms of types that lose nothing: what is written of a value is read as the value. -/
namespace Backfill
open Json

namespace Json

/-- A form in which every value is found again. -/
class LawfulFormat (α : Type) [Format α] : Prop where
  rereads : ∀ a : α, Rereads (Format.write a)
  read_write : ∀ a : α, Format.read? (reading (Format.write a)) = some a

variable {α : Type} [Format α]

/-- A value is parsed as what is read where it was written. -/
theorem parse_render_of_read {a b : α} (hrereads : Rereads (Format.write a))
    (hread : Format.read? (reading (Format.write a)) = some b) : parse (render a) = .ok b := by
  rw [parse, render, read_print hrereads, Option.bind_some, hread]

theorem parse_render [LawfulFormat α] (a : α) : parse (render a) = .ok a :=
  parse_render_of_read (LawfulFormat.rereads a) (LawfulFormat.read_write a)

theorem rereads_int {n : Int} (h : -0x8000000000000000 ≤ n) (h' : n < UInt64.size) :
    Rereads (int n) := by
  rw [int, Rereads]
  exact isWord_integer h h'

theorem integer?_reading_int {low high n : Int} (h : low ≤ n) (h' : n ≤ high) :
    integer? low high (reading (int n)) = some n := by
  simp [int, reading, integer?, h, h']

instance : LawfulFormat UInt64 where
  rereads n := by
    have hn := n.toNat_lt
    exact rereads_int (by omega) (by simp only [UInt64.size]; omega)
  read_write n := by
    have hn := n.toNat_lt
    change (integer? 0 0xFFFFFFFFFFFFFFFF (reading (int n.toNat))).map _ = _
    rw [integer?_reading_int (by omega) (by omega)]
    simp

instance : LawfulFormat UInt8 where
  rereads n := by
    have hn := n.toNat_lt
    exact rereads_int (by omega) (by simp only [UInt64.size]; omega)
  read_write n := by
    have hn := n.toNat_lt
    change (integer? 0 255 (reading (int n.toNat))).map _ = _
    rw [integer?_reading_int (by omega) (by omega)]
    simp

instance : LawfulFormat Int64 where
  rereads n := by
    have hlow := n.le_toInt
    have hhigh := n.toInt_lt
    exact rereads_int (by omega) (by simp only [UInt64.size]; omega)
  read_write n := by
    have hlow := n.le_toInt
    have hhigh := n.toInt_lt
    change (integer? (-0x8000000000000000) 0x7FFFFFFFFFFFFFFF (reading (int n.toInt))).map _ = _
    rw [integer?_reading_int (by omega) (by omega)]
    simp

instance : LawfulFormat Bool where
  rereads _ := trivial
  read_write _ := rfl

instance : LawfulFormat String where
  rereads _ := trivial
  read_write _ := rfl

instance [LawfulFormat α] : LawfulFormat (List α) where
  rereads as := by
    change Rereads (.array (as.map Format.write))
    rw [Rereads, itemsReread_iff]
    intro j hj
    obtain ⟨a, -, rfl⟩ := List.mem_map.1 hj
    exact LawfulFormat.rereads a
  read_write as := by
    change (readings (as.map Format.write)).mapM Format.read? = some as
    rw [readings_eq_map]
    induction as with
    | nil => rfl
    | cons a as ih =>
      simp only [List.map_cons, List.mapM_cons, LawfulFormat.read_write, ih]
      rfl

/-- A value that is never null may be missing. -/
theorem LawfulFormat.option [LawfulFormat α] (h : ∀ a : α, Format.write a ≠ .null) :
    LawfulFormat (Option α) where
  rereads
    | none => trivial
    | some a => LawfulFormat.rereads a
  read_write
    | none => rfl
    | some a => by
      have hread : (Format.read? (reading (Format.write a))).map some = some (some a) := by
        rw [LawfulFormat.read_write]
        rfl
      change Format.read? (reading (Format.write a)) = some (some a)
      cases hw : Format.write a with
      | null => exact absurd hw (h a)
      | _ =>
        rw [hw] at hread
        exact hread

end Json

theorem TextMap.ofList_entries {β : Type} (m : TextMap β) : ofList m.entries = m := by
  have hlast (k : String) (v : β) (es : List (String × β)) (h : ∀ e ∈ es, e.1 < k) :
      insertEntry k v es = es ++ [(k, v)] := by
    induction es with
    | nil => rfl
    | cons e es ih =>
      have he := h e List.mem_cons_self
      have hlt : ¬ k < e.1 := fun hk => String.lt_irrefl k (String.lt_trans hk he)
      have hne : k ≠ e.1 := fun hk => String.lt_irrefl k (hk ▸ he)
      rw [insertEntry, if_neg hlt, if_neg hne, ih fun e he => h e (List.mem_cons_of_mem _ he),
        List.cons_append]
  have hfold (es : List (String × β)) (n : TextMap β)
      (h : (n.entries ++ es).Pairwise fun a b => a.1 < b.1) :
      (es.foldl (fun m e => m.insert e.1 e.2) n).entries = n.entries ++ es := by
    induction es generalizing n with
    | nil => simp
    | cons e es ih =>
      have hn : (n.insert e.1 e.2).entries = n.entries ++ [e] :=
        hlast _ _ _ fun d hd => (List.pairwise_append.1 h).2.2 d hd e List.mem_cons_self
      rw [List.foldl_cons, ih _ (by rw [hn]; simpa using h), hn]
      simp
  exact ext (hfold m.entries empty m.sorted)

namespace Json
variable {α : Type} [Format α] [LawfulFormat α]

instance : LawfulFormat (TextMap α) where
  rereads m := by
    change Rereads (.object (m.entries.map fun e => (e.1, Format.write e.2)))
    rw [Rereads, membersReread_iff]
    intro e he
    obtain ⟨e, -, rfl⟩ := List.mem_map.1 he
    exact LawfulFormat.rereads e.2
  read_write m := by
    have hread (es : List (String × α)) :
        (memberReadings (es.map fun e => (e.1, Format.write e.2))).mapM readEntry? = some es := by
      induction es with
      | nil => rfl
      | cons e es ih =>
        have hentry : readEntry? (some e.1, reading (Format.write e.2)) = some e := by
          simp [LawfulFormat.read_write, readEntry?]
        rw [List.map_cons, memberReadings, List.mapM_cons, hentry, ih]
        rfl
    change ((memberReadings (m.entries.map fun e => (e.1, Format.write e.2))).mapM readEntry?).map
      TextMap.ofList = some m
    rw [hread, Option.map_some, m.ofList_entries]

end Json

/-- An object with all fields of a record, in order, holds what was written of them. -/
theorem Json.Fields.ofReading?_object {ms : List (String × Json)} (h : (ms.map Prod.fst).Nodup) :
    Fields.ofReading? (ms.map Prod.fst) (reading (.object ms)) =
      some ⟨ms.map fun m => (m.1, reading m.2), false⟩ := by
  have hnamed : (memberReadings ms).mapM (fun m => m.1.map fun name => (name, m.2)) =
      some (ms.map fun m => (m.1, reading m.2)) := by
    clear h
    induction ms with
    | nil => rfl
    | cons m ms ih =>
      rw [memberReadings, List.mapM_cons, ih]
      rfl
  have hfound : (ms.map fun m => (m.1, reading m.2)).filter (fun m => m.1 ∈ ms.map Prod.fst) =
      ms.map fun m => (m.1, reading m.2) := by
    refine List.filter_eq_self.2 fun found hfound => ?_
    obtain ⟨m, hm, rfl⟩ := List.mem_map.1 hfound
    exact decide_eq_true (List.mem_map_of_mem hm)
  have hnames : ((ms.map fun m => (m.1, reading m.2)).map Prod.fst).Nodup := by
    rw [List.map_map]
    exact h
  rw [reading, ofReading?, hnamed]
  simp only [Option.bind_eq_bind, Option.bind_some, hfound, hnames, if_true]

instance : LawfulFormat Table where
  rereads _ := ⟨trivial, trivial, trivial⟩
  read_write t := by
    refine Option.bind_eq_some_iff.2 ⟨_, Fields.ofReading?_object (by simp), ?_⟩
    simp [Fields.required, Fields.get?, reading, Format.read?]

instance : LawfulFormat KeyPart where
  rereads
    | .null => trivial
    | .int n => ⟨LawfulFormat.rereads n, trivial⟩
    | .text _ => ⟨trivial, trivial⟩
    | .bytes bs => ⟨LawfulFormat.rereads bs, trivial⟩
  read_write
    | .null => rfl
    | .int n => congrArg (Option.map KeyPart.int) (LawfulFormat.read_write n)
    | .text _ => rfl
    | .bytes bs => congrArg (Option.map KeyPart.bytes) (LawfulFormat.read_write bs)

instance : LawfulFormat Key where
  rereads k := LawfulFormat.rereads k.parts
  read_write k := congrArg (Option.map Key.mk) (LawfulFormat.read_write k.parts)

theorem Key.write_ne_null (k : Key) : Format.write k ≠ .null := nofun

instance : LawfulFormat (Option Key) := .option Key.write_ne_null

instance : LawfulFormat (Option UInt64) := .option nofun

instance : LawfulFormat WindowMode where
  rereads _ := trivial
  read_write m := by cases m <;> rfl

instance : LawfulFormat ChunkProgress where
  rereads c := ⟨LawfulFormat.rereads c.sequence, LawfulFormat.rereads c.start,
    LawfulFormat.rereads c.stop, LawfulFormat.rereads c.maximum, LawfulFormat.rereads c.lastSent,
    trivial⟩
  read_write c := by
    refine Option.bind_eq_some_iff.2 ⟨_, Fields.ofReading?_object (by simp), ?_⟩
    simp [Fields.required, Fields.optional, Fields.get?, LawfulFormat.read_write]

namespace Run

/-- The watermarks of a run stand in its document as texts. -/
theorem rereads_write (r : Run) : Rereads (Format.write r) := by
  have hmark (mark : Option PositionSet) : Rereads (Format.write mark) := by
    cases mark <;> exact trivial
  exact ⟨trivial, LawfulFormat.rereads r.tables, LawfulFormat.rereads r.filters,
    LawfulFormat.rereads r.chunk, LawfulFormat.rereads r.mode,
    ⟨hmark r.watermarks.low, hmark r.watermarks.high, trivial⟩,
    LawfulFormat.rereads r.commandOffset, trivial, LawfulFormat.rereads r.startedAt,
    LawfulFormat.rereads r.lastActivity, trivial⟩

theorem read?_reading_write (r : Run) : Format.read? (reading (Format.write r)) =
    (Format.read? (reading (Format.write r.watermarks))).map fun watermarks =>
      { r with watermarks } := by
  have hid : Format.read? (reading (.text r.id)) = some r.id := rfl
  have hpaused : Format.read? (reading (.bool r.paused)) = some r.paused :=
    LawfulFormat.read_write r.paused
  refine (congrArg (Option.bind · _) (Fields.ofReading?_object (by simp [Format.write]))).trans ?_
  simp only [Option.map_eq_bind, Function.comp_def]
  simp [Fields.required, Fields.optional, Fields.defaulted, Fields.get?, LawfulFormat.read_write,
    hid, hpaused]

/-- A run whose document is read can be restored if its watermarks can, and apart from these it is
the same. -/
theorem restore_of_read {s : String} {r : Run} (h : Json.read s = some (reading (Format.write r))) :
    restore s =
      match Format.read? (reading (Format.write r.watermarks)) with
      | some watermarks => .ok { r with watermarks }
      | none => .error .json := by
  rw [restore, parse, h, Option.bind_some, read?_reading_write]
  cases (Format.read? (reading (Format.write r.watermarks)) : Option Watermarks) <;> rfl

theorem restore_persist (r : Run) : restore r.persist =
    match Format.read? (reading (Format.write r.watermarks)) with
    | some watermarks => .ok { r with watermarks }
    | none => .error .json :=
  restore_of_read (read_print r.rereads_write)

/-- The tables and the progress of a run are not lost when it is persisted. -/
theorem of_restore_persist {r r' : Run} (h : restore r.persist = .ok r') :
    ∃ watermarks, r' = { r with watermarks } := by
  rw [restore_persist] at h
  split at h
  · exact ⟨_, (Except.ok.inj h).symm⟩
  · exact absurd h (by simp)

/-- A run handed on, as it is or as its document, keeps the chunk in progress and the queue. -/
theorem chunk_tables_of_handedOn {r r' : Run} (h : r' = r ∨ restore r.persist = .ok r') :
    r'.chunk = r.chunk ∧ r'.tables = r.tables := by
  rcases h with rfl | h
  · exact ⟨rfl, rfl⟩
  · obtain ⟨watermarks, rfl⟩ := of_restore_persist h
    exact ⟨rfl, rfl⟩

end Run
end Backfill
