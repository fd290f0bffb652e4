import Backfill.Window.Buffer
import Mathlib.Data.List.Nodup

/-! Rows of different keys stay in the buffer in the order in which they came. -/
namespace Backfill.RowBuffer

theorem insertRow_of_forall_ne {row : Row} {rs : List Row} (h : ∀ r ∈ rs, r.key ≠ row.key) :
    insertRow row rs = rs ++ [row] := by
  induction rs with
  | nil => rfl
  | cons r rs ih =>
    have hr := h r List.mem_cons_self
    have hrs := ih fun a ha => h a (List.mem_cons_of_mem _ ha)
    rw [insertRow, if_neg hr, hrs, List.cons_append]

theorem insertAll_rows {b : RowBuffer} {rows : List Row}
    (h : ((b.rows ++ rows).map Row.key).Nodup) : (b.insertAll rows).rows = b.rows ++ rows := by
  induction rows generalizing b with
  | nil => simp [insertAll]
  | cons row rows ih =>
    have hb : (b.insert row).rows = b.rows ++ [row] := by
      refine insertRow_of_forall_ne fun r hr he => ?_
      rw [List.map_append, List.map_cons, List.nodup_append] at h
      exact h.2.2 _ (List.mem_map_of_mem hr) _ List.mem_cons_self he
    have hrows := ih (b := b.insert row) (by rw [hb]; simpa using h)
    rw [hb] at hrows
    change ((b.insert row).insertAll rows).rows = _
    rw [hrows, List.append_assoc, List.singleton_append]

/-- Rows of different keys are held as they came. -/
theorem insertAll_empty {rows : List Row} (h : (rows.map Row.key).Nodup) :
    (empty.insertAll rows).rows = rows :=
  insertAll_rows (b := empty) h

theorem mem_of_mem_insertRow {row r : Row} {rs : List Row} (h : r ∈ insertRow row rs) :
    r = row ∨ r ∈ rs := by
  induction rs with
  | nil => exact .inl (List.mem_singleton.1 h)
  | cons a rs ih =>
    unfold insertRow at h
    split at h
    · exact (List.mem_cons.1 h).imp_right (List.mem_cons_of_mem _)
    · rcases List.mem_cons.1 h with rfl | h
      · exact .inr List.mem_cons_self
      · exact (ih h).imp_right (List.mem_cons_of_mem _)

theorem mem_of_mem_insertAll {b : RowBuffer} {rows : List Row} {r : Row}
    (h : r ∈ (b.insertAll rows).rows) : r ∈ b.rows ∨ r ∈ rows := by
  induction rows generalizing b with
  | nil => exact .inl h
  | cons row rows ih =>
    rcases ih (b := b.insert row) h with h | h
    · rcases mem_of_mem_insertRow h with rfl | h
      · exact .inr List.mem_cons_self
      · exact .inl h
    · exact .inr (List.mem_cons_of_mem _ h)

theorem insertRow_ne_nil (row : Row) (rs : List Row) : insertRow row rs ≠ [] := by
  cases rs with
  | nil => exact List.cons_ne_nil _ _
  | cons r rs =>
    unfold insertRow
    split <;> exact List.cons_ne_nil _ _

theorem insertAll_ne_nil {b : RowBuffer} {rows : List Row} (h : b.rows ≠ [] ∨ rows ≠ []) :
    (b.insertAll rows).rows ≠ [] := by
  induction rows generalizing b with
  | nil => exact h.resolve_right (absurd rfl)
  | cons row rows ih => exact ih (b := b.insert row) (.inl (insertRow_ne_nil row b.rows))

/-- A buffer that took its first rows has the key of one of them last. -/
theorem lastKey?_insertAll {b : RowBuffer} {rows : List Row} (hb : b.rows = []) (hrows : rows ≠ []) :
    ∃ row ∈ rows, (b.insertAll rows).lastKey? = some row.key := by
  have hrow := List.getLast?_eq_some_getLast (insertAll_ne_nil (b := b) (.inr hrows))
  generalize (b.insertAll rows).rows.getLast _ = row at hrow
  have hmem := mem_of_mem_insertAll (List.mem_of_getLast? hrow)
  rw [hb] at hmem
  exact ⟨row, hmem.resolve_left List.not_mem_nil, congrArg (Option.map Row.key) hrow⟩

end Backfill.RowBuffer
