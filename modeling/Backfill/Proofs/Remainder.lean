import Backfill.Proofs.Selection
import Backfill.Run.Basic

/-! What a run has still to read of tables that do not change: the rows of the current table after the
last key that was read, up to the largest key if it is known, and then all rows of the other tables
in the order of the queue. Of each table only the rows count that its filter lets pass. -/
namespace Backfill
open ChunkQuery

def Ascends (rows : List Row) : Prop := rows.Pairwise fun a b => a.key < b.key

/-- Ascending rows are determined by which rows they are. -/
theorem Ascends.eq_of_mem_iff {rows rows' : List Row} (h : Ascends rows) (h' : Ascends rows')
    (hmem : ∀ row, row ∈ rows ↔ row ∈ rows') : rows = rows' := by
  have hnodup {rows : List Row} (h : Ascends rows) : rows.Nodup :=
    h.imp fun hlt heq => absurd (heq ▸ hlt) (lt_irrefl _)
  have hperm := (List.perm_ext_iff_of_nodup (hnodup h) (hnodup h')).2 hmem
  exact hperm.eq_of_pairwise (fun _ _ _ _ hab hba => absurd hab (not_lt.2 hba.le)) h h'

theorem Ascends.le_last {rows : List Row} {row last : Row} (h : Ascends rows)
    (hlast : rows.getLast? = some last) (hrow : row ∈ rows) : row.key ≤ last.key := by
  obtain ⟨front, rfl⟩ := List.getLast?_eq_some_iff.1 hlast
  rcases List.mem_append.1 hrow with hrow | hrow
  · exact ((List.pairwise_append.1 h).2.2 row hrow last List.mem_cons_self).le
  · exact (List.mem_singleton.1 hrow ▸ le_rfl)

section Remainder
variable (tables : Table → List Row) (admits : String → Row → Bool)

/-- The rows of a table after a key and up to another, as far as a filter lets them pass. -/
def remainder (t : Table) (filter : Option String) (after upTo : Option Key) : List Row :=
  (tables t).filter fun row =>
    after.all (· < row.key) && upTo.all (row.key ≤ ·) && filter.all (admits · row)

/-- The rows of tables that are read one after the other, each with its table. The filter of a table
is dropped when the table is finished. -/
def remainders (filters : TextMap String) : List Table → List (Table × Row)
  | [] => []
  | t :: ts => (remainder tables admits t (filters.get? t.text) none none).map (t, ·) ++
    remainders (filters.erase t.text) ts

/-- What is still to be sent of a run, if `rows` of its current table are held. -/
def Run.plan (r : Run) (rows : List Row) : List (Table × Row) :=
  match r.tables with
  | [] => []
  | t :: ts =>
    (rows ++ remainder tables admits t (r.filters.get? t.text) r.chunk.stop r.chunk.maximum).map
      (t, ·) ++ remainders tables admits (r.filters.erase t.text) ts

end Remainder

section
variable {tables : Table → List Row} {admits : String → Row → Bool} {t : Table}
  {filter : Option String} {after upTo : Option Key} {rows : List Row} {row : Row}

theorem mem_remainder : row ∈ remainder tables admits t filter after upTo ↔ row ∈ tables t ∧
    (∀ a, after = some a → a < row.key) ∧ (∀ m, upTo = some m → row.key ≤ m) ∧
      ∀ f, filter = some f → admits f row = true := by
  simp only [remainder, List.mem_filter, Bool.and_eq_true, Option.all_eq_true, decide_eq_true_eq,
    and_assoc]

theorem ascends_remainder (h : Ascends (tables t)) :
    Ascends (remainder tables admits t filter after upTo) := h.sublist List.filter_sublist

theorem mem_remainder_iff_asks {q : ChunkQuery} (h : Ascends (tables q.table)) :
    row ∈ remainder tables admits q.table q.filter q.after q.upTo ↔
      contentsOf (tables q.table) row.key = some row.data ∧
        q.Asks (fun f row => admits f row = true) row := by
  rw [mem_remainder, contentsOf_eq_some h]
  exact and_congr_right fun _ => ⟨fun ⟨ha, hu, hf⟩ => ⟨ha, hu, hf⟩,
    fun hasked => ⟨hasked.after, hasked.upTo, hasked.filter⟩⟩

/-- If a query with a limit finds no row, none is left. -/
theorem remainder_of_not_found {q : ChunkQuery} (h : Ascends (tables q.table))
    (hrows : q.FirstRows (fun f row => admits f row = true) (contentsOf (tables q.table)) [])
    (hlimit : 0 < q.limit) : remainder tables admits q.table q.filter q.after q.upTo = [] := by
  refine List.eq_nil_iff_forall_not_mem.2 fun row hrow => ?_
  obtain ⟨hstored, hasked⟩ := (mem_remainder_iff_asks h).1 hrow
  exact hrows.not_asked hlimit hstored hasked

/-- The rows that a query finds are the first of what is left. -/
theorem remainder_of_found {q : ChunkQuery} {last : Row} (h : Ascends (tables q.table))
    (hrows : q.FirstRows (fun f row => admits f row = true) (contentsOf (tables q.table)) rows)
    (hlast : rows.getLast? = some last) :
    remainder tables admits q.table q.filter q.after q.upTo =
      rows ++ remainder tables admits q.table q.filter (some last.key) q.upTo := by
  have hmem : last ∈ rows := List.mem_of_getLast? hlast
  have hafter : ∀ a, q.after = some a → a < last.key := (hrows.asked last hmem).after
  have hascends : Ascends (rows ++ remainder tables admits q.table q.filter (some last.key) q.upTo) := by
    refine List.pairwise_append.2 ⟨hrows.ascending, ascends_remainder h, fun row hrow row' hrow' => ?_⟩
    exact (Ascends.le_last hrows.ascending hlast hrow).trans_lt ((mem_remainder.1 hrow').2.1 _ rfl)
  refine (ascends_remainder h).eq_of_mem_iff hascends fun row => ?_
  rw [mem_remainder_iff_asks h, List.mem_append]
  constructor
  · rintro ⟨hstored, hasked⟩
    by_cases hle : row.key ≤ last.key
    · exact .inl (hrows.mem_of_le hstored hasked hmem hle)
    · exact .inr (mem_remainder.2 ⟨(contentsOf_eq_some h row).1 hstored,
        fun a ha => Option.some.inj ha ▸ not_le.1 hle, hasked.upTo, hasked.filter⟩)
  · rintro (hrow | hrow)
    · exact ⟨hrows.stored row hrow, hrows.asked row hrow⟩
    · obtain ⟨hstored, hlt, hupTo, hfilter⟩ := mem_remainder.1 hrow
      exact ⟨(contentsOf_eq_some h row).2 hstored, fun a ha => (hafter a ha).trans (hlt _ rfl), hupTo,
        hfilter⟩

theorem remainder_of_vacant (h : (tables t).getLast? = none) :
    remainder tables admits t filter after upTo = [] := by
  simp [remainder, List.getLast?_eq_none_iff.1 h]

theorem remainder_of_largest {last : Row} (h : Ascends (tables t))
    (hlast : (tables t).getLast? = some last) :
    remainder tables admits t filter after (some last.key) =
      remainder tables admits t filter after none := by
  refine List.filter_congr fun row hrow => ?_
  have hle : row.key ≤ last.key := h.le_last hlast hrow
  simp [hle]

theorem mem_of_mem_remainders {filters : TextMap String} {ts : List Table} {x : Table × Row}
    (h : x ∈ remainders tables admits filters ts) : x.1 ∈ ts := by
  induction ts generalizing filters with
  | nil => exact absurd h List.not_mem_nil
  | cons u us ih =>
    rcases List.mem_append.1 h with h | h
    · obtain ⟨row, -, rfl⟩ := List.mem_map.1 h
      exact List.mem_cons_self
    · exact List.mem_cons_of_mem _ (ih h)

def rowsOf (t : Table) (xs : List (Table × Row)) : List Row :=
  (xs.filter fun x => x.1 = t).map Prod.snd

theorem rowsOf_map_append {u : Table} {xs : List (Table × Row)} (hxs : ∀ x ∈ xs, x.1 ≠ u) :
    rowsOf t (rows.map (u, ·) ++ xs) = if u = t then rows else rowsOf t xs := by
  have hmap : (rows.map (u, ·)).filter (fun x => x.1 = t) = if u = t then rows.map (u, ·) else [] := by
    split <;> rename_i hu <;> simp [List.filter_map, Function.comp_def, hu]
  rw [rowsOf, List.filter_append, hmap]
  split
  · rename_i hu
    have hnone : xs.filter (fun x => x.1 = t) = [] :=
      List.filter_eq_nil_iff.2 fun x hx => by simpa using hu ▸ hxs x hx
    simp [hnone]
  · rfl

/-- Each table that is queued once is read once, in ascending order. -/
theorem ascends_remainders (h : ∀ t, Ascends (tables t)) {filters : TextMap String}
    {ts : List Table} (hts : ts.Nodup) :
    Ascends (rowsOf t (remainders tables admits filters ts)) := by
  induction ts generalizing filters with
  | nil => exact .nil
  | cons u us ih =>
    obtain ⟨hu, hus⟩ := List.nodup_cons.1 hts
    have hothers : ∀ x ∈ remainders tables admits (filters.erase u.text) us, x.1 ≠ u :=
      fun x hx hxu => hu (hxu ▸ mem_of_mem_remainders hx)
    rw [remainders, rowsOf_map_append hothers]
    split
    · exact ascends_remainder (h u)
    · exact ih hus

theorem Run.plan_of_tables {r : Run} {ts : List Table} (ht : r.tables = t :: ts)
    (rows : List Row) : r.plan tables admits rows =
      (rows ++ remainder tables admits t (r.filters.get? t.text) r.chunk.stop r.chunk.maximum).map
        (t, ·) ++ remainders tables admits (r.filters.erase t.text) ts := by
  rw [plan, ht]

theorem Run.plan_append {r : Run} {ts : List Table} (ht : r.tables = t :: ts) (rows : List Row) :
    r.plan tables admits rows = rows.map (t, ·) ++ r.plan tables admits [] := by
  rw [r.plan_of_tables ht, r.plan_of_tables ht, List.map_append, List.nil_append, List.append_assoc]

/-- When nothing is left of the current table, the tables after it are all there is. -/
theorem Run.plan_nextTable {r : Run} {ts : List Table} (ht : r.tables = t :: ts) (now : Int64)
    (hover : remainder tables admits t (r.filters.get? t.text) r.chunk.stop r.chunk.maximum = []) :
    (r.nextTable now).plan tables admits [] = r.plan tables admits [] := by
  have htail : (r.nextTable now).tables = ts := by simp [nextTable, touch, ht]
  have hfilters : (r.nextTable now).filters = r.filters.erase t.text := by
    simp [nextTable, touch, currentTable, ht]
  rw [r.plan_of_tables ht, hover, ← hfilters]
  cases ts with
  | nil => simp [plan, htail, remainders]
  | cons u us =>
    rw [plan_of_tables htail, remainders]
    rfl

/-- If the rows that are held come before those that are still to be read, each row is sent once. -/
theorem ascends_plan (h : ∀ t, Ascends (tables t)) {r : Run} (hts : r.tables.Nodup)
    (hrows : Ascends rows) (hheld : ∀ row ∈ rows, ∃ k, r.chunk.stop = some k ∧ row.key ≤ k) :
    Ascends (rowsOf t (r.plan tables admits rows)) := by
  rw [Run.plan]
  cases ht : r.tables with
  | nil => exact .nil
  | cons u us =>
    obtain ⟨hu, hus⟩ := List.nodup_cons.1 (ht ▸ hts)
    have hothers : ∀ x ∈ remainders tables admits (r.filters.erase u.text) us, x.1 ≠ u :=
      fun x hx hxu => hu (hxu ▸ mem_of_mem_remainders hx)
    rw [rowsOf_map_append hothers]
    split
    · refine List.pairwise_append.2 ⟨hrows, ascends_remainder (h u), fun row hrow row' hrow' => ?_⟩
      obtain ⟨k, hk, hle⟩ := hheld row hrow
      exact hle.trans_lt ((mem_remainder.1 hrow').2.1 k hk)
    · exact ascends_remainders h hus

/-- Tables that are written differently keep their filters until they are read. -/
theorem remainders_of_nodup {filters : TextMap String} {ts : List Table}
    (hts : (ts.map Table.text).Nodup) : remainders tables admits filters ts =
      ts.flatMap fun t => (remainder tables admits t (filters.get? t.text) none none).map (t, ·) := by
  induction ts generalizing filters with
  | nil => rfl
  | cons u us ih =>
    rw [List.map_cons, List.nodup_cons] at hts
    rw [remainders, ih hts.2, List.flatMap_cons]
    refine congrArg _ (List.flatMap_congr fun t ht => ?_)
    have hother : t.text ≠ u.text := fun heq => hts.1 (heq ▸ List.mem_map_of_mem ht)
    rw [TextMap.get?_erase, if_neg hother]

end
end Backfill
