import Backfill.Proofs.Buffer
import Backfill.Proofs.FreshWindow

/-! Which rows are sent when a window closes: those of the last query in their order, without the
ones that were superseded by a change within the high watermark. -/
namespace Backfill
open Procedure Session Environment
variable {σ : Type} {env : Environment σ}

def Session.HoldsAnswer (s : Session (Recorded σ)) : Prop :=
  ∃ q rows, s.queries.getLast? = some (q, rows) ∧
    s.coordinator.buffer = RowBuffer.empty.insertAll rows ∧
    s.coordinator.bufferTable = some q.table ∧ s.coordinator.currentTable = some q.table

theorem Coordinator.currentTable_updateRun {c : Coordinator} {f : Run → Run}
    (h : ∀ r, (f r).tables = r.tables) : (c.updateRun f).currentTable = c.currentTable := by
  simp only [currentTable, updateRun, Option.bind_map]
  exact congrArg c.run.bind (funext fun r => congrArg List.head? (h r))

theorem Coordinator.currentTable_bufferRows (c : Coordinator) (t : Table) (rows : List Row) :
    (c.bufferRows t rows).currentTable = c.currentTable := by
  simp only [bufferRows, currentTable]
  cases (c.buffer.insertAll rows).lastKey? with
  | none => rfl
  | some k => exact currentTable_updateRun fun _ => rfl

private theorem holdsAnswer_move {p q : Phase} {s t : Session (Recorded σ)}
    (h : Move env.recorded p s q t) (hs : s.coordinator.Consistent p)
    (ha : s.coordinator.buffer.rows ≠ [] → s.HoldsAnswer)
    (hrows : t.coordinator.buffer.rows ≠ []) : t.HoldsAnswer := by
  cases h with
  | sent emit | allSent | declined stays => exact absurd hs.rows hrows
  | began reads commit positions commit' begins => exact absurd hs.rows hrows
  | measured run tables unknown maximum | vacant run tables unknown maximum =>
    exact absurd hs.rows hrows
  | exhausted run tables known query | served run tables => exact absurd hs.rows hrows
  | @buffered c w w' r t ts rows run tables known found query =>
    obtain ⟨v, -, rfl⟩ := recorded_query_eq_ok.1 query
    have hempty : c.buffer = RowBuffer.empty := congrArg RowBuffer.mk hs.rows
    refine ⟨c.chunkQuery t, rows, ?_, ?_, rfl, ?_⟩
    · simp [queries, journal, List.filterMap_append, Answer.query?]
    · simp only [Coordinator.bufferRows, hempty]
    · rw [Coordinator.currentTable_bufferRows]
      simp [Coordinator.currentTable, run, Run.currentTable, tables, Coordinator.chunkQuery]
  | kept running positions clear =>
    obtain ⟨v, -, rfl⟩ := recorded_positions_eq_ok.1 positions
    obtain ⟨q, rows, hq, hb, hbt, hcur⟩ := ha hrows
    refine ⟨q, rows, ?_, hb, hbt, ?_⟩
    · simpa [queries, journal, List.filterMap_append, List.filterMap_cons, Answer.query?] using hq
    · refine (Coordinator.currentTable_updateRun ?_).trans hcur
      exact fun _ => rfl
  | reverted running positions ambiguous held => exact absurd rfl hrows
  | completed ended =>
    obtain ⟨q, rows, hq, hb, hbt, hcur⟩ := ha hrows
    refine ⟨q, rows, hq, hb, hbt, (Coordinator.currentTable_updateRun ?_).trans hcur⟩
    exact fun _ => rfl

/-- A stage that reads a chunk begins without rows. -/
theorem rows_of_enters {st : Stage} {p : Phase} {s t : Session (Recorded σ)}
    (h : Enters env.recorded st s p t) (hs : s.coordinator.Consistent .idle)
    (hrows : t.coordinator.buffer.rows ≠ []) : p = .idle ∧ t.captured = s.captured := by
  have ht := (Coordinator.Consistent.enter h hs).rows
  cases h with
  | fresh version accepted positions => exact absurd rfl hrows
  | restored version accepted positions => exact absurd rfl hrows
  | begun run ended | resumed run free => exact absurd ht hrows
  | closed closes | reached reached =>
    rw [Coordinator.flushing_coordinator] at hrows
    exact absurd rfl hrows
  | passed emit =>
    obtain ⟨v, -, rfl⟩ := recorded_emit_eq_ok.1 emit
    exact ⟨rfl, by simp [captured, journal, List.filterMap_cons, Answer.executed?]⟩
  | _ => exact ⟨rfl, rfl⟩

/-- After a stage that captured positions, the rows in the buffer are those of the last query. -/
theorem holdsAnswer_perform {st : Stage} {s s' : Session (Recorded σ)} {u : Unit}
    (h : st.perform env.recorded s = .ok u s') (hs : s.coordinator.Consistent .idle)
    (hread : s'.captured ≠ s.captured) (hrows : s'.coordinator.buffer.rows ≠ []) :
    s'.HoldsAnswer := by
  obtain ⟨p, t, henter, hmoves⟩ := perform_enters h
  have ht := Coordinator.Consistent.enter henter hs
  by_cases hempty : t.coordinator.buffer.rows = []
  · have hkeeps := hmoves.keeps
      (I := fun p t => t.coordinator.Consistent p ∧
        (t.coordinator.buffer.rows ≠ [] → t.HoldsAnswer))
      (fun hmove ⟨hc, ha⟩ => ⟨hc.move hmove, holdsAnswer_move hmove hc ha⟩)
      ⟨ht, fun h => absurd hempty h⟩
    exact hkeeps.2 hrows
  · obtain ⟨rfl, hsame⟩ := rows_of_enters henter hs hempty
    obtain ⟨-, rfl⟩ := hmoves.of_idle
    exact absurd hsame hread

/-- Whether a stage moves the window to a change that supersedes a row of a table: one to the row's
key at a position within the high watermark. -/
def Stage.supersedes (t : Table) (high : PositionSet) (k : Key) : Stage → Bool
  | .place _ e =>
    match e.kind with
    | .change change => change.table = t && change.key = k && e.position.any high.contains
    | _ => false
  | _ => false

/-- Whether a stage leaves a table queued and, if it moves the window to a change, knows its
position. -/
def Stage.Spares (t : Table) : Stage → Prop
  | .stop tables => tables ≠ [] ∧ t ∉ tables
  | .place _ e => ∀ change, e.kind = .change change → e.position.isSome
  | _ => True

/-- A coordinator with rows of a table whose window has not yet ended. -/
structure Coordinator.Awaits (c : Coordinator) (t : Table) (low high : PositionSet)
    (rows : List Row) : Prop where
  window : ∃ mode, c.window = some (mode, ⟨some low, some high⟩)
  current : c.currentTable = some t
  table : c.bufferTable = some t
  rows : c.buffer.rows = rows

theorem RowBuffer.holds_eq_false {b : RowBuffer} {k : Key} (h : b.holds k = false) :
    (b.erase k).rows = b.rows := by
  refine List.filter_eq_self.2 fun row hrow => ?_
  have hne := List.any_eq_false.1 h row hrow
  simpa using hne

theorem Coordinator.deduplicate_rows (c : Coordinator) (change : Change) :
    (c.deduplicate change).buffer.rows =
      if c.currentTable = some change.table then (c.buffer.erase change.key).rows
      else c.buffer.rows := by
  unfold deduplicate
  by_cases ht : c.currentTable = some change.table
  · cases hk : c.buffer.holds change.key with
    | true => simp [ht, count]
    | false => simp [ht, RowBuffer.holds_eq_false hk]
  · simp [ht]

theorem Coordinator.deduplicate_cases (c : Coordinator) (change : Change) :
    c.deduplicate change = c ∨
      c.currentTable = some change.table ∧ c.buffer.holds change.key = true ∧
        c.deduplicate change =
          { c with buffer := c.buffer.erase change.key }.count .rowDeduplicated := by
  unfold deduplicate
  split
  · rename_i hheld
    obtain ⟨htable, hholds⟩ := Bool.and_eq_true_iff.1 hheld
    exact .inr ⟨of_decide_eq_true htable, hholds, rfl⟩
  · exact .inl rfl

theorem Coordinator.moveTo_currentTable (c : Coordinator) (e : Event) :
    (c.moveTo e).currentTable = c.currentTable := by
  rw [currentTable, moveTo_run]
  exact currentTable_updateRun (c := c) fun _ => rfl

theorem Coordinator.moveTo_bufferTable (c : Coordinator) (e : Event) :
    (c.moveTo e).bufferTable = c.bufferTable := by
  have hded (c : Coordinator) (change : Change) :
      (c.deduplicate change).bufferTable = c.bufferTable := by
    unfold deduplicate
    split <;> rfl
  unfold moveTo
  split
  · split
    · exact hded _ _
    · rfl
  · rfl

theorem Coordinator.moveTo_rows_of_change {e : Event} {change : Change}
    (h : e.kind = .change change) (c : Coordinator) : (c.moveTo e).buffer.rows =
      if (c.transition e).deduplicates = true ∧ c.currentTable = some change.table then
        (c.buffer.erase change.key).rows
      else c.buffer.rows := by
  have hcur : (c.updateRun fun r => { r with mode := (r.transition e.position).mode }).currentTable =
      c.currentTable := by
    refine currentTable_updateRun ?_
    exact fun _ => rfl
  simp only [moveTo, h]
  cases (c.transition e).deduplicates with
  | false => simp [updateRun]
  | true =>
    rw [if_pos rfl, deduplicate_rows, hcur]
    simp [updateRun]

theorem Coordinator.moveTo_rows_of_not_change {e : Event} (h : ∀ change, e.kind ≠ .change change)
    (c : Coordinator) : (c.moveTo e).buffer.rows = c.buffer.rows := by
  unfold moveTo
  split
  · rename_i change hk
    exact absurd hk (h change)
  · rfl

/-- A position that does not close a window supersedes rows if it is within the high watermark. -/
theorem Watermarks.deduplicates_eq {low high : PositionSet} {mode : WindowMode} {p : Position}
    (hlow : high.contains p = true → low.contains p = false)
    (h : ((⟨some low, some high⟩ : Watermarks).transition mode (some p)).closes = false) :
    ((⟨some low, some high⟩ : Watermarks).transition mode (some p)).deduplicates =
      high.contains p := by
  cases mode <;> cases hp : high.contains p <;> cases hl : low.contains p <;>
    simp_all [transition, isPast, Transition.closes, Transition.deduplicates]

namespace Coordinator.Awaits
variable {c : Coordinator} {t : Table} {low high : PositionSet} {rows : List Row}

/-- What leaves the window, the queue up to its first table and the rows alone, leaves the
coordinator awaiting the end of the window. -/
private theorem of_eq {c' : Coordinator} (h : c.Awaits t low high rows)
    (hw : c'.window = c.window) (hc : c'.currentTable = c.currentTable)
    (ht : c'.bufferTable = c.bufferTable) (hb : c'.buffer = c.buffer) :
    c'.Awaits t low high rows :=
  ⟨hw ▸ h.window, hc.trans h.current, ht.trans h.table, (congrArg _ hb).trans h.rows⟩

private theorem updateRun (h : c.Awaits t low high rows) (f : Run → Run)
    (hw : ∀ r, ((f r).mode, (f r).watermarks) = (r.mode, r.watermarks))
    (ht : ∀ r, (f r).tables = r.tables) : (c.updateRun f).Awaits t low high rows :=
  h.of_eq (window_updateRun_same hw) (currentTable_updateRun ht) rfl rfl

private theorem exists_run (h : c.Awaits t low high rows) : ∃ r ts mode, c.run = some r ∧
    r.tables = t :: ts ∧ r.mode = mode ∧ r.watermarks = ⟨some low, some high⟩ := by
  obtain ⟨mode, hw⟩ := h.window
  obtain ⟨r, hr, hm⟩ := Option.map_eq_some_iff.1 hw
  obtain ⟨hmode, hmarks⟩ := Prod.mk.inj hm
  have hcur := h.current
  simp only [currentTable, hr, Option.bind_some, Run.currentTable, List.head?_eq_some_iff] at hcur
  obtain ⟨ts, hts⟩ := hcur
  exact ⟨r, ts, mode, hr, hts, hmode, hmarks⟩

private theorem addTables (h : c.Awaits t low high rows) {r : Run} (hr : c.run = some r)
    (now : Int64) (tables : List Table) (filters : TextMap String) :
    Awaits { c with run := some (r.addTables now tables filters) } t low high rows := by
  obtain ⟨r', ts, mode, hr', hts, -, -⟩ := h.exists_run
  obtain rfl := Option.some.inj (hr.symm.trans hr')
  obtain ⟨new, filters', hadd⟩ := r.addTables_eq now tables filters
  rw [hadd]
  refine h.of_eq ?_ ?_ rfl rfl
  · simp only [Coordinator.window, hr, Option.map_some]
  · simp [currentTable, Run.currentTable, hr, hts]

private theorem stopTables (h : c.Awaits t low high rows) (now : Int64) {tables : List Table}
    (hne : tables ≠ []) (ht : t ∉ tables) : (c.stopTables now tables).Awaits t low high rows := by
  obtain ⟨r, ts, mode, hr, hts, -, -⟩ := h.exists_run
  have hrun : r.isRunning = true := by simp [Run.isRunning, hts]
  have hcur : r.isCurrentIn tables = false := by simp [Run.isCurrentIn, Run.currentTable, hts, ht]
  have hemp : tables.isEmpty = false := by simpa using hne
  have hstop : c.stopTables now tables = { c with run := some (r.removeTables now tables) } := by
    simp [Coordinator.stopTables, hr, hrun, hemp, hcur]
  rw [hstop]
  refine h.of_eq ?_ ?_ rfl rfl
  · simp [Coordinator.window, hr, Run.removeTables, Run.touch]
  · simp [currentTable, hr, Run.currentTable, Run.removeTables, Run.touch, hts, ht]

private theorem moveTo (h : c.Awaits t low high rows)
    (hlow : ∀ p, high.contains p = true → low.contains p = false) {rounds : Nat} {e : Event}
    (hstays : (c.transition e).closes = false) (hspares : (Stage.place rounds e).Spares t) :
    (c.moveTo e).Awaits t low high
      (rows.filter fun row => !(Stage.place rounds e).supersedes t high row.key) := by
  obtain ⟨r, ts, mode, hr, hts, hmode, hmarks⟩ := h.exists_run
  have htr : c.transition e =
      (⟨some low, some high⟩ : Watermarks).transition mode e.position := by
    simp [transition, hr, Run.transition, hmode, hmarks]
  have hwindow : ∃ mode', (c.moveTo e).window = some (mode', ⟨some low, some high⟩) :=
    ⟨_, by rw [window_moveTo, Coordinator.window, hr, Option.map_some, Option.map_some, hmarks]⟩
  refine ⟨hwindow, (c.moveTo_currentTable e).trans h.current, (c.moveTo_bufferTable e).trans h.table, ?_⟩
  cases hk : e.kind with
  | change change =>
    obtain ⟨p, hp⟩ := Option.isSome_iff_exists.1 (hspares change hk)
    rw [htr, hp] at hstays
    have hded := Watermarks.deduplicates_eq (hlow p) hstays
    rw [← hp, ← htr] at hded
    rw [moveTo_rows_of_change hk, hded, h.current]
    simp only [Stage.supersedes, hk, hp, Option.any_some]
    split
    · rename_i hsup
      obtain ⟨hhigh, ht⟩ := hsup
      obtain rfl := Option.some.inj ht
      simp only [RowBuffer.erase, h.rows, hhigh, decide_true, Bool.true_and, Bool.and_true]
      exact List.filter_congr fun row _ => by simp [eq_comm]
    · rename_i hsup
      refine h.rows.trans (List.filter_eq_self.2 fun row _ => ?_).symm
      cases hhigh : high.contains p with
      | false => simp
      | true =>
        have ht : change.table ≠ t := fun ht => hsup ⟨hhigh, congrArg some ht.symm⟩
        simp [ht]
  | _ =>
    rw [moveTo_rows_of_not_change (by simp [hk]), h.rows]
    simp only [Stage.supersedes, hk, Bool.not_false, List.filter_true]

end Coordinator.Awaits

/-- A stage that reads no chunk ends the window, or drops the rows that it supersedes. -/
private theorem awaits_perform {st : Stage} {s s' : Session (Recorded σ)} {u : Unit} {t : Table}
    {low high : PositionSet} {rows : List Row} (h : st.perform env.recorded s = .ok u s')
    (hs : s.coordinator.Awaits t low high rows)
    (hlow : ∀ p, high.contains p = true → low.contains p = false) (hspares : st.Spares t)
    (hquiet : s'.captured = s.captured) :
    s'.coordinator.window = some (.closed, {}) ∨
      s'.coordinator.Awaits t low high (rows.filter fun row => !st.supersedes t high row.key) := by
  obtain ⟨p, x, henter, hmoves⟩ := perform_enters h
  obtain ⟨new, hnew⟩ := captured_enter henter
  obtain ⟨new', hnew', hwindow⟩ := captured_moves hmoves
  rw [hquiet, hnew, List.append_assoc, List.self_eq_append_right] at hnew'
  obtain ⟨rfl, rfl⟩ := List.append_eq_nil_iff.1 hnew'
  obtain ⟨r, ts, mode, hr, hts, -, hmarks⟩ := hs.exists_run
  cases henter with
  | fresh version accepted positions | restored version accepted positions =>
    obtain ⟨v₁, -, rfl⟩ := recorded_version_eq_ok.1 version
    obtain ⟨v₂, -, rfl⟩ := recorded_positions_eq_ok.1 positions
    simp [captured, journal, Answer.executed?] at hnew
  | enqueued | taken | unpaused stays | unreached stays | passed emit =>
    obtain ⟨-, rfl⟩ := hmoves.of_idle
    refine .inr ?_
    simp only [Stage.supersedes, Bool.not_false, List.filter_true]
    exact hs.of_eq rfl rfl rfl rfl
  | added run running =>
    obtain ⟨-, rfl⟩ := hmoves.of_idle
    refine .inr ?_
    simp only [Stage.supersedes, Bool.not_false, List.filter_true]
    exact hs.addTables run _ _ _
  | begun run ended =>
    obtain rfl := Option.some.inj (hr.symm.trans run)
    simp [Run.isRunning, hts] at ended
  | stopped =>
    obtain ⟨-, rfl⟩ := hmoves.of_idle
    refine .inr ?_
    simp only [Stage.supersedes, Bool.not_false, List.filter_true]
    exact hs.stopTables _ hspares.1 hspares.2
  | paused =>
    obtain ⟨-, rfl⟩ := hmoves.of_idle
    refine .inr ?_
    simp only [Stage.supersedes, Bool.not_false, List.filter_true]
    exact hs.updateRun _ (fun _ => rfl) fun _ => rfl
  | @noted cmd c w =>
    obtain ⟨-, rfl⟩ := hmoves.of_idle
    refine .inr ?_
    simp only [Stage.supersedes, Bool.not_false, List.filter_true]
    have hnote := hs.updateRun (fun r => { r with commandOffset := some cmd.offset })
      (fun _ => rfl) fun _ => rfl
    exact hnote.of_eq rfl rfl rfl rfl
  | pending run pending =>
    obtain ⟨-, rfl⟩ := hmoves.of_idle
    refine .inr ?_
    simp only [Stage.supersedes, Bool.not_false, List.filter_true]
    rw [← Coordinator.updateRun_of_some run fun r => { r with paused := false }]
    exact hs.updateRun _ (fun _ => rfl) fun _ => rfl
  | resumed run free =>
    obtain rfl := Option.some.inj (hr.symm.trans run)
    simp [hmarks] at free
  | placed stays =>
    obtain ⟨-, rfl⟩ := hmoves.of_idle
    exact .inr (hs.moveTo hlow stays hspares)
  | closed closes | reached reached =>
    exact .inl ((hwindow rfl (isReading_of_flushing _ _ _)).trans (window_of_flushing _ _ _ hr))

theorem captured_each {sts : List Stage} {s s' : Session (Recorded σ)} {u : Unit}
    (h : Stage.performAll env.recorded sts s = .ok u s') :
    ∃ new, s'.captured = s.captured ++ new :=
  each_keeps (f := Stage.perform env.recorded) (I := fun t => ∃ new, t.captured = s.captured ++ new)
    (fun _ _ _ _ hst ⟨new, hnew⟩ => by
      obtain ⟨new', hnew'⟩ := captured_perform hst
      exact ⟨new ++ new', by rw [hnew', hnew, List.append_assoc]⟩)
    h ⟨[], (List.append_nil _).symm⟩

/-- If nothing was captured in all, nothing was captured in the first stage or after it. -/
theorem captured_of_quiet {st : Stage} {sts : List Stage} {s t s' : Session (Recorded σ)} {u : Unit}
    (hst : st.perform env.recorded s = .ok () t)
    (h : Stage.performAll env.recorded sts t = .ok u s') (hquiet : s'.captured = s.captured) :
    t.captured = s.captured ∧ s'.captured = t.captured := by
  obtain ⟨new, hnew⟩ := captured_perform hst
  obtain ⟨new', hnew'⟩ := captured_each h
  have hboth := hnew'
  rw [hquiet, hnew, List.append_assoc, List.self_eq_append_right] at hboth
  obtain ⟨rfl, rfl⟩ := List.append_eq_nil_iff.1 hboth
  rw [List.append_nil] at hnew hnew'
  exact ⟨hnew, hnew'⟩

theorem emitted_each {sts : List Stage} {s s' : Session (Recorded σ)} {u : Unit}
    (h : Stage.performAll env.recorded sts s = .ok u s') : s.emitted <+: s'.emitted :=
  each_keeps (f := Stage.perform env.recorded) (I := fun t => s.emitted <+: t.emitted)
    (fun _ _ _ _ hst hsent => hsent.trans (emitted_perform hst)) h List.prefix_rfl

/-- Until the next chunk is read, exactly the superseded rows are dropped. -/
private theorem awaits_each {sts : List Stage} {s s' : Session (Recorded σ)} {t : Table}
    {low high : PositionSet} {rows : List Row}
    (h : Stage.performAll env.recorded sts s = .ok () s')
    (hs : s.coordinator.Awaits t low high rows)
    (hlow : ∀ p, high.contains p = true → low.contains p = false)
    (hspares : ∀ st ∈ sts, st.Spares t) (hquiet : s'.captured = s.captured) :
    s'.coordinator.window = some (.closed, {}) ∨ s'.coordinator.Awaits t low high
      (rows.filter fun row => !sts.any (·.supersedes t high row.key)) := by
  induction sts generalizing s rows with
  | nil =>
    obtain rfl := each_nil_eq_ok.1 h
    exact .inr (by simpa using hs)
  | cons st sts ih =>
    obtain ⟨x, hst, h⟩ := each_cons_eq_ok.1 h
    obtain ⟨hfirst, hlater⟩ := captured_of_quiet hst h hquiet
    rcases awaits_perform hst hs hlow (hspares st List.mem_cons_self) hfirst with hw | hx
    · exact .inl (window_each_closed h hw hlater)
    · have hrest := ih h hx (fun y hy => hspares y (List.mem_cons_of_mem _ hy)) hlater
      simpa [List.filter_filter, Bool.and_comm] using hrest

/-- Whether a stage ends the window of a coordinator at a unit. -/
def Stage.Closes (c : Coordinator) (e : Event) : Stage → Prop
  | .place _ e' => e' = e ∧ (c.transition e).closes = true
  | .close _ e' => e' = e ∧ c.isReachedBy e.position = true
  | _ => False

/-- When the window ends, the rows in the buffer are sent. -/
theorem emitted_of_closes {st : Stage} {s s' : Session (Recorded σ)} {u : Unit} {e : Event}
    {t : Table} (h : st.perform env.recorded s = .ok u s') (hst : st.Closes s.coordinator e)
    (ht : s.coordinator.bufferTable = some t) : s'.emitted = s.emitted ++
      s.coordinator.buffer.rows.map fun row => ⟨e.partition, t, row.record, e.offset.forSnapshot⟩ := by
  obtain ⟨p, x, henter, hmoves⟩ := perform_enters h
  have hsent := emitted_moves hmoves
  have hrecords (c : Coordinator) (now : Int64) (hc : c.bufferTable = some t) :
      ((c.closeWindow now).flushing e.partition e.offset).1.records =
        c.buffer.rows.map fun row => ⟨e.partition, t, row.record, e.offset.forSnapshot⟩ :=
    records_of_flushing _ _ (by simp [Coordinator.tableOfBuffer, Coordinator.closeWindow,
      Coordinator.count, Coordinator.updateRun, hc])
  cases henter with
  | closed closes | reached reached =>
    obtain ⟨rfl, -⟩ := hst
    rw [hrecords _ _ ht, Phase.records_idle, List.append_nil] at hsent
    exact hsent
  | placed stays | unreached stays =>
    obtain ⟨rfl, hcloses⟩ := hst
    exact absurd (hcloses.symm.trans stays) (by simp)
  | _ => exact hst.elim

theorem Stage.Closes.exists_run {c : Coordinator} {e : Event} {st : Stage} (h : st.Closes c e) :
    ∃ r, c.run = some r := by
  cases st with
  | place rounds e' => exact exists_run_of_closes h.2
  | close rounds e' => exact exists_run_of_isReachedBy h.2
  | _ => exact h.elim

theorem window_of_closes {st : Stage} {s s' : Session (Recorded σ)} {u : Unit} {e : Event}
    (h : st.perform env.recorded s = .ok u s') (hst : st.Closes s.coordinator e)
    (hquiet : s'.captured = s.captured) : s'.coordinator.window = some (.closed, {}) := by
  obtain ⟨r, hr⟩ := hst.exists_run
  obtain ⟨p, x, henter, hmoves⟩ := perform_enters h
  obtain ⟨new, hnew, hwindow⟩ := captured_moves hmoves
  cases henter with
  | closed closes | reached reached =>
    rw [hquiet] at hnew
    have hnone : new = [] := List.self_eq_append_right.1 hnew
    exact (hwindow hnone (isReading_of_flushing _ _ _)).trans (window_of_flushing _ _ _ hr)
  | placed stays | unreached stays =>
    obtain ⟨rfl, hcloses⟩ := hst
    exact absurd (hcloses.symm.trans stays) (by simp)
  | _ => exact hst.elim

/-- Whenever a window ends whose chunk was read in the stage `st`, its rows are sent as the last
query returned them, without those that were superseded since. -/
def FlushesExactly (env : Environment σ) (s : Session (Recorded σ)) (sts : List Stage) : Prop :=
  ∀ before st mid last after s₁ s₂ s₃ s₄ e, sts = before ++ st :: (mid ++ last :: after) →
    Stage.performAll env.recorded before s = .ok () s₁ →
    st.perform env.recorded s₁ = .ok () s₂ →
    Stage.performAll env.recorded mid s₂ = .ok () s₃ →
    last.perform env.recorded s₃ = .ok () s₄ →
    s₂.captured ≠ s₁.captured → s₂.coordinator.buffer.rows ≠ [] →
    s₃.captured = s₂.captured → last.Closes s₃.coordinator e →
    ∃ q rows mode low high, s₂.queries.getLast? = some (q, rows) ∧
      ((rows.map Row.key).Nodup → (RowBuffer.empty.insertAll rows).rows = rows) ∧
      s₂.coordinator.window = some (mode, ⟨some low, some high⟩) ∧
      (∀ p, low.contains p = true → high.contains p = false) ∧
      ((∀ x ∈ mid, x.Spares q.table) →
        s₄.emitted = s₃.emitted ++
          ((RowBuffer.empty.insertAll rows).rows.filter fun row =>
            !mid.any (·.supersedes q.table high row.key)).map fun row =>
              ⟨e.partition, q.table, row.record, e.offset.forSnapshot⟩)

private theorem not_closes_of_window {st : Stage} {c : Coordinator} {e : Event}
    (h : c.window = some (.closed, {})) : ¬ st.Closes c e := by
  obtain ⟨r, hr, hm⟩ := Option.map_eq_some_iff.1 h
  obtain ⟨hmode, hmarks⟩ := Prod.mk.inj hm
  intro hst
  cases st with
  | place rounds e' =>
    obtain ⟨-, hcloses⟩ := hst
    simp only [Coordinator.transition, hr, Option.map_some, Option.getD_some, Run.transition, hmode,
      hmarks, Transition.closes] at hcloses
    cases hp : e.position <;> simp [Watermarks.transition, hp, Watermarks.isPast] at hcloses
  | close rounds e' =>
    obtain ⟨-, hcloses⟩ := hst
    simp [Coordinator.isReachedBy, hr, hmarks, Watermarks.isReached] at hcloses
  | _ => exact hst

/-- Whatever is asked of a new coordinator, a window sends exactly the rows of its chunk that were
not superseded. -/
theorem performAll_flushesExactly {settings : Settings} {commands : Option CommandQueue}
    {w : Recorded σ} {reqs : List Request} {s' : Session (Recorded σ)}
    (h : Request.performAll env.recorded reqs ⟨{ settings, commands }, w⟩ = .ok () s') :
    ∃ sts, Unfolds env.recorded ⟨{ settings, commands }, w⟩ reqs sts s' ∧
      FlushesExactly env ⟨{ settings, commands }, w⟩ sts := by
  obtain ⟨sts, hsts⟩ := performAll_unfolds h
  refine ⟨sts, hsts, ?_⟩
  intro before st mid last after s₁ s₂ s₃ s₄ e _ hbefore hst hmid hlast hread hrows hquiet hcloses
  have hs₁ : s₁.coordinator.Consistent .idle :=
    each_keeps (f := Stage.perform env.recorded) (I := fun s => s.coordinator.Consistent .idle)
      (fun _ _ => Coordinator.Consistent.perform) hbefore (.initial settings commands)
  have hs₂ := Coordinator.Consistent.perform hst hs₁
  obtain ⟨q, rows, hq, hbuffer, hbt, hcur⟩ := holdsAnswer_perform hst hs₁ hread hrows
  obtain ⟨-, r, hr, hhigh⟩ := hs₂.rows hrows
  rcases hs₂.marks r hr with ⟨hmarks, -⟩ | ⟨low, executed, hmarks⟩
  · simp [hmarks] at hhigh
  have hdisjoint : ∀ p, (executed.subtract low).contains p = true → low.contains p = false :=
    fun p => PositionSet.not_contains_of_contains_subtract
  have hwindow : s₂.coordinator.window = some (r.mode, ⟨some low, some (executed.subtract low)⟩) := by
    rw [Coordinator.window, hr, Option.map_some, hmarks]
  refine ⟨q, rows, r.mode, low, executed.subtract low, hq, RowBuffer.insertAll_empty, hwindow,
    fun p hp => ?_, fun hspares => ?_⟩
  · refine Bool.eq_false_iff.2 fun hh => ?_
    exact absurd ((hdisjoint p hh).symm.trans hp) (by simp)
  · have hawaits : s₂.coordinator.Awaits q.table low (executed.subtract low) _ :=
      ⟨⟨r.mode, hwindow⟩, hcur, hbt, congrArg _ hbuffer⟩
    rcases awaits_each hmid hawaits hdisjoint hspares hquiet with hw | ha
    · exact absurd hcloses (not_closes_of_window hw)
    · rw [emitted_of_closes hlast hcloses ha.table, ha.rows]

namespace Rehearsal

def twoRows (positions : List PositionSet) : Session (Recorded World) where
  coordinator := { settings := {} }
  world :=
    { world :=
        { positions
          tables := [⟨⟨"d", "a"⟩, [⟨⟨[.int 1]⟩, .null⟩, ⟨⟨[.int 2]⟩, .null⟩], none⟩] }
      journal := [] }

def update (key : Int64) : Event.Kind := .change ⟨⟨"d", "a"⟩, .update, ⟨[.int key]⟩, some .null⟩

/-- The first row is superseded while the window is open. The second one is sent before the change
that ends the window. -/
theorem twoRows_flushesExactly : ∃ s',
    Request.performAll environment.recorded [.start 9 none, .add 9 [⟨"d", "a"⟩] .empty,
      .process 9 (unit 6 (update 1)), .process 9 (unit 7 (update 2))]
      (twoRows [upTo 5, upTo 5, upTo 6]) = .ok () s' ∧
    s'.emitted.map (fun e => (e.record.operation, e.record.key)) =
      [(.update, ⟨[.int 1]⟩), (.read, ⟨[.int 2]⟩), (.update, ⟨[.int 2]⟩)] ∧
    ∃ sts, Unfolds environment.recorded (twoRows [upTo 5, upTo 5, upTo 6])
        [.start 9 none, .add 9 [⟨"d", "a"⟩] .empty, .process 9 (unit 6 (update 1)),
          .process 9 (unit 7 (update 2))] sts s' ∧
      FlushesExactly environment (twoRows [upTo 5, upTo 5, upTo 6]) sts := by
  obtain ⟨s', h, hkeys⟩ := exists_of_endsIn
    (x := Request.performAll environment.recorded [.start 9 none, .add 9 [⟨"d", "a"⟩] .empty,
      .process 9 (unit 6 (update 1)), .process 9 (unit 7 (update 2))])
    (s := twoRows [upTo 5, upTo 5, upTo 6])
    (p := fun s => s.emitted.map (fun e => (e.record.operation, e.record.key)) =
      [(.update, ⟨[.int 1]⟩), (.read, ⟨[.int 2]⟩), (.update, ⟨[.int 2]⟩)]) (by decide +kernel)
  exact ⟨s', h, by simpa using hkeys, performAll_flushesExactly h⟩

end Rehearsal
end Backfill
