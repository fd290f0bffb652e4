import Backfill.Proofs.Stage

/-! What holds of a coordinator in each phase of its work, whatever is asked of it and whatever its
world answers: rows are held only for the first queued table and only while both watermarks are
captured, and watermarks are captured together. -/
namespace Backfill
variable {σ : Type} {env : Environment σ}

/-- Queueing tables appends them and their filters and leaves the rest of a run as it is. -/
theorem Run.addTables_eq (r : Run) (now : Int64) (tables : List Table) (filters : TextMap String) :
    ∃ new filters', r.addTables now tables filters =
      { r with tables := r.tables ++ new, filters := filters', lastActivity := now } := by
  suffices h : ∃ new filters', tables.foldl (enqueue filters) r =
      { r with tables := r.tables ++ new, filters := filters' } by
    obtain ⟨new, filters', h⟩ := h
    exact ⟨new, filters', by rw [addTables, h]; rfl⟩
  induction tables generalizing r with
  | nil => exact ⟨[], r.filters, by simp⟩
  | cons t ts ih =>
    rw [List.foldl_cons]
    obtain ⟨new, filters', h⟩ := ih (r.enqueue filters t)
    rw [h]
    unfold enqueue
    split
    · exact ⟨new, filters', rfl⟩
    · exact ⟨t :: new, filters', by simp⟩

theorem Run.removeTables_of_stays {r : Run} {tables : List Table} (h : r.isCurrentIn tables = false)
    (now : Int64) : (r.removeTables now tables).chunk = r.chunk ∧
      (r.removeTables now tables).currentTable = r.currentTable := by
  refine ⟨by simp [removeTables, touch, h], ?_⟩
  cases hr : r.tables with
  | nil => simp [currentTable, removeTables, touch, hr]
  | cons t ts =>
    have hstays : t ∉ tables := by simpa [isCurrentIn, currentTable, hr] using h
    simp [currentTable, removeTables, touch, hr, hstays]

/-- Stopping tables changes nothing if none is queued. Otherwise they leave the queue, and with the
current one the rows in the buffer go; the window ends only if all tables are stopped. -/
theorem Coordinator.stopTables_cases (c : Coordinator) (now : Int64) (tables : List Table) :
    (c.stopTables now tables = c ∧ c.isRunning = false) ∨
    ∃ r, c.run = some r ∧ r.isRunning = true ∧
      (tables = [] ∧ c.stopTables now tables =
          { c.dropWindow with run := some ((r.clearTables now).closeWindow now) } ∨
        tables ≠ [] ∧ r.isCurrentIn tables = true ∧ c.stopTables now tables =
          { c.dropWindow with run := some (r.removeTables now tables) } ∨
        tables ≠ [] ∧ r.isCurrentIn tables = false ∧ c.stopTables now tables =
          { c with run := some (r.removeTables now tables) }) := by
  unfold stopTables
  cases hr : c.run with
  | none => exact .inl ⟨rfl, by simp [isRunning, hr]⟩
  | some r =>
    cases hrun : r.isRunning with
    | false => exact .inl ⟨by simp [hrun], by simp [isRunning, hr, hrun]⟩
    | true =>
      refine .inr ⟨r, rfl, hrun, ?_⟩
      cases tables with
      | nil => exact .inl ⟨rfl, by simp [hrun]⟩
      | cons t ts =>
        refine .inr ?_
        cases hcur : r.isCurrentIn (t :: ts) with
        | true => exact .inl ⟨by simp, rfl, by simp [hrun, hcur]⟩
        | false => exact .inr ⟨by simp, rfl, by simp [hrun, hcur]⟩

theorem Coordinator.flushing_coordinator (c : Coordinator) (p : Partition) (o : Offset) :
    (c.flushing p o).2 = c.dropRows := by
  obtain ⟨_, _, ⟨rows⟩⟩ := c
  unfold flushing
  cases rows with
  | nil => rfl
  | cons row rows =>
    simp only [RowBuffer.isEmpty, List.isEmpty_cons, Bool.false_eq_true, if_false]
    split <;> rfl

/-- The rows of a closed window are sent, or reading goes on at once. -/
theorem Coordinator.flushing_phase (c : Coordinator) (p : Partition) (o : Offset) :
    (c.flushing p o).1 = .due ∨ ∃ t, c.tableOfBuffer = some t ∧
      (c.flushing p o).1 = .sending p t o.forSnapshot c.buffer.size c.buffer.rows := by
  unfold flushing
  split
  · exact .inl rfl
  · cases ht : c.tableOfBuffer with
    | none => exact .inl rfl
    | some t => exact .inr ⟨t, rfl, rfl⟩

/-- Without watermarks no position opens a window. -/
theorem Watermarks.transition_empty (p : Option Position) :
    (({} : Watermarks).transition .closed p).mode = .closed := by
  cases p <;> rfl

/-- The watermarks that a run may have in a phase. The high watermark is what was executed since
the low one was captured, and the window is open only between them. -/
def Phase.marksFit (p : Phase) (r : Run) : Prop :=
  match p with
  | .filling | .filled => ∃ low, r.watermarks = ⟨some low, none⟩
  | _ => r.watermarks = {} ∧ r.mode = .closed ∨
    ∃ low executed : PositionSet, r.watermarks = ⟨some low, some (executed.subtract low)⟩

def Coordinator.HoldsCurrent (c : Coordinator) : Prop :=
  ∃ r t ts, c.run = some r ∧ r.tables = t :: ts ∧ c.bufferTable = some t

/-- The rows that may be in the buffer in a phase. -/
def Phase.rowsFit (p : Phase) (c : Coordinator) : Prop :=
  match p with
  | .idle => c.buffer.rows ≠ [] →
    c.HoldsCurrent ∧ ∃ r, c.run = some r ∧ r.watermarks.high.isSome
  | .filled => c.HoldsCurrent ∨ c.buffer.rows = [] ∧ c.isRunning = false
  | _ => c.buffer.rows = []

/-- What holds of a coordinator in a phase. -/
structure Coordinator.Consistent (p : Phase) (c : Coordinator) : Prop where
  marks : ∀ r, c.run = some r → p.marksFit r
  rows : p.rowsFit c

namespace Coordinator.Consistent

private theorem of_rows_eq_nil {p : Phase} {c : Coordinator} (hm : ∀ r, c.run = some r → p.marksFit r)
    (hb : c.buffer.rows = []) (hf : p = .filled → c.isRunning = false) : c.Consistent p := by
  refine ⟨hm, ?_⟩
  cases p with
  | idle => exact fun h => absurd hb h
  | filled => exact .inr ⟨hb, hf rfl⟩
  | _ => exact hb

theorem move {p q : Phase} {s t : Session σ} (h : Move env p s q t)
    (hs : s.coordinator.Consistent p) : t.coordinator.Consistent q := by
  obtain ⟨hm, hb⟩ := hs
  cases h with
  | @sent _ _ _ _ row _ c =>
    refine of_rows_eq_nil ?_ hb nofun
    intro r hr
    obtain ⟨r', hr', rfl⟩ := Option.map_eq_some_iff.1 hr
    exact hm r' hr'
  | allSent => exact of_rows_eq_nil hm hb nofun
  | declined stays => exact of_rows_eq_nil hm hb nofun
  | @began c w w₁ w₂ w₃ w₄ low reads =>
    refine of_rows_eq_nil ?_ hb nofun
    intro r hr
    simp only [count, updateRun, Option.map_map, Option.map_eq_some_iff] at hr
    obtain ⟨r', -, rfl⟩ := hr
    exact ⟨low, rfl⟩
  | measured run tables unknown maximum =>
    refine of_rows_eq_nil ?_ hb nofun
    intro r hr
    obtain ⟨r', hr', rfl⟩ := Option.map_eq_some_iff.1 hr
    exact hm r' hr'
  | vacant run tables unknown maximum | exhausted run tables known query =>
    refine of_rows_eq_nil ?_ hb nofun
    intro r hr
    obtain ⟨r', hr', rfl⟩ := Option.map_eq_some_iff.1 hr
    exact hm r' hr'
  | @buffered c w w' r t ts rows run tables known found query =>
    have hrun : ∃ r', (c.bufferRows t rows).run = some r' ∧ r'.tables = r.tables ∧
        r'.watermarks = r.watermarks := by
      simp only [bufferRows]
      cases (c.buffer.insertAll rows).lastKey? with
      | none => exact ⟨r, run, rfl, rfl⟩
      | some k => exact ⟨r.chunkEndsAt k, by simp [run], rfl, rfl⟩
    obtain ⟨r', hr', ht, hw⟩ := hrun
    refine ⟨?_, .inl ⟨r', t, ts, hr', by rw [ht, tables], rfl⟩⟩
    intro r'' hr''
    obtain rfl : r' = r'' := Option.some.inj (hr'.symm.trans hr'')
    obtain ⟨low, hlow⟩ := hm r run
    exact ⟨low, hw.trans hlow⟩
  | served run tables =>
    exact of_rows_eq_nil hm hb fun _ => by simp [isRunning, run, Run.isRunning, tables]
  | @kept c w w' executed running positions clear =>
    constructor
    · intro r hr
      obtain ⟨r', hr', rfl⟩ := Option.map_eq_some_iff.1 hr
      obtain ⟨low, hlow⟩ := hm r' hr'
      exact .inr ⟨low, executed, by simp [Run.setHigh, hlow]⟩
    · intro _
      rcases hb with ⟨r, t, ts, hr, ht, hbt⟩ | ⟨_, hover⟩
      · rw [updateRun_of_some hr]
        exact ⟨⟨_, t, ts, rfl, ht, hbt⟩, _, rfl, rfl⟩
      · exact absurd running (by simp [hover])
  | @reverted c w w' executed running positions ambiguous held =>
    refine of_rows_eq_nil ?_ rfl nofun
    intro r hr
    simp only [count, updateRun, dropRows, Option.map_map, Option.map_eq_some_iff] at hr
    obtain ⟨r', hr', rfl⟩ := hr
    obtain ⟨low, hlow⟩ := hm r' hr'
    exact .inr ⟨low, executed, by simp [Run.setHigh, Run.revertChunk, hlow]⟩
  | @completed c w ended =>
    refine of_rows_eq_nil ?_ ?_ nofun
    · intro r hr
      obtain ⟨r', -, rfl⟩ := Option.map_eq_some_iff.1 hr
      exact .inl ⟨rfl, rfl⟩
    · rcases hb with ⟨r, t, ts, hr, ht, -⟩ | ⟨hb, -⟩
      · exact absurd ended (by simp [isRunning, show c.run = some r from hr, Run.isRunning, ht])
      · exact hb

theorem moves {p q : Phase} {s t : Session σ} (h : Moves env p s q t)
    (hs : s.coordinator.Consistent p) : t.coordinator.Consistent q :=
  h.keeps (I := fun p s => s.coordinator.Consistent p) move hs

private theorem of_flushing {c : Coordinator} (now : Int64) (p : Partition) (o : Offset) :
    ((c.closeWindow now).flushing p o).2.Consistent ((c.closeWindow now).flushing p o).1 := by
  rw [flushing_coordinator]
  have hm : ∀ r, (c.closeWindow now).dropRows.run = some r →
      r.watermarks = {} ∧ r.mode = .closed := by
    intro r hr
    obtain ⟨r', -, rfl⟩ := Option.map_eq_some_iff.1 hr
    exact ⟨rfl, rfl⟩
  rcases flushing_phase (c.closeWindow now) p o with hp | ⟨t, -, hp⟩
  · rw [hp]
    exact of_rows_eq_nil (fun r hr => .inl (hm r hr)) rfl nofun
  · rw [hp]
    exact of_rows_eq_nil (fun r hr => .inl (hm r hr)) rfl nofun

private theorem stopTables {c : Coordinator} (hc : c.Consistent .idle) (now : Int64)
    (tables : List Table) : (c.stopTables now tables).Consistent .idle := by
  rcases c.stopTables_cases now tables with ⟨heq, -⟩ | ⟨r, hr, -, ⟨-, heq⟩ | ⟨-, -, heq⟩ |
    ⟨-, hcur, heq⟩⟩ <;> rw [heq]
  · exact hc
  · refine of_rows_eq_nil ?_ rfl nofun
    rintro r' ⟨⟩
    exact .inl ⟨rfl, rfl⟩
  · refine of_rows_eq_nil ?_ rfl nofun
    rintro r' ⟨⟩
    exact hc.marks r hr
  · refine ⟨?_, fun hb => ?_⟩
    · rintro r' ⟨⟩
      exact hc.marks r hr
    · obtain ⟨⟨r', t, ts, hr', ht, hbt⟩, r'', hr'', hh⟩ := hc.rows hb
      obtain rfl : r = r' := Option.some.inj (hr.symm.trans hr')
      obtain rfl : r = r'' := Option.some.inj (hr.symm.trans hr'')
      have hstays : t ∉ tables := by simpa [Run.isCurrentIn, Run.currentTable, ht] using hcur
      refine ⟨⟨_, t, ts.filter fun t => t ∉ tables, rfl, ?_, hbt⟩, _, rfl, hh⟩
      simp [Run.removeTables, Run.touch, ht, hstays]

private theorem moveTo {c : Coordinator} (hc : c.Consistent .idle) (e : Event) :
    (c.moveTo e).Consistent .idle := by
  have hmode : (c.updateRun fun r => { r with mode := (r.transition e.position).mode }).Consistent
      .idle := by
    constructor
    · intro r hr
      obtain ⟨r', hr', rfl⟩ := Option.map_eq_some_iff.1 hr
      rcases hc.marks r' hr' with ⟨hw, hmode⟩ | h
      · exact .inl ⟨hw, by simp only [Run.transition, hw, hmode, Watermarks.transition_empty]⟩
      · exact .inr h
    · intro hb
      obtain ⟨⟨r, t, ts, hr, ht, hbt⟩, r', hr', hh⟩ := hc.rows hb
      obtain rfl : r = r' := Option.some.inj (hr.symm.trans hr')
      rw [updateRun_of_some hr]
      exact ⟨⟨_, t, ts, rfl, ht, hbt⟩, _, rfl, hh⟩
  have hsome : ∀ change : Change, (Coordinator.deduplicate
      (c.updateRun fun r => { r with mode := (r.transition e.position).mode }) change).Consistent
      .idle := by
    intro change
    unfold deduplicate
    split
    · refine ⟨hmode.marks, fun hb => hmode.rows fun he => hb ?_⟩
      simp only [count, RowBuffer.erase, he, List.filter_nil]
    · exact hmode
  unfold Coordinator.moveTo
  split
  · split
    · exact hsome _
    · exact hmode
  · exact hmode

theorem enter {st : Stage} {p : Phase} {s t : Session σ} (h : Enters env st s p t)
    (hs : s.coordinator.Consistent .idle) : t.coordinator.Consistent p := by
  cases h with
  | fresh version accepted positions | restored version accepted positions =>
    refine of_rows_eq_nil ?_ rfl nofun
    rintro r ⟨⟩
    exact .inl ⟨rfl, rfl⟩
  | enqueued | taken | unpaused stays | unreached stays | passed emit => exact ⟨hs.marks, hs.rows⟩
  | @added _ tables filters c w r run running =>
    obtain ⟨new, filters', h⟩ := r.addTables_eq (env.now w) tables filters
    rw [h]
    refine ⟨?_, fun hb => ?_⟩
    · rintro r' ⟨⟩
      exact hs.marks r run
    · obtain ⟨⟨r', t, ts, hr', ht, hbt⟩, r'', hr'', hh⟩ := hs.rows hb
      obtain rfl : r = r' := Option.some.inj (run.symm.trans hr')
      obtain rfl : r = r'' := Option.some.inj (run.symm.trans hr'')
      exact ⟨⟨_, t, ts ++ new, rfl, by simp [ht], hbt⟩, _, rfl, hh⟩
  | @begun _ tables filters c w r run ended =>
    obtain ⟨new, filters', h⟩ := r.addTables_eq (env.now w) tables filters
    rw [h]
    refine of_rows_eq_nil ?_ ?_ nofun
    · rintro r' ⟨⟩
      exact hs.marks r run
    · refine Decidable.byContradiction fun hb => ?_
      obtain ⟨⟨r', t, ts, hr', ht, -⟩, -⟩ := hs.rows hb
      obtain rfl : r = r' := Option.some.inj (run.symm.trans hr')
      simp [Run.isRunning, ht] at ended
  | stopped => exact hs.stopTables _ _
  | @paused c w =>
    refine ⟨?_, fun hb => ?_⟩
    · intro r hr
      obtain ⟨r', hr', rfl⟩ := Option.map_eq_some_iff.1 hr
      exact hs.marks r' hr'
    · obtain ⟨⟨r, t, ts, hr, ht, hbt⟩, r', hr', hh⟩ := hs.rows hb
      obtain rfl : r = r' := Option.some.inj (hr.symm.trans hr')
      rw [updateRun_of_some hr]
      exact ⟨⟨_, t, ts, rfl, ht, hbt⟩, _, rfl, hh⟩
  | @pending _ c w r run pending =>
    refine ⟨?_, fun hb => ?_⟩
    · rintro r' ⟨⟩
      exact hs.marks r run
    · obtain ⟨⟨r', t, ts, hr', ht, hbt⟩, -⟩ := hs.rows hb
      obtain rfl : r = r' := Option.some.inj (run.symm.trans hr')
      exact ⟨⟨_, t, ts, rfl, ht, hbt⟩, _, rfl, pending⟩
  | @resumed _ c w r run free =>
    refine of_rows_eq_nil ?_ ?_ nofun
    · rintro r' ⟨⟩
      exact hs.marks r run
    · refine Decidable.byContradiction fun hb => ?_
      obtain ⟨-, r', hr', hh⟩ := hs.rows hb
      obtain rfl : r = r' := Option.some.inj (run.symm.trans hr')
      simp [free] at hh
  | @noted cmd c w =>
    refine ⟨?_, fun hb => ?_⟩
    · intro r hr
      simp only [note, count, updateRun, Option.map_eq_some_iff] at hr
      obtain ⟨r', hr', rfl⟩ := hr
      exact hs.marks r' hr'
    · obtain ⟨⟨r, t, ts, hr, ht, hbt⟩, r', hr', hh⟩ := hs.rows hb
      obtain rfl : r = r' := Option.some.inj (hr.symm.trans hr')
      rw [note, updateRun_of_some hr]
      exact ⟨⟨_, t, ts, rfl, ht, hbt⟩, _, rfl, hh⟩
  | placed stays => exact hs.moveTo _
  | closed closes | reached reached => exact of_flushing _ _ _

theorem perform {st : Stage} {s s' : Session σ} {u : Unit} (h : st.perform env s = .ok u s')
    (hs : s.coordinator.Consistent .idle) : s'.coordinator.Consistent .idle := by
  obtain ⟨p, t, henter, hmoves⟩ := perform_enters h
  exact moves hmoves (enter henter hs)

theorem initial (settings : Settings) (commands : Option CommandQueue) :
    ({ settings, commands } : Coordinator).Consistent .idle :=
  ⟨fun _ h => absurd h (by simp), fun h => absurd rfl h⟩

/-- When a window ends, the rows that are held are sent as rows of the current table. -/
theorem flushing {c : Coordinator} (hc : c.Consistent .idle) (now : Int64) (p : Partition)
    (o : Offset) : c.buffer.rows = [] ∧ ((c.closeWindow now).flushing p o).1 = .due ∨
      ∃ t, c.currentTable = some t ∧ ((c.closeWindow now).flushing p o).1 =
        .sending p t o.forSnapshot c.buffer.size c.buffer.rows := by
  by_cases hb : c.buffer.rows = []
  · have hempty : (c.closeWindow now).buffer.isEmpty = true := List.isEmpty_iff.2 hb
    refine .inl ⟨hb, ?_⟩
    rw [Coordinator.flushing, if_pos hempty]
  · obtain ⟨⟨r, t, ts, hr, ht, hbt⟩, -⟩ := hc.rows hb
    have hheld : ¬ (c.closeWindow now).buffer.isEmpty = true := fun h => hb (List.isEmpty_iff.1 h)
    have htable : (c.closeWindow now).tableOfBuffer = some t := by
      simp [tableOfBuffer, closeWindow, count, updateRun, hbt]
    refine .inr ⟨t, by simp [currentTable, hr, Run.currentTable, ht], ?_⟩
    rw [Coordinator.flushing, if_neg hheld, htable]
    rfl

end Coordinator.Consistent
end Backfill
