import Backfill.Proofs.FlushedRows
import Backfill.Proofs.Queue

/-! Whose rows are in the buffer. They are rows of the first queued table that the last query
returned, and they wait for the end of a window between two watermarks. What is sent as read is
therefore always of the first queued table, and never of one that was stopped. -/
namespace Backfill
open Procedure Session Environment
variable {σ : Type} {env : Environment σ}

/-- Where the rows in the buffer belong: to the table `t` and its window between `low` and `high`,
among the `rows` that were the answer to the query `q`. -/
structure Session.HoldsRowsOf (s : Session (Recorded σ)) (t : Table) (low high : PositionSet)
    (q : ChunkQuery) (rows : List Row) : Prop where
  front : s.coordinator.queue.head? = some t
  table : s.coordinator.bufferTable = some t
  marks : ∃ mode, s.coordinator.window = some (mode, ⟨some low, some high⟩)
  apart : ∀ p, high.contains p = true → low.contains p = false
  single : high.sourceCount ≤ 1
  last : s.queries.getLast? = some (q, rows)
  asked : q.table = t
  returned : ∀ row ∈ s.coordinator.buffer.rows, row ∈ rows

def Session.HoldsReturned (s : Session (Recorded σ)) : Prop :=
  s.coordinator.buffer.rows ≠ [] → ∃ q rows, s.queries.getLast? = some (q, rows) ∧
    s.coordinator.bufferTable = some q.table ∧ ∀ row ∈ s.coordinator.buffer.rows, row ∈ rows

/-- Whether a chunk that is kept, and not being read, can be placed in the stream. -/
def Phase.placeable (p : Phase) (c : Coordinator) : Prop :=
  match p with
  | .idle => c.buffer.rows ≠ [] → ∀ r, c.run = some r → r.watermarks.isAmbiguous = false
  | _ => True

/-- What holds of the rows in the buffer in a phase. -/
structure Session.Owns (p : Phase) (s : Session (Recorded σ)) : Prop where
  consistent : s.coordinator.Consistent p
  returned : s.HoldsReturned
  placeable : p.placeable s.coordinator

namespace Session.Owns
variable {p q : Phase} {s s' : Session (Recorded σ)}

private theorem of_rows_eq_nil (hc : s.coordinator.Consistent p) (hb : s.coordinator.buffer.rows = []) :
    s.Owns p := by
  refine ⟨hc, fun h => absurd hb h, ?_⟩
  cases p with
  | idle => exact fun h => absurd hb h
  | _ => trivial

/-- What leaves the watermarks, the queries and the table of the buffer alone and adds no row to
it changes nothing about whose rows they are. -/
private theorem of_kept (hs : s.Owns .idle) (hc : s'.coordinator.Consistent .idle) (f : Run → Run)
    (hrun : s'.coordinator.run = s.coordinator.run.map f)
    (hf : ∀ r, (f r).watermarks = r.watermarks) (hq : s'.queries = s.queries)
    (ht : s'.coordinator.bufferTable = s.coordinator.bufferTable)
    (hrows : ∀ row ∈ s'.coordinator.buffer.rows, row ∈ s.coordinator.buffer.rows) :
    s'.Owns .idle := by
  have hheld (h : s'.coordinator.buffer.rows ≠ []) : s.coordinator.buffer.rows ≠ [] := by
    obtain ⟨row, hrow⟩ := List.exists_mem_of_ne_nil _ h
    exact List.ne_nil_of_mem (hrows row hrow)
  refine ⟨hc, fun h => ?_, fun h r hr => ?_⟩
  · obtain ⟨q, rows, hlast, htable, hreturned⟩ := hs.returned (hheld h)
    exact ⟨q, rows, hq ▸ hlast, ht ▸ htable, fun row hrow => hreturned row (hrows row hrow)⟩
  · rw [hrun] at hr
    obtain ⟨r', hr', rfl⟩ := Option.map_eq_some_iff.1 hr
    rw [hf]
    exact hs.placeable (hheld h) r' hr'

theorem move (h : Move env.recorded p s q s') (hs : s.Owns p) : s'.Owns q := by
  have hc := hs.consistent.move h
  cases h with
  | sent emit | allSent | declined stays => exact of_rows_eq_nil hc hs.consistent.rows
  | began reads commit positions commit' begins => exact of_rows_eq_nil hc hs.consistent.rows
  | measured run tables unknown maximum | vacant run tables unknown maximum =>
    exact of_rows_eq_nil hc hs.consistent.rows
  | exhausted run tables known query | served run tables =>
    exact of_rows_eq_nil hc hs.consistent.rows
  | @buffered c w w' r t ts rows run tables known found query =>
    obtain ⟨v, -, rfl⟩ := recorded_query_eq_ok.1 query
    have hempty : c.buffer.rows = [] := hs.consistent.rows
    refine ⟨hc, fun _ => ⟨c.chunkQuery t, rows, ?_, rfl, fun row hrow => ?_⟩, trivial⟩
    · simp [queries, journal, List.filterMap_append, Answer.query?]
    · refine (RowBuffer.mem_of_mem_insertAll hrow).resolve_left ?_
      simp [hempty]
  | @kept c w w' executed running positions clear =>
    obtain ⟨v, -, rfl⟩ := recorded_positions_eq_ok.1 positions
    refine ⟨hc, fun h => ?_, fun h r hr => ?_⟩
    · obtain ⟨q, rows, hlast, htable, hreturned⟩ := hs.returned h
      refine ⟨q, rows, ?_, htable, hreturned⟩
      simpa [queries, journal, List.filterMap_append, List.filterMap_cons, Answer.query?] using hlast
    · refine Bool.eq_false_iff.2 fun ha => h (List.isEmpty_iff.1 (clear ?_))
      exact (Option.any_eq_true _ _).2 ⟨r, hr, ha⟩
  | reverted running positions ambiguous held => exact of_rows_eq_nil hc rfl
  | @completed c w ended =>
    rcases hs.consistent.rows with ⟨r, t, ts, hr, ht, -⟩ | ⟨hb, -⟩
    · refine absurd ended ?_
      simp [Coordinator.isRunning, show c.run = some r from hr, Run.isRunning, ht]
    · exact of_rows_eq_nil hc hb

theorem moves (h : Moves env.recorded p s q s') (hs : s.Owns p) : s'.Owns q :=
  h.keeps (I := fun p s => s.Owns p) move hs

private theorem stopTables {c : Coordinator} {w : Recorded σ} (hs : (⟨c, w⟩ : Session _).Owns .idle)
    (now : Int64) (tables : List Table)
    (hc : (c.stopTables now tables).Consistent .idle) :
    (⟨c.stopTables now tables, w⟩ : Session _).Owns .idle := by
  rcases c.stopTables_cases now tables with ⟨heq, -⟩ | ⟨r, hr, -, ⟨-, heq⟩ | ⟨-, -, heq⟩ | ⟨-, -, heq⟩⟩
  · rw [heq]
    exact hs
  · exact of_rows_eq_nil hc (by simp [heq, Coordinator.dropWindow, RowBuffer.empty])
  · exact of_rows_eq_nil hc (by simp [heq, Coordinator.dropWindow, RowBuffer.empty])
  · refine hs.of_kept hc (fun r => r.removeTables now tables) ?_ (fun _ => rfl) rfl ?_ ?_
    · simp [heq, hr]
    · simp [heq]
    · simp [heq]

private theorem moveTo_rows_subset (c : Coordinator) (e : Event) :
    ∀ row ∈ (c.moveTo e).buffer.rows, row ∈ c.buffer.rows := by
  intro row hrow
  cases hk : e.kind with
  | change change =>
    rw [Coordinator.moveTo_rows_of_change hk] at hrow
    split at hrow
    · exact (List.mem_filter.1 hrow).1
    · exact hrow
  | _ =>
    rw [Coordinator.moveTo_rows_of_not_change (by simp [hk])] at hrow
    exact hrow

theorem enter {st : Stage} (h : Enters env.recorded st s p s') (hs : s.Owns .idle) : s'.Owns p := by
  have hc := hs.consistent.enter h
  have hkept (f : Run → Run) (hp : p = .idle)
      (hrun : s'.coordinator.run = s.coordinator.run.map f)
      (hf : ∀ r, (f r).watermarks = r.watermarks) (hq : s'.queries = s.queries)
      (ht : s'.coordinator.bufferTable = s.coordinator.bufferTable)
      (hrows : ∀ row ∈ s'.coordinator.buffer.rows, row ∈ s.coordinator.buffer.rows) :
      s'.Owns p := by
    subst hp
    exact hs.of_kept hc f hrun hf hq ht hrows
  cases h with
  | fresh version accepted positions | restored version accepted positions =>
    exact of_rows_eq_nil hc rfl
  | enqueued | taken | unpaused stays | unreached stays =>
    exact hkept id rfl (congrFun Option.map_id _).symm (fun _ => rfl) rfl rfl fun _ => id
  | passed emit =>
    obtain ⟨v, -, rfl⟩ := recorded_emit_eq_ok.1 emit
    refine hkept id rfl (congrFun Option.map_id _).symm (fun _ => rfl) ?_ rfl fun _ => id
    simp [queries, journal, List.filterMap_append, List.filterMap_cons, Answer.query?]
  | @added rounds tables filters c w r run running =>
    refine hkept (fun r => r.addTables (env.now w.world) tables filters) rfl ?_ (fun r => ?_) rfl rfl
      fun _ => id
    · simp only [run, Option.map_some]
      rfl
    · obtain ⟨new, filters', heq⟩ := r.addTables_eq (env.now w.world) tables filters
      rw [heq]
  | begun run ended | resumed run free => exact of_rows_eq_nil hc hc.rows
  | stopped => exact hs.stopTables _ _ hc
  | paused =>
    exact hkept (fun r => { r with paused := true }) rfl rfl (fun _ => rfl) rfl rfl fun _ => id
  | pending run pending =>
    refine hkept (fun r => { r with paused := false }) rfl ?_ (fun _ => rfl) rfl rfl fun _ => id
    simp only [run, Option.map_some]
  | @noted cmd c w =>
    exact hkept (fun r => { r with commandOffset := some cmd.offset }) rfl rfl (fun _ => rfl) rfl rfl
      fun _ => id
  | @placed rounds e c w stays =>
    exact hkept _ rfl (c.moveTo_run e) (fun _ => rfl) rfl (c.moveTo_bufferTable e)
      (moveTo_rows_subset c e)
  | closed closes | reached reached =>
    refine of_rows_eq_nil hc ?_
    rw [Coordinator.flushing_coordinator]
    rfl

theorem perform {st : Stage} {u : Unit} (h : st.perform env.recorded s = .ok u s')
    (hs : s.Owns .idle) : s'.Owns .idle := by
  obtain ⟨p, s₁, henter, hmoves⟩ := perform_enters h
  exact (hs.enter henter).moves hmoves

theorem performAll {sts : List Stage} {u : Unit} (h : Stage.performAll env.recorded sts s = .ok u s')
    (hs : s.Owns .idle) : s'.Owns .idle :=
  each_keeps (f := Stage.perform env.recorded) (I := fun s => s.Owns .idle)
    (fun _ _ _ _ hst hi => hi.perform hst) h hs

theorem initial (settings : Settings) (commands : Option CommandQueue) (w : Recorded σ) :
    (⟨{ settings, commands }, w⟩ : Session _).Owns .idle :=
  of_rows_eq_nil (.initial settings commands) rfl

/-- When nothing is being done, the rows in the buffer are those of one window. -/
theorem holds (hs : s.Owns .idle) (h : s.coordinator.buffer.rows ≠ []) :
    ∃ t low high q rows, s.HoldsRowsOf t low high q rows := by
  obtain ⟨⟨r, t, ts, hr, htables, htable⟩, r', hr', hhigh⟩ := hs.consistent.rows h
  obtain rfl : r = r' := Option.some.inj (hr.symm.trans hr')
  rcases hs.consistent.marks r hr with ⟨hmarks, -⟩ | ⟨low, executed, hmarks⟩
  · simp [hmarks] at hhigh
  obtain ⟨q, rows, hlast, hq, hreturned⟩ := hs.returned h
  have hclear := hs.placeable h r hr
  simp only [Watermarks.isAmbiguous, hmarks, Option.any_some, decide_eq_false_iff_not,
    Nat.not_lt] at hclear
  exact ⟨t, low, executed.subtract low, q, rows,
    { front := by simp [Coordinator.queue, hr, htables]
      table := htable
      marks := ⟨r.mode, by rw [Coordinator.window, hr, Option.map_some, hmarks]⟩
      apart := fun _ => PositionSet.not_contains_of_contains_subtract
      single := hclear
      last := hlast
      asked := Option.some.inj (hq.symm.trans htable)
      returned := hreturned }⟩

end Session.Owns

def Stage.PassesOn (x : Emission) : Stage → Prop
  | .pass e change => x = ⟨e.partition, change.table, change.record, e.offset⟩
  | _ => False

/-- A record that is sent when a window ends tells of a row in the buffer as read, and is of the
first queued table. -/
theorem emitted_of_perform {st : Stage} {s s' : Session (Recorded σ)} {u : Unit}
    (h : st.perform env.recorded s = .ok u s') (hs : s.coordinator.Consistent .idle) :
    ∃ new, s'.emitted = s.emitted ++ new ∧ ∀ x ∈ new, st.PassesOn x ∨
      s.coordinator.queue.head? = some x.table ∧
        ∃ row ∈ s.coordinator.buffer.rows, x.record = row.record := by
  obtain ⟨p, s₁, henter, hmoves⟩ := perform_enters h
  have hsent := emitted_moves hmoves
  rw [Phase.records_idle, List.append_nil] at hsent
  have hflushed (c : Coordinator) (now : Int64) (q : Partition) (o : Offset)
      (hc : c.Consistent .idle) : ∀ x ∈ ((c.closeWindow now).flushing q o).1.records,
        c.queue.head? = some x.table ∧ ∃ row ∈ c.buffer.rows, x.record = row.record := by
    intro x hx
    rcases hc.flushing now q o with ⟨-, hp⟩ | ⟨t, ht, hp⟩
    · rw [hp] at hx
      exact absurd hx List.not_mem_nil
    · rw [hp] at hx
      obtain ⟨row, hrow, rfl⟩ := List.mem_map.1 hx
      refine ⟨?_, row, hrow, rfl⟩
      cases hr : c.run with
      | none => simp [Coordinator.currentTable, hr] at ht
      | some r => simpa [Coordinator.queue, hr, Coordinator.currentTable, Run.currentTable] using ht
  cases henter with
  | fresh version accepted positions | restored version accepted positions =>
    obtain ⟨v₁, -, rfl⟩ := recorded_version_eq_ok.1 version
    obtain ⟨v₂, -, rfl⟩ := recorded_positions_eq_ok.1 positions
    refine ⟨[], ?_, List.forall_mem_nil _⟩
    simpa [emitted, journal, List.filterMap_cons, Answer.sent?, Phase.records] using hsent
  | @passed e change c w w' emit =>
    obtain ⟨v, -, rfl⟩ := recorded_emit_eq_ok.1 emit
    refine ⟨[⟨e.partition, change.table, change.record, e.offset⟩], ?_, fun x hx => ?_⟩
    · simpa [emitted, journal, Answer.sent?] using hsent
    · exact .inl (List.mem_singleton.1 hx)
  | closed closes | reached reached =>
    exact ⟨_, hsent, fun x hx => .inr (hflushed _ _ _ _ hs x hx)⟩
  | _ => exact ⟨[], hsent, List.forall_mem_nil _⟩

/-- Whether a table was stopped in a row of stages, and none of the later ones asks for it. -/
def Stage.Stopped (t : Table) (sts : List Stage) : Prop :=
  ∃ before tables after, sts = before ++ .stop tables :: after ∧ (tables = [] ∨ t ∈ tables) ∧
    ∀ st ∈ after, ¬ st.Asks t ∧ ¬ st.Starts

theorem not_mem_queue_of_stopped {sts : List Stage} {s s' : Session σ} {t : Table}
    (h : Stage.performAll env sts s = .ok () s') (hstopped : Stage.Stopped t sts) :
    t ∉ s'.coordinator.queue := by
  obtain ⟨before, tables, after, rfl, htables, hafter⟩ := hstopped
  obtain ⟨s₁, -, h⟩ := each_append_eq_ok.1 h
  obtain ⟨s₂, hstop, h⟩ := each_cons_eq_ok.1 h
  have hs₂ : t ∉ s₂.coordinator.queue := by
    simp only [Stage.perform, Session.stop, bind_eq_ok, now_eq_ok, update_eq_ok] at hstop
    obtain ⟨_, _, ⟨rfl, rfl⟩, rfl⟩ := hstop
    intro hmem
    obtain ⟨-, hsome, hkept⟩ := Coordinator.mem_stopTables hmem
    exact htables.elim hsome hkept
  refine each_keeps (f := Stage.perform env) (I := fun s => t ∉ s.coordinator.queue) ?_ h hs₂
  intro st hst s₃ s₄ hperform hs₃ hmem
  obtain ⟨hasks, hstarts⟩ := hafter st hst
  exact (mem_queue_of_perform hperform hstarts hmem).elim hs₃ hasks

/-- Whatever a stage sends, it passes on a change of the stream, or tells of a row of the first
queued table that was in the buffer; that table was not stopped before. -/
def SendsOwn (env : Environment σ) (s : Session (Recorded σ)) (sts : List Stage) : Prop :=
  ∀ before st after s₁ s₂, sts = before ++ st :: after →
    Stage.performAll env.recorded before s = .ok () s₁ →
    st.perform env.recorded s₁ = .ok () s₂ →
    ∃ new, s₂.emitted = s₁.emitted ++ new ∧ ∀ x ∈ new, st.PassesOn x ∨
      s₁.coordinator.queue.head? = some x.table ∧
      (∃ row ∈ s₁.coordinator.buffer.rows, x.record = row.record) ∧ ¬ Stage.Stopped x.table before

/-- Whatever is asked of a new coordinator, the rows in its buffer are rows of the first queued
table, returned by the last query, and only such rows are sent. -/
theorem performAll_ownsRows {settings : Settings} {commands : Option CommandQueue} {w : Recorded σ}
    {reqs : List Request} {s' : Session (Recorded σ)}
    (h : Request.performAll env.recorded reqs ⟨{ settings, commands }, w⟩ = .ok () s') :
    (s'.coordinator.buffer.rows ≠ [] → ∃ t low high q rows, s'.HoldsRowsOf t low high q rows) ∧
      ∃ sts, Unfolds env.recorded ⟨{ settings, commands }, w⟩ reqs sts s' ∧
        SendsOwn env ⟨{ settings, commands }, w⟩ sts := by
  obtain ⟨sts, hsts⟩ := performAll_unfolds h
  have hinitial := Session.Owns.initial settings commands w
  refine ⟨(hinitial.performAll hsts.performs).holds, sts, hsts, ?_⟩
  intro before st after s₁ s₂ _ hbefore hst
  obtain ⟨new, hnew, hsent⟩ := emitted_of_perform hst (hinitial.performAll hbefore).consistent
  refine ⟨new, hnew, fun x hx => (hsent x hx).imp_right fun ⟨hfront, hrow⟩ => ?_⟩
  refine ⟨hfront, hrow, fun hstopped => ?_⟩
  exact not_mem_queue_of_stopped hbefore hstopped (List.mem_of_head? hfront)

namespace Rehearsal

theorem twoTables_ownsRows : ∃ s',
    Request.performAll environment.recorded [.start 9 none,
      .add 9 [⟨"d", "a"⟩, ⟨"d", "b"⟩] .empty, .process 9 (unit 6 .heartbeat)]
      (twoTables [upTo 5, upTo 5, upTo 6, upTo 6, upTo 7]) = .ok () s' ∧
    s'.emitted.map (fun x => (x.table, x.record.key)) = [(⟨"d", "a"⟩, ⟨[.int 1]⟩)] ∧
    s'.coordinator.buffer.rows.map Row.key = [⟨[.int 2]⟩] ∧
    (∃ t low high q rows, s'.HoldsRowsOf t low high q rows) ∧
    ∃ sts, Unfolds environment.recorded (twoTables [upTo 5, upTo 5, upTo 6, upTo 6, upTo 7])
        [.start 9 none, .add 9 [⟨"d", "a"⟩, ⟨"d", "b"⟩] .empty, .process 9 (unit 6 .heartbeat)] sts
        s' ∧
      SendsOwn environment (twoTables [upTo 5, upTo 5, upTo 6, upTo 6, upTo 7]) sts := by
  obtain ⟨s', h, hends⟩ := exists_of_endsIn
    (x := Request.performAll environment.recorded [.start 9 none,
      .add 9 [⟨"d", "a"⟩, ⟨"d", "b"⟩] .empty, .process 9 (unit 6 .heartbeat)])
    (s := twoTables [upTo 5, upTo 5, upTo 6, upTo 6, upTo 7])
    (p := fun s => s.emitted.map (fun x => (x.table, x.record.key)) = [(⟨"d", "a"⟩, ⟨[.int 1]⟩)] &&
      s.coordinator.buffer.rows.map Row.key = [⟨[.int 2]⟩]) (by decide +kernel)
  simp only [Bool.and_eq_true, decide_eq_true_eq] at hends
  obtain ⟨hheld, sts, hsts, hsends⟩ := performAll_ownsRows h
  refine ⟨s', h, hends.1, hends.2, hheld fun hempty => ?_, sts, hsts, hsends⟩
  simp [hempty] at hends

end Rehearsal
end Backfill
