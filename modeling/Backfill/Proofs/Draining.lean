import Backfill.Proofs.Termination

/-! One heartbeat finishes an idle snapshot. If the store does not change any more, nothing is
executed while a chunk is read, so a heartbeat or a commit at the latest position has reached every
window as soon as it is captured. Closing one window after the other it drains the queue. What was
emitted, what is being sent, what is held and what is still to be read make one list that no move
changes. -/
namespace Backfill
open Procedure Session Environment
variable {σ τ : Type} {env : Environment σ}

/-- A store at rest: its calls succeed, its tables and executed positions do not change, and a query
is answered with the first rows that it asks for. -/
structure Environment.AtRest (env : Environment σ) (tables : Table → List Row)
    (admits : String → Row → Bool) (executed : PositionSet) : Prop where
  ascending : ∀ t, Ascends (tables t)
  positions : ∀ w, (env.executedPositions w).1 = .ok executed
  begin : ∀ w, (env.beginRead w).1 = .ok ()
  commit : ∀ w, (env.commit w).1 = .ok ()
  maximum : ∀ t w, (env.maximumKey t w).1 = .ok ((tables t).getLast?.map Row.key)
  query : ∀ q w, ∃ rows, (env.rangeQuery q w).1 = .ok rows ∧
    q.FirstRows (fun f row => admits f row = true) (ChunkQuery.contentsOf (tables q.table)) rows
  emit : ∀ e w, (env.emit e w).1 = .ok ()
  awake : ∀ w, env.isInterrupted w = false

/-- Whether a unit is a heartbeat or a commit with which a coordinator comes to the end of its
window, and at which nothing later is executed: it has no position, or it is the latest executed one
of its source, or later. -/
structure Event.Finishes (e : Event) (executed : PositionSet) (c : Coordinator) : Prop where
  kind : e.kind = .heartbeat ∨ e.kind = .commit
  latest : ∀ g, e.position = some g → (∃ n, executed.contains ⟨g.source, n⟩ = true) ∧
    ∀ n, executed.contains ⟨g.source, n⟩ = true → n ≤ g.transaction
  window : ∀ g, e.position = some g → c.isReachedBy (some g) = true ∨
    ∃ r low high, c.run = some r ∧ r.watermarks = ⟨some low, some high⟩ ∧
      low.contains g = false ∧ high.contains g = false

/-- Whether the source of a unit's position has executed something, and nothing later. -/
def Event.IsLatest (e : Event) (executed : PositionSet) : Prop :=
  ∀ g, e.position = some g → ∃ m, executed.max? g.source = some m ∧ m ≤ g.transaction

def Event.read (e : Event) (x : Table × Row) : Emission :=
  ⟨e.partition, x.1, x.2.record, e.offset.forSnapshot⟩

namespace Environment.AtRest
variable {tables : Table → List Row} {admits : String → Row → Bool} {executed : PositionSet}

private theorem recording_ne_error {α : Type} {answer : σ → α → List (Answer σ)}
    {f : σ → Except Failure α × σ} {w w' : Recorded σ} {a : α} {e : Failure}
    (h : (f w.world).1 = .ok a) : recording answer f w ≠ (.error e, w') := by
  intro hfails
  unfold recording at hfails
  split at hfails
  · exact absurd (Prod.mk.inj hfails).1 (by simp)
  · rename_i hf
    rw [hf] at h
    exact absurd h (by simp)

theorem positions_ne_error (rest : env.AtRest tables admits executed) {w w' : Recorded σ}
    {f : Failure} : env.recorded.executedPositions w ≠ (.error f, w') := by
  simpa only [recorded] using recording_ne_error (rest.positions w.world)

theorem commit_ne_error (rest : env.AtRest tables admits executed) {w w' : Recorded σ}
    {f : Failure} : env.recorded.commit w ≠ (.error f, w') := by
  simpa only [recorded] using recording_ne_error (rest.commit w.world)

/-- Over a store at rest no reading breaks off. -/
theorem not_breaks (rest : env.AtRest tables admits executed) {p : Phase}
    {s s' : Session (Recorded σ)} {f : Failure} : ¬ Breaks env.recorded p s f s' := by
  intro h
  cases h with
  | unsent emit =>
    simp only [recorded] at emit
    exact recording_ne_error (rest.emit _ _) emit
  | stayed asked | stopped asked => exact absurd asked (Bool.eq_false_iff.1 (rest.awake _))
  | uncommitted reads commit => exact rest.commit_ne_error commit
  | unopened reads commit opens =>
    cases opens with
    | positions positions => exact rest.positions_ne_error positions
    | commit positions commit => exact rest.commit_ne_error commit
    | begin positions commit begins =>
      simp only [recorded] at begins
      exact recording_ne_error (rest.begin _) begins
  | unmeasured run tables unknown maximum =>
    simp only [recorded] at maximum
    exact recording_ne_error (rest.maximum _ _) maximum
  | @unanswered c w _ _ _ t _ run tables known query =>
    obtain ⟨rows, hrows, -⟩ := rest.query (c.chunkQuery t) w.world
    simp only [recorded] at query
    exact recording_ne_error hrows query
  | uncaptured running positions => exact rest.positions_ne_error positions

theorem not_breaksOff (rest : env.AtRest tables admits executed) {p : Phase}
    {s s' : Session (Recorded σ)} {f : Failure} : ¬ BreaksOff env.recorded p s f s' :=
  fun ⟨_, _, _, hbreaks⟩ => rest.not_breaks hbreaks

section Answers
variable {w w' : Recorded σ}

theorem eq_of_positions (rest : env.AtRest tables admits executed) {found : PositionSet}
    (h : env.recorded.executedPositions w = (.ok found, w')) : found = executed := by
  obtain ⟨v, hv, -⟩ := recorded_positions_eq_ok.1 h
  exact Except.ok.inj ((congrArg Prod.fst hv).symm.trans (rest.positions w.world))

theorem eq_of_maximum (rest : env.AtRest tables admits executed) {t : Table} {k : Option Key}
    (h : env.recorded.maximumKey t w = (.ok k, w')) : (tables t).getLast?.map Row.key = k := by
  obtain ⟨v, hv, -⟩ := recorded_maximum_eq_ok.1 h
  exact Except.ok.inj ((rest.maximum t w.world).symm.trans (congrArg Prod.fst hv))

theorem firstRows_of_query (rest : env.AtRest tables admits executed) {q : ChunkQuery}
    {rows : List Row} (h : env.recorded.rangeQuery q w = (.ok rows, w')) :
    q.FirstRows (fun f row => admits f row = true) (ChunkQuery.contentsOf (tables q.table)) rows := by
  obtain ⟨v, hv, -⟩ := recorded_query_eq_ok.1 h
  obtain ⟨found, hfound, hfirst⟩ := rest.query q w.world
  obtain rfl : found = rows := Except.ok.inj (hfound.symm.trans (congrArg Prod.fst hv))
  exact hfirst

end Answers

/-- A store at rest has finitely many rows and follows a script that is over. -/
theorem scripted (rest : env.AtRest tables admits executed) :
    env.recorded.Scripted (fun t => ((tables t).map Row.key).toFinset) (fun _ => [])
      (fun _ => executed) where
  rows := by
    intro q w rows w' hquery row hrow
    have hfirst := rest.firstRows_of_query hquery
    have hmem := (ChunkQuery.contentsOf_eq_some (rest.ascending q.table) row).1 (hfirst.stored row hrow)
    exact ⟨List.mem_toFinset.2 (List.mem_map_of_mem hmem), (hfirst.asked row hrow).after,
      (hfirst.asked row hrow).upTo⟩
  positions := by
    intro w found w' hpositions
    obtain rfl := rest.eq_of_positions hpositions
    exact ⟨rfl, rfl, rfl⟩
  commit _ _ _ _ := ⟨rfl, rfl⟩
  begin _ _ _ _ := ⟨rfl, rfl⟩
  maximum _ _ _ _ _ := ⟨rfl, rfl⟩
  query _ _ _ _ _ := ⟨rfl, rfl⟩

end Environment.AtRest

/-- Whether a phase is one that leads on to the end of the snapshot. While a chunk is read its low
watermark is what is executed; afterwards the snapshot is over, or the position has reached the next
window. -/
def Phase.LeadsOn (executed : PositionSet) (position : Option Position) (p : Phase) (r : Run) : Prop :=
  match p with
  | .sending .. | .due => r.isRunning = true
  | .filling | .filled => r.watermarks.low = some executed
  | .idle => r.isFinished = true ∨ r.isRunning = true ∧ r.watermarks.isReached position = true

section Draining
variable (tables : Table → List Row) (admits : String → Row → Bool) (e : Event)
  (whole : List Emission)

/-- A session with a run that is not paused; what was emitted, what is being sent and what is planned
make up a whole. -/
structure Session.Plans (p : Phase) (s : Session (Recorded σ)) (r : Run) : Prop where
  chunkSize : s.coordinator.settings.chunkSize ≠ 0
  consistent : s.coordinator.Consistent p
  run : s.coordinator.run = some r
  unpaused : r.paused = false
  line : s.emitted ++ p.records ++
    (r.plan tables admits s.coordinator.buffer.rows).map e.read = whole

def Session.Drains (executed : PositionSet) (p : Phase) (s : Session (Recorded σ)) : Prop :=
  ∃ r, s.Plans tables admits e whole p r ∧ p.LeadsOn executed e.position r

end Draining

section
variable {tables : Table → List Row} {admits : String → Row → Bool} {e : Event}
  {whole : List Emission} {executed : PositionSet} {p q : Phase} {s s' : Session (Recorded σ)}
  {r r' : Run}

theorem Session.Plans.of_plan_eq (hs : s.Plans tables admits e whole p r)
    (h : Move env.recorded p s q s') (hrun : s'.coordinator.run = some r')
    (hunpaused : r'.paused = false)
    (hplan : r'.plan tables admits s'.coordinator.buffer.rows =
      r.plan tables admits s.coordinator.buffer.rows) : s'.Plans tables admits e whole q r' where
  chunkSize := h.keeps.1 ▸ hs.chunkSize
  consistent := hs.consistent.move h
  run := hrun
  unpaused := hunpaused
  line := by rw [emitted_move h, hplan, hs.line]

theorem Session.Plans.finish (hs : s.Plans tables admits e whole .filling r)
    (h : Move env.recorded .filling s .filling s') {t : Table} {ts : List Table}
    (queued : r.tables = t :: ts) {now : Int64}
    (hrun : s'.coordinator.run = some (r.nextTable now))
    (hover : remainder tables admits t (r.filters.get? t.text) r.chunk.stop r.chunk.maximum = []) :
    s'.Plans tables admits e whole .filling (r.nextTable now) := by
  refine hs.of_plan_eq h hrun hs.unpaused ?_
  rw [show s.coordinator.buffer.rows = [] from hs.consistent.rows,
    show s'.coordinator.buffer.rows = [] from (hs.consistent.move h).rows]
  exact Run.plan_nextTable queued now hover

/-- If nothing was executed while a chunk was read, its window is reached by every position at
which nothing later is executed. -/
theorem Watermarks.isReached_of_same (latest : e.IsLatest executed) :
    (⟨some executed, some (executed.subtract executed)⟩ : Watermarks).isReached e.position = true := by
  cases hposition : e.position with
  | none => rfl
  | some g =>
    obtain ⟨m, hm, hle⟩ := latest g hposition
    simp [isReached, executed.isEmpty_subtract_self, hm, hle]

theorem Move.drains (rest : env.AtRest tables admits executed) (latest : e.IsLatest executed)
    (h : Move env.recorded p s q s') (hs : s.Drains tables admits e whole executed p) :
    s'.Drains tables admits e whole executed q := by
  obtain ⟨r, hplans, hleads⟩ := hs
  have hmove := h
  have hrows := hplans.consistent.rows
  have heq {r₂ : Run} (hr : s.coordinator.run = some r₂) : r = r₂ :=
    Option.some.inj (hplans.run.symm.trans hr)
  cases h with
  | @sent pt t o n row rows c w w' emit =>
    refine ⟨r.recordSent row.key, hplans.of_plan_eq hmove ?_ hplans.unpaused rfl, hleads⟩
    exact Coordinator.updateRun_of_some hplans.run _ ▸ rfl
  | allSent => exact ⟨r, hplans.of_plan_eq hmove hplans.run hplans.unpaused rfl, hleads⟩
  | declined stays =>
    have hrunning : r.isRunning = true := hleads
    simp [Coordinator.mayRead, hplans.run, hrunning, hplans.unpaused] at stays
  | @began c w w₁ w₂ w₃ w₄ low reads commit positions commit' begins =>
    obtain rfl := rest.eq_of_positions positions
    refine ⟨(r.startChunk (env.recorded.now w₁)).setLow low, ?_, rfl⟩
    refine hplans.of_plan_eq hmove ?_ hplans.unpaused rfl
    simp [Coordinator.count, Coordinator.updateRun, show c.run = some r from hplans.run]
  | @measured c w w' r t ts k run queued unknown maximum =>
    obtain rfl := heq run
    obtain ⟨last, hlast, rfl⟩ := Option.map_eq_some_iff.1 (rest.eq_of_maximum maximum)
    refine ⟨r.setMaximum last.key, hplans.of_plan_eq hmove ?_ hplans.unpaused ?_, hleads⟩
    · simp [Coordinator.updateRun, run]
    · have hlargest : remainder tables admits t (r.filters.get? t.text) r.chunk.stop
          (some last.key) = remainder tables admits t (r.filters.get? t.text) r.chunk.stop none :=
        remainder_of_largest (rest.ascending t) hlast
      rw [← unknown] at hlargest
      rw [Run.plan_of_tables queued, ← hlargest, Run.plan_of_tables (r := r.setMaximum _) queued]
      rfl
  | @vacant c w w' r t ts run queued unknown maximum =>
    obtain rfl := heq run
    have hnone := Option.map_eq_none_iff.1 (rest.eq_of_maximum maximum)
    exact ⟨_, hplans.finish hmove queued (by simp [Coordinator.count, Coordinator.updateRun, run]; rfl)
      (remainder_of_vacant hnone), hleads⟩
  | @exhausted c w w' r t ts run queued known query =>
    obtain rfl := heq run
    obtain ⟨-, hafter, hupTo, hfilter⟩ := Coordinator.chunkQuery_of_run run queued
    have hlimit : 0 < (c.chunkQuery t).limit :=
      Nat.pos_of_ne_zero fun h => hplans.chunkSize (UInt64.toNat_inj.1 h)
    have hnone := remainder_of_not_found (rest.ascending _) (rest.firstRows_of_query query) hlimit
    rw [hafter, hupTo, hfilter] at hnone
    exact ⟨_, hplans.finish hmove queued (by simp [Coordinator.count, Coordinator.updateRun, run]; rfl)
      hnone, hleads⟩
  | @buffered c w w' r t ts rows run queued known found query =>
    obtain rfl := heq run
    obtain ⟨-, hafter, hupTo, hfilter⟩ := Coordinator.chunkQuery_of_run run queued
    have hfirst := rest.firstRows_of_query query
    have hlast := List.getLast?_eq_some_getLast found
    generalize rows.getLast found = last at hlast
    obtain ⟨hbuffer, hrun⟩ := Standing.bufferRows_of_nodup (t := t) hrows hfirst.nodup hlast
    refine ⟨r.chunkEndsAt last.key, hplans.of_plan_eq hmove (by simp [hrun, run]) hplans.unpaused ?_,
      hleads⟩
    have hsplit := remainder_of_found (rest.ascending _) hfirst hlast
    rw [hafter, hupTo, hfilter] at hsplit
    change remainder tables admits t _ _ _ = rows ++ remainder tables admits t _ _ _ at hsplit
    change Run.plan _ _ _ (c.bufferRows t rows).buffer.rows = Run.plan _ _ _ c.buffer.rows
    rw [hbuffer, hrows, Run.plan_of_tables queued, List.nil_append, hsplit,
      Run.plan_of_tables (r := r.chunkEndsAt _) queued]
    rfl
  | served run queued => exact ⟨r, hplans.of_plan_eq hmove hplans.run hplans.unpaused rfl, hleads⟩
  | @kept c w w' found running positions clear =>
    obtain rfl := rest.eq_of_positions positions
    have hr : c.run = some r := hplans.run
    have hmarks : (r.setHigh found).watermarks = ⟨some found, some (found.subtract found)⟩ := by
      simp [Run.setHigh, show r.watermarks.low = some found from hleads]
    refine ⟨r.setHigh found, hplans.of_plan_eq hmove ?_ hplans.unpaused rfl, .inr ⟨?_, ?_⟩⟩
    · simp [Coordinator.updateRun, hr]
    · simpa [Coordinator.isRunning, hr, Run.isRunning, Run.setHigh] using running
    · rw [hmarks]
      exact Watermarks.isReached_of_same latest
  | @reverted c w w' found running positions ambiguous held =>
    obtain rfl := rest.eq_of_positions positions
    have hr : c.run = some r := hplans.run
    have hmarks : (r.setHigh found).watermarks = ⟨some found, some (found.subtract found)⟩ := by
      simp [Run.setHigh, show r.watermarks.low = some found from hleads]
    simp [Coordinator.updateRun, hr, hmarks, Watermarks.isAmbiguous_of_same] at ambiguous
  | @completed c w ended =>
    have hr : c.run = some r := hplans.run
    have hended : r.isRunning = false := by simpa [Coordinator.isRunning, hr] using ended
    refine ⟨r.closeWindow (env.recorded.now w), hplans.of_plan_eq hmove ?_ hplans.unpaused rfl, .inl ?_⟩
    · simp [Coordinator.updateRun, hr]
    · simpa [Run.isFinished, Run.closeWindow, Run.touch, Run.isRunning] using hended

/-- When a window ends, the rows that are held are sent first. -/
theorem Session.Plans.flush (hs : s.Plans tables admits e whole .idle r)
    (hrunning : r.isRunning = true) (now : Int64)
    (hconsistent : ((s.coordinator.closeWindow now).flushing e.partition e.offset).2.Consistent
      ((s.coordinator.closeWindow now).flushing e.partition e.offset).1) :
    Session.Drains tables admits e whole executed
      ((s.coordinator.closeWindow now).flushing e.partition e.offset).1
      ⟨((s.coordinator.closeWindow now).flushing e.partition e.offset).2, s.world⟩ := by
  have hline := hs.line
  rw [Phase.records_idle, List.append_nil] at hline
  have hrun : (s.coordinator.closeWindow now).dropRows.run = some (r.closeWindow now) := by
    simp [Coordinator.dropRows, Coordinator.closeWindow, Coordinator.count, Coordinator.updateRun,
      hs.run]
  rw [Coordinator.flushing_coordinator] at hconsistent ⊢
  refine ⟨r.closeWindow now, ⟨hs.chunkSize, hconsistent, hrun, hs.unpaused, ?_⟩, ?_⟩
  · rw [← hline]
    rcases hs.consistent.flushing now e.partition e.offset with ⟨hrows, hp⟩ | ⟨t, ht, hp⟩
    · rw [hp, hrows, show Phase.due.records = [] from rfl, List.append_nil]
      rfl
    · obtain ⟨ts, hqueued⟩ : ∃ ts, r.tables = t :: ts := by
        simpa [Coordinator.currentTable, hs.run, Run.currentTable, List.head?_eq_some_iff] using ht
      have hplan : r.plan tables admits s.coordinator.buffer.rows = _ :=
        Run.plan_append hqueued s.coordinator.buffer.rows
      rw [hp, hplan, List.map_append, List.map_map, List.append_assoc]
      rfl
  · rcases hs.consistent.flushing now e.partition e.offset with ⟨-, hp⟩ | ⟨t, -, hp⟩ <;>
    · rw [hp]
      exact hrunning

/-- The first window ends where the unit belongs, or it is reached afterwards. -/
theorem Session.Plans.place (rest : env.AtRest tables admits executed)
    (latest : e.IsLatest executed)
    (hkind : ∀ change, e.kind ≠ .change change) (hs : s.Plans tables admits e whole .idle r)
    (hrunning : r.isRunning = true)
    (hends : s.coordinator.isReachedBy e.position = true ∨ (s.coordinator.transition e).closes = true)
    {rounds : Nat} {u : Unit} (h : (Stage.place rounds e).perform env.recorded s = .ok u s') :
    s'.Drains tables admits e whole executed .idle := by
  obtain ⟨p, t, henter, hmoves⟩ := perform_enters h
  have hconsistent := hs.consistent.enter henter
  cases henter with
  | @placed _ _ c w stays =>
    obtain ⟨-, rfl⟩ := hmoves.of_idle
    have hreached : c.isReachedBy e.position = true := hends.resolve_right (by simp [stays])
    have hr : c.run = some r := hs.run
    have hmoved : (c.moveTo e).run = some { r with mode := (r.transition e.position).mode } := by
      rw [Coordinator.moveTo_run, hr, Option.map_some]
    have hsize : (c.moveTo e).settings.chunkSize ≠ 0 := (c.moveTo_keeps e).1 ▸ hs.chunkSize
    refine ⟨_, ⟨hsize, hconsistent, hmoved, hs.unpaused, ?_⟩, .inr ⟨hrunning, ?_⟩⟩
    · rw [← hs.line]
      change _ ++ _ ++ (Run.plan _ _ _ (c.moveTo e).buffer.rows).map e.read = _
      rw [Coordinator.moveTo_rows_of_not_change hkind c]
      rfl
    · simpa [Coordinator.isReachedBy, hr, hrunning] using hreached
  | closed closes =>
    exact hmoves.keeps (I := fun p s => s.Drains tables admits e whole executed p)
      (fun hmove hi => hmove.drains rest latest hi) (hs.flush hrunning _ hconsistent)

/-- Each window that is reached ends, and nothing happens if none is. -/
theorem Session.Drains.close (rest : env.AtRest tables admits executed)
    (latest : e.IsLatest executed)
    (hs : s.Drains tables admits e whole executed .idle) {rounds : Nat} {u : Unit}
    (h : (Stage.close rounds e).perform env.recorded s = .ok u s') :
    s'.Drains tables admits e whole executed .idle := by
  obtain ⟨p, t, henter, hmoves⟩ := perform_enters h
  obtain ⟨r, hplans, hleads⟩ := hs
  have hconsistent := hplans.consistent.enter henter
  cases henter with
  | unreached stays =>
    obtain ⟨-, rfl⟩ := hmoves.of_idle
    exact ⟨r, hplans, hleads⟩
  | @reached _ _ c w reached =>
    have hrunning : r.isRunning = true := by
      simp only [Coordinator.isReachedBy, show c.run = some r from hplans.run, Option.any_some,
        Bool.and_eq_true] at reached
      exact reached.1
    exact hmoves.keeps (I := fun p s => s.Drains tables admits e whole executed p)
      (fun hmove hi => hmove.drains rest latest hi) (hplans.flush hrunning _ hconsistent)

theorem Session.Drains.closeAll (rest : env.AtRest tables admits executed)
    (latest : e.IsLatest executed)
    (hs : s.Drains tables admits e whole executed .idle) {rounds n : Nat} {u : Unit}
    (h : Stage.performAll env.recorded (List.replicate n (.close rounds e)) s = .ok u s') :
    s'.Drains tables admits e whole executed .idle := by
  refine each_keeps (f := Stage.perform env.recorded)
    (I := fun s => s.Drains tables admits e whole executed .idle) (fun st hst _ _ hperform hi => ?_) h hs
  obtain rfl := List.eq_of_mem_replicate hst
  exact hi.close rest latest hperform

theorem Environment.AtRest.not_fails (rest : env.AtRest tables admits executed) {rounds : Nat}
    {st : Stage} (hst : st = .place rounds e ∨ st = .close rounds e) {f : Failure} :
    ¬ Fails env.recorded st s f s' := by
  intro h
  cases h with
  | placed closes asked | reached reached asked =>
    exact absurd asked (Bool.eq_false_iff.1 (rest.awake _))
  | broken enters breaks => exact rest.not_breaksOff breaks
  | _ => rcases hst with hst | hst <;> cases hst

end

structure Session.Drained (tables : Table → List Row) (admits : String → Row → Bool) (e : Event)
    (r : Run) (s s' : Session (Recorded σ)) : Prop where
  finished : s'.coordinator.run.any Run.isFinished = true
  /-- The rows that were held are sent, and then those that were still to be read. -/
  emitted : s'.emitted = s.emitted ++ (r.plan tables admits s.coordinator.buffer.rows).map e.read
  /-- Of each table, they are sent in the order of their keys, each row once. -/
  once : ∀ t, Ascends (rowsOf t (r.plan tables admits s.coordinator.buffer.rows))
  /-- If the queued tables are written differently, these are the rest of the current table and the
  other tables in the order of the queue, as far as the filters of the run let the rows pass. -/
  plan : ∀ t ts, r.tables = t :: ts → (r.tables.map Table.text).Nodup →
    r.plan tables admits s.coordinator.buffer.rows =
      (s.coordinator.buffer.rows ++
        remainder tables admits t (r.filters.get? t.text) r.chunk.stop r.chunk.maximum).map (t, ·) ++
      ts.flatMap fun u => (remainder tables admits u (r.filters.get? u.text) none none).map (u, ·)

namespace Event.Finishes
variable {e : Event} {executed : PositionSet} {c : Coordinator} {r : Run}

theorem not_change (h : e.Finishes executed c) (change : Change) : e.kind ≠ .change change := by
  rcases h.kind with hkind | hkind <;> simp [hkind]

theorem isLatest (h : e.Finishes executed c) : e.IsLatest executed := by
  intro g hg
  obtain ⟨⟨n, hn⟩, hle⟩ := h.latest g hg
  cases hmax : executed.max? g.source with
  | none => exact absurd (PositionSet.max?_eq_none_iff.1 hmax n) (by simp [hn])
  | some m => exact ⟨m, rfl, hle m (PositionSet.max?_eq_some_iff.1 hmax).1⟩

/-- The pending window ends where the unit belongs, or the unit has reached it. -/
theorem ends (h : e.Finishes executed c) (hlive : c.Live) (hr : c.run = some r)
    (hrunning : r.isRunning = true) (hunpaused : r.paused = false) :
    c.isReachedBy e.position = true ∨ (c.transition e).closes = true := by
  cases hposition : e.position with
  | none =>
    obtain ⟨high, hhigh⟩ := Option.isSome_iff_exists.1 (hlive r hr hrunning hunpaused)
    exact .inl (by simp [Coordinator.isReachedBy, hr, hrunning, Watermarks.isReached, hhigh])
  | some g =>
    refine (h.window g hposition).imp id ?_
    rintro ⟨r', low, high, hr', hmarks, hlow, hpast⟩
    obtain rfl := Option.some.inj (hr.symm.trans hr')
    cases hmode : r.mode <;> simp [Coordinator.transition, hr, Run.transition, hmode, hmarks,
      hposition, Watermarks.transition, Watermarks.isPast, hlow, hpast, Transition.closes]

end Event.Finishes

section
variable {tables : Table → List Row} {admits : String → Row → Bool} {executed : PositionSet}
  {e : Event} {whole : List Emission} {r : Run} {s s' : Session (Recorded σ)}

theorem applyPending_of_nil (h : s.coordinator.pending = []) (rounds : Nat) :
    applyPending env.recorded rounds s = .ok () ⟨s.coordinator.takeCommands, s.world⟩ := by
  rw [applyPending_eq, h]
  rfl

theorem process_not_failed (rest : env.AtRest tables admits executed)
    (finishes : e.Finishes executed s.coordinator) (hr : s.coordinator.run = some r)
    (hline : s.coordinator.pending = []) {rounds : Nat} {f : Failure} :
    Session.process env.recorded rounds e s ≠ .error (.failed f) s' := by
  intro h
  rcases process_failed_of_started (by rw [hr]; rfl) h with hpending | ⟨t, n, -, hstages⟩
  · rw [applyPending_of_nil hline] at hpending
    exact absurd hpending (by simp)
  obtain ⟨before, st, after, v, hsplit, -, hst⟩ := exists_of_each_eq_error hstages
  have hmem : st ∈ Stage.place rounds e :: e.closeStages rounds n ++ e.passStages :=
    hsplit ▸ List.mem_append_right _ List.mem_cons_self
  have hlook : st = .place rounds e ∨ st = .close rounds e := by
    rcases List.mem_append.1 hmem with hmem | hmem
    · exact (List.mem_cons.1 hmem).imp id Event.eq_of_mem_closeStages
    · rcases finishes.kind with hkind | hkind <;> simp [Event.passStages, hkind] at hmem
  exact rest.not_fails hlook (perform_fails hst)

theorem process_drains (rest : env.AtRest tables admits executed)
    (finishes : e.Finishes executed s.coordinator) (hlive : s.coordinator.Live)
    (hplans : s.Plans tables admits e whole .idle r) (hrunning : r.isRunning = true)
    (hline : s.coordinator.pending = []) {rounds : Nat} {u : Unit}
    (h : Session.process env.recorded rounds e s = .ok u s') :
    s'.coordinator.run.any Run.isFinished = true ∧ s'.emitted = whole := by
  obtain ⟨t, n, hpending, hstages⟩ := process_of_started (by rw [hplans.run]; rfl) h
  rw [applyPending_of_nil hline] at hpending
  obtain ⟨-, rfl⟩ := EStateM.Result.ok.inj hpending
  have htaken : Session.Plans tables admits e whole .idle
      (⟨s.coordinator.takeCommands, s.world⟩ : Session (Recorded σ)) r :=
    ⟨hplans.chunkSize, ⟨hplans.consistent.marks, hplans.consistent.rows⟩, hplans.run,
      hplans.unpaused, hplans.line⟩
  have hends := finishes.ends hlive hplans.run hrunning hplans.unpaused
  obtain ⟨r', hplans', hleads⟩ : s'.Drains tables admits e whole executed .idle := by
    obtain ⟨v, hclosed, hpassed⟩ := each_append_eq_ok.1 hstages
    obtain ⟨v', hplace, hclose⟩ := each_cons_eq_ok.1 hclosed
    have hplaced := htaken.place rest finishes.isLatest finishes.not_change hrunning hends hplace
    rcases finishes.kind with hkind | hkind <;>
    · simp only [Event.passStages, Event.closeStages, hkind] at hpassed hclose
      exact each_nil_eq_ok.1 hpassed ▸ hplaced.closeAll rest finishes.isLatest hclose
  have hunreached := unreached_of_process finishes.kind h
  have hfinished : r'.isFinished = true := by
    refine hleads.resolve_right ?_
    rintro ⟨hrunning', hreached⟩
    simp [Coordinator.isReachedBy, hplans'.run, hrunning', hreached] at hunreached
  have hqueue : r'.tables = [] := by
    have hended : r'.isRunning = false := by
      simp only [Run.isFinished, Bool.and_eq_true, Bool.not_eq_true'] at hfinished
      exact hfinished.1.1
    simpa [Run.isRunning] using hended
  refine ⟨by simp [hplans'.run, hfinished], ?_⟩
  have hdone := hplans'.line
  rw [Phase.records_idle, List.append_nil, Run.plan, hqueue] at hdone
  simpa using hdone

end

/-- After whatever was served well over an honest store, in which now nothing changes any more, a
heartbeat or a commit at the latest position finishes the run. -/
theorem Served.drained {history : Environment τ} {contents : τ → Table → Contents}
    {permits : String → Row → Prop} (honest : history.Honest contents permits)
    {tables : Table → List Row} {admits : String → Row → Bool} {executed : PositionSet}
    (rest : env.AtRest tables admits executed) {c : Coordinator} {before : τ}
    (hs : Served history (·.tables.Nodup) ⟨c, before⟩) {r : Run} (hr : c.run = some r)
    (hrunning : r.isRunning = true) (hunpaused : r.paused = false) (hline : c.pending = [])
    (hsize : c.settings.chunkSize ≠ 0) {e : Event} (finishes : e.Finishes executed c)
    (w : Recorded σ) :
    ∃ n s', (∀ rounds ≥ n, Session.process env.recorded rounds e ⟨c, w⟩ = .ok () s') ∧
      Session.Drained tables admits e r ⟨c, w⟩ s' := by
  have hplans : Session.Plans tables admits e
      ((⟨c, w⟩ : Session (Recorded σ)).emitted ++ (r.plan tables admits c.buffer.rows).map e.read)
      .idle ⟨c, w⟩ r :=
    ⟨hsize, hs.consistent, hr, hunpaused, by rw [Phase.records_idle, List.append_nil]⟩
  obtain ⟨n, result, hresult, hends⟩ :=
    process_returns rest.scripted e (s := ⟨c, w⟩) hs.consistent
  cases result with
  | error stop s' =>
    cases stop with
    | failed f => exact absurd (hresult n le_rfl) (process_not_failed rest finishes hr hline)
    | exhausted => exact absurd rfl (hends s')
  | ok u s' =>
    obtain ⟨hfinished, hemitted⟩ :=
      process_drains rest finishes hs.live hplans hrunning hline (hresult n le_rfl)
    have hqueue : r.tables.Nodup := by
      have hnodup := hs.nodup_queue fun _ hr => hr
      rwa [Coordinator.queue, show (⟨c, before⟩ : Session τ).coordinator.run = some r from hr] at hnodup
    have hholds := hs.holdsInOrder honest
    refine ⟨n, s', hresult, hfinished, hemitted, fun t => ?_, fun t ts ht hdistinct => ?_⟩
    · refine ascends_plan rest.ascending hqueue hholds.ascending fun row hrow => ?_
      obtain ⟨k, hk, hle⟩ := hholds.reached row hrow
      exact ⟨k, by simpa [hr] using hk, hle⟩
    · rw [ht, List.map_cons, List.nodup_cons] at hdistinct
      rw [Run.plan_of_tables ht, remainders_of_nodup hdistinct.2]
      refine congrArg _ (List.flatMap_congr fun u hu => ?_)
      have hother : u.text ≠ t.text := fun heq => hdistinct.1 (heq ▸ List.mem_map_of_mem hu)
      rw [TextMap.get?_erase, if_neg hother]

namespace Rehearsal

def settled (rows : Table → List Row) (executed : PositionSet) : Environment Unit where
  serverVersion w := (.ok "8.0.34-log", w)
  executedPositions w := (.ok executed, w)
  beginRead w := (.ok (), w)
  commit w := (.ok (), w)
  maximumKey t w := (.ok ((rows t).getLast?.map Row.key), w)
  rangeQuery q w := (.ok (((rows q.table).filter fun r => q.within r.key).take q.limit), w)
  emit _ w := (.ok (), w)
  isInterrupted _ := false
  now _ := 0
  freshToken _ := "settled"

theorem settled_atRest {rows : Table → List Row} (h : ∀ t, Ascends (rows t))
    (executed : PositionSet) : (settled rows executed).AtRest rows (fun _ _ => true) executed where
  ascending := h
  positions _ := rfl
  begin _ := rfl
  commit _ := rfl
  maximum _ _ := rfl
  query q _ := ⟨_, rfl, ChunkQuery.firstRows_take (h q.table) fun _ _ _ => rfl⟩
  emit _ _ := rfl
  awake _ := rfl

/-- The first of three rows is held when the store comes to rest. A heartbeat at its latest position
closes the windows of three chunks and finishes the run. -/
theorem settled_drained : ∃ (s : Session (List PositionSet)) (r : Run) (n : Nat)
    (s' : Session (Recorded Unit)), s.coordinator.run = some r ∧
    r.isRunning = true ∧ s.coordinator.buffer.rows.length = 1 ∧
    (unit 5 .heartbeat).Finishes (upTo 5) s.coordinator ∧
    (∀ rounds ≥ n, Session.process (settled shelves (upTo 5)).recorded rounds (unit 5 .heartbeat)
      ⟨s.coordinator, ⟨(), []⟩⟩ = .ok () s') ∧
    Session.Drained shelves (fun _ _ => true) (unit 5 .heartbeat) r
      ⟨s.coordinator, ⟨(), []⟩⟩ s' := by
  obtain ⟨s, h, hshown⟩ := exists_of_endsIn
    (x := Request.performAll (shelf shelves) [.start 9 none,
      .add 9 [⟨"d", "a"⟩, ⟨"d", "b"⟩] .empty])
    (s := ⟨{ settings := { chunkSize := 1 } }, [.empty, upTo 4, upTo 5]⟩)
    (p := fun s => s.coordinator.pending.isEmpty && s.coordinator.settings.chunkSize ≠ 0 &&
      s.coordinator.buffer.rows.length = 1 && s.coordinator.isReachedBy (some ⟨"s", 5⟩) &&
      s.coordinator.run.any fun r => r.isRunning && !r.paused)
    (by decide +kernel)
  simp only [Bool.and_eq_true, decide_eq_true_eq, List.isEmpty_iff] at hshown
  obtain ⟨⟨⟨⟨hline, hsize⟩, hheld⟩, hreached⟩, hrun⟩ := hshown
  obtain ⟨r, hr, hrunning⟩ := (Option.any_eq_true _ _).1 hrun
  obtain ⟨hrunning, hunpaused⟩ := Bool.and_eq_true_iff.1 hrunning
  have hs : Served (shelf shelves) (·.tables.Nodup) s :=
    (Served.fresh _ _ _).performAll (by simp) h
  have hlatest (n : UInt64) : (upTo 5).contains ⟨"s", n⟩ = true → n ≤ 5 :=
    (PositionSet.max?_eq_some_iff.1 (show (upTo 5).max? "s" = some 5 by decide +kernel)).2 n
  have hfinishes : (unit 5 .heartbeat).Finishes (upTo 5) s.coordinator := by
    refine ⟨.inl rfl, fun g hg => ?_, fun g hg => ?_⟩ <;> obtain rfl := Option.some.inj hg
    · exact ⟨⟨5, by decide +kernel⟩, hlatest⟩
    · exact .inl hreached
  obtain ⟨n, s', hprocess, hdrained⟩ := Served.drained (shelf_honest shelves_ascending)
    (settled_atRest shelves_ascending (upTo 5)) hs hr hrunning (by simpa using hunpaused) hline hsize
    hfinishes ⟨(), []⟩
  exact ⟨s, r, n, s', hr, hrunning, hheld, hfinishes, hprocess, hdrained⟩

end Rehearsal
end Backfill
