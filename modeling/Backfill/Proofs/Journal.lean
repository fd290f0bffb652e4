import Backfill.Proofs.Consistency
import Backfill.Proofs.Recording

/-! What stages and moves add to the journal, and what they do to the window. A stage that captures
no positions reads no chunk. -/
namespace Backfill
open Procedure Session Environment
variable {σ : Type} {env : Environment σ}

namespace Coordinator

def window (c : Coordinator) : Option (WindowMode × Watermarks) :=
  c.run.map fun r => (r.mode, r.watermarks)

theorem window_updateRun {c : Coordinator} {f : Run → Run} (g : WindowMode × Watermarks →
    WindowMode × Watermarks) (h : ∀ r, ((f r).mode, (f r).watermarks) = g (r.mode, r.watermarks)) :
    (c.updateRun f).window = c.window.map g := by
  simp only [window, updateRun, Option.map_map]
  exact congrArg (fun f => c.run.map f) (funext h)

theorem window_updateRun_same {c : Coordinator} {f : Run → Run}
    (h : ∀ r, ((f r).mode, (f r).watermarks) = (r.mode, r.watermarks)) :
    (c.updateRun f).window = c.window := by
  simpa using window_updateRun id h

@[simp] theorem window_count (c : Coordinator) (f : Statistics → Statistics) :
    (c.count f).window = c.window := rfl

@[simp] theorem window_dropRows (c : Coordinator) : c.dropRows.window = c.window := rfl

@[simp] theorem window_recordSent (c : Coordinator) (k : Key) :
    (c.updateRun fun r => r.recordSent k).window = c.window := window_updateRun_same fun _ => rfl

@[simp] theorem window_setMaximum (c : Coordinator) (k : Key) :
    (c.updateRun fun r => r.setMaximum k).window = c.window := window_updateRun_same fun _ => rfl

@[simp] theorem window_nextTable (c : Coordinator) (now : Int64) :
    (c.updateRun fun r => r.nextTable now).window = c.window := window_updateRun_same fun _ => rfl

@[simp] theorem window_startChunk (c : Coordinator) (now : Int64) :
    (c.updateRun fun r => r.startChunk now).window = c.window := window_updateRun_same fun _ => rfl

@[simp] theorem window_setLow (c : Coordinator) (low : PositionSet) :
    (c.updateRun fun r => r.setLow low).window = c.window.map fun m => (m.1, ⟨some low, none⟩) :=
  window_updateRun _ fun _ => rfl

@[simp] theorem window_revertChunk (c : Coordinator) :
    (c.updateRun Run.revertChunk).window = c.window.map fun m => (.closed, m.2) :=
  window_updateRun _ fun _ => rfl

@[simp] theorem window_closeWindow (c : Coordinator) (now : Int64) :
    (c.updateRun fun r => r.closeWindow now).window = c.window.map fun _ => (.closed, {}) :=
  window_updateRun _ fun _ => rfl

@[simp] theorem window_bufferRows (c : Coordinator) (t : Table) (rows : List Row) :
    (c.bufferRows t rows).window = c.window := by
  simp only [bufferRows, window]
  cases (c.buffer.insertAll rows).lastKey? with
  | none => rfl
  | some k => exact window_updateRun_same fun _ => rfl

theorem window_setHigh {c : Coordinator} {low : PositionSet} (executed : PositionSet)
    (h : c.window = some (.closed, ⟨some low, none⟩)) :
    (c.updateRun fun r => r.setHigh executed).window =
      some (.closed, ⟨some low, some (executed.subtract low)⟩) := by
  obtain ⟨r, hr, hw⟩ := Option.map_eq_some_iff.1 h
  obtain ⟨hm, hw⟩ := Prod.mk.inj hw
  simp [window, updateRun, hr, Run.setHigh, hm, hw]

end Coordinator

/-- Whether the rows of a chunk are being looked for. -/
def Phase.isReading : Phase → Bool
  | .filling | .filled => true
  | _ => false

/-- What is captured stays captured, and a move that captures nothing leaves the window as it is,
unless the rows of a chunk are being looked for. -/
theorem captured_move {p q : Phase} {s t : Session (Recorded σ)}
    (h : Move env.recorded p s q t) : ∃ new, t.captured = s.captured ++ new ∧
      (new = [] → p.isReading = false →
        t.coordinator.window = s.coordinator.window ∧ q.isReading = false) := by
  cases h with
  | sent emit =>
    obtain ⟨v, -, rfl⟩ := recorded_emit_eq_ok.1 emit
    refine ⟨[], ?_, fun _ _ => ⟨by simp, rfl⟩⟩
    simp [captured, journal, List.filterMap_cons, Answer.executed?]
  | allSent => exact ⟨[], by simp [captured, journal], fun _ _ => ⟨by simp, rfl⟩⟩
  | declined stays => exact ⟨[], by simp, fun _ _ => ⟨rfl, rfl⟩⟩
  | @began c w w₁ w₂ w₃ w₄ low reads commit positions commit' begins =>
    obtain ⟨v₁, v₂, rfl, rfl⟩ := recorded_opening commit positions commit' begins
    refine ⟨[low], ?_, nofun⟩
    simp [captured, journal, List.filterMap_cons, Answer.executed?]
  | measured run tables unknown maximum | vacant run tables unknown maximum =>
    obtain ⟨v, -, rfl⟩ := recorded_maximum_eq_ok.1 maximum
    exact ⟨_, List.filterMap_append, fun _ h => nomatch h⟩
  | exhausted run tables known query | buffered run tables known found query =>
    obtain ⟨v, -, rfl⟩ := recorded_query_eq_ok.1 query
    exact ⟨_, List.filterMap_append, fun _ h => nomatch h⟩
  | served run tables => exact ⟨[], by simp, fun _ h => nomatch h⟩
  | kept running positions clear | reverted running positions ambiguous held =>
    obtain ⟨v, -, rfl⟩ := recorded_positions_eq_ok.1 positions
    exact ⟨_, List.filterMap_append, fun _ h => nomatch h⟩
  | completed ended => exact ⟨[], by simp [captured, journal], fun _ h => nomatch h⟩

theorem captured_moves {p q : Phase} {s t : Session (Recorded σ)}
    (h : Moves env.recorded p s q t) : ∃ new, t.captured = s.captured ++ new ∧
      (new = [] → p.isReading = false → t.coordinator.window = s.coordinator.window) := by
  induction h with
  | refl => exact ⟨[], by simp, fun _ _ => rfl⟩
  | step first _ ih =>
    obtain ⟨new, hnew, hfirst⟩ := captured_move first
    obtain ⟨new', hnew', hrest⟩ := ih
    refine ⟨new ++ new', by rw [hnew', hnew, List.append_assoc], fun h hp => ?_⟩
    obtain ⟨rfl, rfl⟩ := List.append_eq_nil_iff.1 h
    obtain ⟨hwindow, hq⟩ := hfirst rfl hp
    exact (hrest rfl hq).trans hwindow

theorem Moves.of_idle {q : Phase} {s t : Session σ} (h : Moves env .idle s q t) :
    q = .idle ∧ t = s := by
  cases h with
  | refl => exact ⟨rfl, rfl⟩
  | step first rest => nomatch first

namespace Coordinator

theorem deduplicate_run (c : Coordinator) (change : Change) : (c.deduplicate change).run = c.run := by
  unfold deduplicate
  split <;> rfl

theorem moveTo_run (c : Coordinator) (e : Event) :
    (c.moveTo e).run = c.run.map fun r => { r with mode := (r.transition e.position).mode } := by
  unfold moveTo
  split
  · split
    · exact deduplicate_run _ _
    · rfl
  · rfl

theorem window_moveTo (c : Coordinator) (e : Event) :
    (c.moveTo e).window = c.window.map fun m => ((m.2.transition m.1 e.position).mode, m.2) := by
  rw [window, moveTo_run]
  exact window_updateRun (c := c) _ fun _ => rfl

theorem window_stopTables (c : Coordinator) (now : Int64) (tables : List Table) :
    (c.stopTables now tables).window = c.window ∨
      (c.stopTables now tables).window = some (.closed, {}) := by
  rcases c.stopTables_cases now tables with ⟨heq, -⟩ | ⟨r, hr, -, ⟨-, heq⟩ | ⟨-, -, heq⟩ |
    ⟨-, -, heq⟩⟩ <;> rw [heq]
  · exact .inl rfl
  · exact .inr rfl
  · exact .inl (by simp [window, hr, Run.removeTables, Run.touch])
  · exact .inl (by simp [window, hr, Run.removeTables, Run.touch])

end Coordinator

theorem window_of_flushing {c : Coordinator} {r : Run} (now : Int64) (p : Partition)
    (o : Offset) (hr : c.run = some r) :
    ((c.closeWindow now).flushing p o).2.window = some (.closed, {}) := by
  rw [Coordinator.flushing_coordinator, Coordinator.window_dropRows, Coordinator.closeWindow,
    Coordinator.window_count, Coordinator.window_closeWindow, Coordinator.window, hr]
  rfl

theorem isReading_of_flushing (c : Coordinator) (p : Partition) (o : Offset) :
    (c.flushing p o).1.isReading = false := by
  rcases c.flushing_phase p o with h | ⟨t, -, h⟩ <;> rw [h] <;> rfl

theorem exists_run_of_closes {c : Coordinator} {e : Event}
    (h : (c.transition e).closes = true) : ∃ r, c.run = some r := by
  cases hr : c.run with
  | none => simp [Coordinator.transition, hr, Transition.closes] at h
  | some r => exact ⟨r, rfl⟩

theorem exists_run_of_isReachedBy {c : Coordinator} {p : Option Position}
    (h : c.isReachedBy p = true) : ∃ r, c.run = some r :=
  ((Option.any_eq_true _ _).1 h).imp fun _ => And.left

theorem captured_enter {st : Stage} {p : Phase} {s t : Session (Recorded σ)}
    (h : Enters env.recorded st s p t) : ∃ new, t.captured = s.captured ++ new := by
  cases h with
  | fresh version accepted positions | restored version accepted positions =>
    obtain ⟨v₁, -, rfl⟩ := recorded_version_eq_ok.1 version
    obtain ⟨v₂, -, rfl⟩ := recorded_positions_eq_ok.1 positions
    exact ⟨_, List.filterMap_append⟩
  | passed emit =>
    obtain ⟨v, -, rfl⟩ := recorded_emit_eq_ok.1 emit
    exact ⟨_, List.filterMap_append⟩
  | _ => exact ⟨[], (List.append_nil _).symm⟩

theorem captured_perform {st : Stage} {s s' : Session (Recorded σ)} {u : Unit}
    (h : st.perform env.recorded s = .ok u s') : ∃ new, s'.captured = s.captured ++ new := by
  obtain ⟨p, t, henter, hmoves⟩ := perform_enters h
  obtain ⟨new, hnew⟩ := captured_enter henter
  obtain ⟨new', hnew', -⟩ := captured_moves hmoves
  exact ⟨new ++ new', by rw [hnew', hnew, List.append_assoc]⟩

/-- What a stage that captures nothing does to the window. -/
theorem window_perform {st : Stage} {s s' : Session (Recorded σ)} {u : Unit}
    (h : st.perform env.recorded s = .ok u s') (hquiet : s'.captured = s.captured) :
    s'.coordinator.window = s.coordinator.window ∨
    s'.coordinator.window = some (.closed, {}) ∨
    ∃ rounds e, st = .place rounds e ∧ s'.coordinator = s.coordinator.moveTo e := by
  obtain ⟨p, t, henter, hmoves⟩ := perform_enters h
  obtain ⟨new', hnew', hwindow⟩ := captured_moves hmoves
  obtain ⟨new, hnew⟩ := captured_enter henter
  rw [hquiet, hnew, List.append_assoc, List.self_eq_append_right] at hnew'
  obtain ⟨rfl, rfl⟩ := List.append_eq_nil_iff.1 hnew'
  rw [List.append_nil] at hnew
  have hw := hwindow rfl
  clear hwindow hnew' hquiet
  cases henter with
  | fresh version accepted positions | restored version accepted positions =>
    obtain ⟨v₁, -, rfl⟩ := recorded_version_eq_ok.1 version
    obtain ⟨v₂, -, rfl⟩ := recorded_positions_eq_ok.1 positions
    simp [captured, journal, Answer.executed?] at hnew
  | enqueued | taken | unpaused stays | unreached stays | passed emit => exact .inl (hw rfl)
  | added run running | begun run ended =>
    obtain ⟨new, filters', h⟩ := Run.addTables_eq _ _ _ _
    refine .inl ((hw rfl).trans ?_)
    rw [h]
    simp only [Coordinator.window, Option.map_some, run]
  | stopped =>
    rcases Coordinator.window_stopTables _ _ _ with h | h
    · exact .inl ((hw rfl).trans h)
    · exact .inr (.inl ((hw rfl).trans h))
  | paused => exact .inl ((hw rfl).trans (Coordinator.window_updateRun_same fun _ => rfl))
  | pending run pending | resumed run free =>
    refine .inl ((hw rfl).trans ?_)
    simp only [Coordinator.window, Option.map_some, run]
  | noted => exact .inl ((hw rfl).trans (Coordinator.window_updateRun_same fun _ => rfl))
  | placed stays =>
    obtain ⟨-, rfl⟩ := hmoves.of_idle
    exact .inr (.inr ⟨_, _, rfl, rfl⟩)
  | closed closes =>
    obtain ⟨r, hr⟩ := exists_run_of_closes closes
    exact .inr (.inl ((hw (isReading_of_flushing _ _ _)).trans (window_of_flushing _ _ _ hr)))
  | reached reached =>
    obtain ⟨r, hr⟩ := exists_run_of_isReachedBy reached
    exact .inr (.inl ((hw (isReading_of_flushing _ _ _)).trans (window_of_flushing _ _ _ hr)))

def Phase.records : Phase → List Emission
  | .sending p t o _ rows => rows.map fun row => ⟨p, t, row.record, o⟩
  | _ => []

@[simp] theorem Phase.records_idle : Phase.idle.records = [] := rfl

/-- A move sends the first of the records that were to be sent, or none. -/
theorem sent_move {p q : Phase} {s t : Session (Recorded σ)} (h : Move env.recorded p s q t) :
    ∃ sent, t.emitted = s.emitted ++ sent ∧ p.records = sent ++ q.records := by
  cases h with
  | sent emit =>
    obtain ⟨v, -, rfl⟩ := recorded_emit_eq_ok.1 emit
    exact ⟨_, List.filterMap_append, rfl⟩
  | began reads commit positions commit' begins =>
    obtain ⟨v₁, v₂, rfl, rfl⟩ := recorded_opening commit positions commit' begins
    exact ⟨[], by simp [emitted, journal, List.filterMap_cons, Answer.sent?], rfl⟩
  | measured run tables unknown maximum | vacant run tables unknown maximum =>
    obtain ⟨v, -, rfl⟩ := recorded_maximum_eq_ok.1 maximum
    exact ⟨[], List.filterMap_append, rfl⟩
  | exhausted run tables known query | buffered run tables known found query =>
    obtain ⟨v, -, rfl⟩ := recorded_query_eq_ok.1 query
    exact ⟨[], List.filterMap_append, rfl⟩
  | kept running positions clear | reverted running positions ambiguous held =>
    obtain ⟨v, -, rfl⟩ := recorded_positions_eq_ok.1 positions
    exact ⟨[], List.filterMap_append, rfl⟩
  | allSent | declined stays | served run tables | completed ended =>
    exact ⟨[], (List.append_nil _).symm, rfl⟩

theorem sent_moves {p q : Phase} {s t : Session (Recorded σ)} (h : Moves env.recorded p s q t) :
    ∃ sent, t.emitted = s.emitted ++ sent ∧ p.records = sent ++ q.records := by
  induction h with
  | refl => exact ⟨[], (List.append_nil _).symm, rfl⟩
  | step first _ ih =>
    obtain ⟨sent, hemitted, hrecords⟩ := sent_move first
    obtain ⟨sent', hemitted', hrecords'⟩ := ih
    exact ⟨sent ++ sent', by rw [hemitted', hemitted, List.append_assoc],
      by rw [hrecords, hrecords', List.append_assoc]⟩

theorem emitted_move {p q : Phase} {s t : Session (Recorded σ)} (h : Move env.recorded p s q t) :
    t.emitted ++ q.records = s.emitted ++ p.records := by
  obtain ⟨sent, hemitted, hrecords⟩ := sent_move h
  rw [hemitted, hrecords, List.append_assoc]

theorem emitted_moves {p q : Phase} {s t : Session (Recorded σ)} (h : Moves env.recorded p s q t) :
    t.emitted ++ q.records = s.emitted ++ p.records := by
  obtain ⟨sent, hemitted, hrecords⟩ := sent_moves h
  rw [hemitted, hrecords, List.append_assoc]

theorem emitted_perform {st : Stage} {s s' : Session (Recorded σ)} {u : Unit}
    (h : st.perform env.recorded s = .ok u s') : s.emitted <+: s'.emitted := by
  obtain ⟨p, t, henter, hmoves⟩ := perform_enters h
  have hsent := emitted_moves hmoves
  rw [Phase.records_idle, List.append_nil] at hsent
  rw [hsent]
  refine List.IsPrefix.trans ?_ (List.prefix_append _ _)
  cases henter with
  | fresh version accepted positions | restored version accepted positions =>
    obtain ⟨v₁, -, rfl⟩ := recorded_version_eq_ok.1 version
    obtain ⟨v₂, -, rfl⟩ := recorded_positions_eq_ok.1 positions
    simp [emitted, journal, List.filterMap_cons, Answer.sent?]
  | passed emit =>
    obtain ⟨v, -, rfl⟩ := recorded_emit_eq_ok.1 emit
    simp [emitted, journal, Answer.sent?]
  | _ => exact List.prefix_rfl

/-- What is sent when a window closes are the rows that are held. -/
theorem records_of_flushing {c : Coordinator} {t : Table} (p : Partition) (o : Offset)
    (h : c.tableOfBuffer = some t) : (c.flushing p o).1.records =
      c.buffer.rows.map fun row => ⟨p, t, row.record, o.forSnapshot⟩ := by
  unfold Coordinator.flushing
  split
  · rename_i he
    rw [List.isEmpty_iff.1 he]
    rfl
  · simp only [h, Phase.records]

end Backfill
