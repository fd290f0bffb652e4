import Backfill.Proofs.Forms
import Backfill.Proofs.Progress
import Backfill.Proofs.ReadOnce
import Backfill.Proofs.Remainder
import Backfill.Proofs.Waiting

/-! Sessions that were served well so far, whatever was asked and however the world changed in
between. The rows that such a session holds are in order and not above the last key that was read,
and each table is queued once. -/
namespace Backfill
open Procedure Session
variable {σ : Type} {env : Environment σ} {taken : Run → Prop} {s s' : Session σ}

/-- Sessions that operations lead to which end well. In between the world may change. Runs that are
taken up again are among those that are `taken`. -/
inductive Served (env : Environment σ) (taken : Run → Prop) : Session σ → Prop
  | fresh (settings : Settings) (commands : Option CommandQueue) (w : σ) :
    Served env taken ⟨{ settings, commands }, w⟩
  | elapsed {c w} (w' : σ) (h : Served env taken ⟨c, w⟩) : Served env taken ⟨c, w'⟩
  | performed {s s' req u} (h : Served env taken s)
    (again : ∀ rounds r, req = .start rounds (some r) → taken r)
    (req_ok : Request.perform env req s = .ok u s') : Served env taken s'

structure Coordinator.HoldsInOrder (c : Coordinator) : Prop where
  ascending : Ascends c.buffer.rows
  reached : ∀ row ∈ c.buffer.rows, ∃ k, c.run.bind (·.chunk.stop) = some k ∧ row.key ≤ k

namespace Coordinator.HoldsInOrder
variable {c c' : Coordinator}

theorem of_rows_eq_nil (h : c.buffer.rows = []) : c.HoldsInOrder :=
  ⟨h ▸ .nil, fun _ hrow => absurd (h ▸ hrow) List.not_mem_nil⟩

theorem of_run (h : c.HoldsInOrder) (hrows : c'.buffer.rows.Sublist c.buffer.rows)
    (hrun : c'.run.bind (·.chunk.stop) = c.run.bind (·.chunk.stop)) : c'.HoldsInOrder :=
  ⟨h.ascending.sublist hrows, fun row hrow => hrun ▸ h.reached row (hrows.subset hrow)⟩

theorem updateRun (h : c.HoldsInOrder) {f : Run → Run} (hf : ∀ r, (f r).chunk.stop = r.chunk.stop) :
    (c.updateRun f).HoldsInOrder := by
  refine h.of_run (List.Sublist.refl _) ?_
  simp [Coordinator.updateRun, Option.bind_map, hf]

theorem move {p q : Phase} {contents : σ → Table → Contents} {admits : String → Row → Prop}
    (honest : env.Honest contents admits) (h : Move env p s q s')
    (hc : s.coordinator.Consistent p) (hs : s.coordinator.HoldsInOrder) :
    s'.coordinator.HoldsInOrder := by
  have hc' := hc.move h
  cases h with
  | @buffered c w w' r t ts rows run tables known found query =>
    have hfirst := honest _ _ _ _ query
    have hlast := List.getLast?_eq_some_getLast found
    generalize rows.getLast found = last at hlast
    obtain ⟨hbuffer, hrun⟩ := Standing.bufferRows_of_nodup (t := t) hc.rows hfirst.nodup hlast
    have hascends : Ascends (c.bufferRows t rows).buffer.rows := hbuffer.symm ▸ hfirst.ascending
    refine ⟨hascends, fun row hrow => ⟨last.key, by rw [hrun, run]; rfl, ?_⟩⟩
    exact hascends.le_last (hbuffer.symm ▸ hlast) hrow
  | kept running positions clear | completed ended => exact hs.updateRun fun _ => rfl
  | declined stays | served run tables => exact hs
  | _ => exact of_rows_eq_nil hc'.rows

theorem stopTables (hs : c.HoldsInOrder) (now : Int64) (tables : List Table) :
    (c.stopTables now tables).HoldsInOrder := by
  rcases c.stopTables_cases now tables with ⟨heq, -⟩ | ⟨r, hr, -, ⟨-, heq⟩ | ⟨-, -, heq⟩ |
    ⟨-, hcur, heq⟩⟩ <;> rw [heq]
  · exact hs
  · exact of_rows_eq_nil rfl
  · exact of_rows_eq_nil rfl
  · refine hs.of_run (List.Sublist.refl _) ?_
    simp [hr, (Run.removeTables_of_stays hcur now).1]

theorem enter {st : Stage} {p : Phase} (h : Enters env st s p s')
    (hc : s.coordinator.Consistent .idle) (hs : s.coordinator.HoldsInOrder) :
    s'.coordinator.HoldsInOrder := by
  have hc' := hc.enter h
  cases h with
  | fresh | restored => exact of_rows_eq_nil rfl
  | enqueued | taken | unpaused stays | unreached stays | passed emit => exact ⟨hs.ascending, hs.reached⟩
  | @added rounds tables filters c w r run running =>
    obtain ⟨new, filters', heq⟩ := r.addTables_eq (env.now w) tables filters
    exact hs.of_run (List.Sublist.refl _) (by simp [run, heq])
  | begun run ended => exact of_rows_eq_nil hc'.rows
  | stopped => exact hs.stopTables _ _
  | paused => exact hs.updateRun fun _ => rfl
  | pending run pending => exact hs.of_run (List.Sublist.refl _) (by simp [run])
  | resumed run free => exact of_rows_eq_nil hc'.rows
  | @noted cmd c w =>
    refine hs.of_run (List.Sublist.refl _) ?_
    simp [note, Coordinator.count, Coordinator.updateRun, Option.bind_map]
  | @placed rounds e c w stays =>
    obtain ⟨keep, hrows, -⟩ := c.moveTo_rows e
    refine hs.of_run (hrows ▸ List.filter_sublist) ?_
    simp [c.moveTo_run e, Option.bind_map]
  | closed closes | reached reached =>
    rw [flushing_coordinator]
    exact of_rows_eq_nil rfl

end Coordinator.HoldsInOrder

namespace Run
variable {r : Run}

theorem nodup_enqueue (filters : TextMap String) (t : Table) (h : r.tables.Nodup) :
    (r.enqueue filters t).tables.Nodup := by
  unfold enqueue
  split
  · exact h
  · rename_i hnew
    exact List.nodup_append.2 ⟨h, List.nodup_singleton t, fun u hu v hv heq =>
      hnew (List.mem_singleton.1 hv ▸ heq ▸ hu)⟩

theorem nodup_addTables (now : Int64) (tables : List Table) (filters : TextMap String)
    (h : r.tables.Nodup) : (r.addTables now tables filters).tables.Nodup := by
  suffices hall : (tables.foldl (enqueue filters) r).tables.Nodup from hall
  exact List.foldlRecOn (motive := fun r : Run => r.tables.Nodup) tables _ h fun _ hr t _ =>
    nodup_enqueue filters t hr

end Run

theorem Coordinator.nodup_stopTables {c : Coordinator} (h : c.queue.Nodup) (now : Int64)
    (tables : List Table) : (c.stopTables now tables).queue.Nodup := by
  have hremoved {r : Run} (hr : c.run = some r) : (r.removeTables now tables).tables.Nodup := by
    have hqueue : c.queue = r.tables := by rw [queue, hr]; rfl
    exact (hqueue ▸ h).filter _
  rcases c.stopTables_cases now tables with ⟨heq, -⟩ | ⟨r, hr, -, ⟨-, heq⟩ | ⟨-, -, heq⟩ |
    ⟨-, -, heq⟩⟩ <;> rw [heq]
  · exact h
  · exact List.nodup_nil
  · exact hremoved hr
  · exact hremoved hr

theorem Enters.nodup_queue {st : Stage} {p : Phase} (h : Enters env st s p s')
    (hstart : ∀ rounds r, st = .start rounds (some r) → r.tables.Nodup)
    (hs : s.coordinator.queue.Nodup) : s'.coordinator.queue.Nodup := by
  have hrun {c c' : Coordinator} (f : Run → Run) (hf : c'.run = c.run.map f)
      (htables : ∀ r, (f r).tables = r.tables) (hc : c.queue.Nodup) : c'.queue.Nodup :=
    Coordinator.queue_of_run f hf htables ▸ hc
  have hqueue {c : Coordinator} {r : Run} (hr : c.run = some r) (hc : c.queue.Nodup) :
      r.tables.Nodup := by
    rwa [Coordinator.queue, hr] at hc
  cases h with
  | fresh => exact List.nodup_nil
  | @restored rounds _ _ _ _ _ _ r => exact hstart rounds r rfl
  | enqueued | taken | unpaused stays | unreached stays | passed emit => exact hs
  | added run running | begun run ended => exact Run.nodup_addTables _ _ _ (hqueue run hs)
  | stopped => exact Coordinator.nodup_stopTables hs _ _
  | paused => exact hrun (fun r => { r with paused := true }) rfl (fun _ => rfl) hs
  | @pending _ _ _ r run | @resumed _ _ _ r run => exact hqueue (r := r) run hs
  | @noted cmd =>
    exact hrun (fun r => { r with commandOffset := some cmd.offset }) rfl (fun _ => rfl) hs
  | @placed rounds e c => exact hrun _ (c.moveTo_run e) (fun _ => rfl) hs
  | closed closes | reached reached =>
    rw [Coordinator.flushing_coordinator]
    exact hrun (fun r => r.closeWindow _) rfl (fun _ => rfl) hs

namespace Served

theorem performAll {reqs : List Request} {u : Unit} (hs : Served env taken s)
    (again : ∀ req ∈ reqs, ∀ rounds r, req = .start rounds (some r) → taken r)
    (h : Request.performAll env reqs s = .ok u s') : Served env taken s' :=
  each_keeps (f := Request.perform env) (I := Served env taken)
    (fun req hmem _ _ hreq hi => hi.performed (again req hmem) hreq) h hs

theorem keeps {I : Coordinator → Prop} (hs : Served env taken s)
    (hfresh : ∀ settings commands, I { settings, commands })
    (hstage : ∀ {st s s' u}, (∀ rounds r, st = .start rounds (some r) → taken r) →
      Stage.perform env st s = .ok u s' → I s.coordinator → I s'.coordinator) : I s.coordinator := by
  induction hs with
  | fresh settings commands => exact hfresh settings commands
  | elapsed _ _ ih => exact ih
  | performed _ again req_ok ih =>
    obtain ⟨n, hstages⟩ := perform_stages req_ok
    refine each_keeps (f := Stage.perform env) (I := fun s => I s.coordinator)
      (fun st hst _ _ hperform hi => hstage (fun rounds r hstart => ?_) hperform hi) hstages ih
    exact again rounds r (Request.of_start_mem_stages (hstart ▸ hst))

theorem consistent (hs : Served env taken s) : s.coordinator.Consistent .idle :=
  hs.keeps .initial fun _ hst hi => hi.perform hst

theorem live (hs : Served env taken s) : s.coordinator.Live :=
  hs.keeps (fun _ _ _ hr => absurd hr (by simp)) fun _ hst hi => hi.perform hst

/-- Over an honest store the rows that are held ascend up to the last key that was read. -/
theorem holdsInOrder {contents : σ → Table → Contents} {admits : String → Row → Prop}
    (hs : Served env taken s) (honest : env.Honest contents admits) :
    s.coordinator.HoldsInOrder := by
  refine (hs.keeps (I := fun c => c.Consistent .idle ∧ c.HoldsInOrder)
    (fun _ _ => ⟨.initial _ _, .of_rows_eq_nil rfl⟩) fun _ hst hi => ?_).2
  obtain ⟨p, t, henter, hmoves⟩ := perform_enters hst
  exact hmoves.keeps (I := fun p s => s.coordinator.Consistent p ∧ s.coordinator.HoldsInOrder)
    (fun hmove hi => ⟨hi.1.move hmove, hi.2.move honest hmove hi.1⟩)
    ⟨hi.1.enter henter, hi.2.enter henter hi.1⟩

/-- If the runs that are taken up again have each table queued once, so have all runs. -/
theorem nodup_queue (hs : Served env taken s) (once : ∀ r, taken r → r.tables.Nodup) :
    s.coordinator.queue.Nodup := by
  refine hs.keeps (I := fun c => c.queue.Nodup) (fun _ _ => List.nodup_nil) fun hstart hst hi => ?_
  obtain ⟨p, t, henter, hmoves⟩ := perform_enters hst
  have hsuffix : _ <:+ t.coordinator.queue :=
    hmoves.keeps (I := fun _ s' => s'.coordinator.queue <:+ t.coordinator.queue)
      (fun hmove hi => hmove.queue.trans hi) List.suffix_rfl
  refine hsuffix.sublist.nodup (henter.nodup_queue (fun rounds r heq => ?_) hi)
  exact once r (hstart rounds r heq)

end Served
end Backfill
