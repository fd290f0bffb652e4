import Backfill.Proofs.Classification
import Backfill.Proofs.Failing
import Backfill.Proofs.FlushedRows
import Backfill.Proofs.Queue

/-! Why a run may stand still: it is paused, or a window is pending that the stream can end
(`Coordinator.CanEnd`) and does end at the next unit that can (`Coordinator.CanEnd.process`). A paused
run leaves the store alone until it is resumed. -/
namespace Backfill
open Procedure Session
variable {σ α : Type} {env : Environment σ}

structure Counted (σ : Type) where
  world : σ
  calls : Nat

def counting (f : σ → Except Failure α × σ) (w : Counted σ) : Except Failure α × Counted σ :=
  ((f w.world).1, ⟨(f w.world).2, w.calls + 1⟩)

/-- An environment in which the calls of the store are counted. The sink is not part of the store. -/
def Environment.counted (env : Environment σ) : Environment (Counted σ) where
  serverVersion := counting env.serverVersion
  executedPositions := counting env.executedPositions
  beginRead := counting env.beginRead
  commit := counting env.commit
  maximumKey t := counting (env.maximumKey t)
  rangeQuery q := counting (env.rangeQuery q)
  emit e w := ((env.emit e w.world).1, ⟨(env.emit e w.world).2, w.calls⟩)
  isInterrupted w := env.isInterrupted w.world
  now w := env.now w.world
  freshToken w := env.freshToken w.world

theorem Environment.counted_emit {e : Emission} {w w' : Counted σ} {r : Except Failure Unit}
    (h : env.counted.emit e w = (r, w')) : w'.calls = w.calls := by
  obtain ⟨-, rfl⟩ := Prod.mk.inj h
  rfl

namespace Coordinator

/-- Whether a window is pending, unless no table is queued or the run is paused. -/
def Live (c : Coordinator) : Prop :=
  ∀ r, c.run = some r → r.isRunning = true → r.paused = false → r.watermarks.high.isSome

/-- Whether the stream can end the window between two watermarks: a heartbeat or a commit without a
position does, and so does every unit at a position outside both. -/
structure CanEnd (c : Coordinator) (low high : PositionSet) : Prop where
  window : ∃ mode, c.window = some (mode, ⟨some low, some high⟩)
  closes : ∀ rounds e, e.position = none → (Stage.close rounds e).Closes c e
  places : ∀ rounds e p, e.position = some p → low.contains p = false → high.contains p = false →
    (Stage.place rounds e).Closes c e

namespace Live
variable {c : Coordinator}

private theorem of_run {f : Run → Run} {c' : Coordinator} (h : c.Live) (hrun : c'.run = c.run.map f)
    (hf : ∀ r, (f r).isRunning = r.isRunning ∧ (f r).paused = r.paused ∧
      (f r).watermarks = r.watermarks) : c'.Live := by
  intro r' hr'
  rw [hrun] at hr'
  obtain ⟨r, hr, rfl⟩ := Option.map_eq_some_iff.1 hr'
  obtain ⟨hrunning, hpaused, hmarks⟩ := hf r
  rw [hrunning, hpaused, hmarks]
  exact h r hr

private theorem of_ended {r : Run} (hr : c.run = some r) (h : r.isRunning = false) : c.Live := by
  intro r' hr' hrunning
  obtain rfl := Option.some.inj (hr.symm.trans hr')
  exact absurd hrunning (by simp [h])

theorem of_move {p : Phase} {s t : Session σ} (h : Move env p s .idle t) : t.coordinator.Live := by
  cases h with
  | declined stays =>
    intro r hr hrunning hpaused
    simp [Coordinator.mayRead, hr, hrunning, hpaused] at stays
  | kept running positions clear =>
    intro r hr _ _
    obtain ⟨r', -, rfl⟩ := Option.map_eq_some_iff.1 hr
    rfl
  | completed ended =>
    intro r hr hrunning
    obtain ⟨r', hr', rfl⟩ := Option.map_eq_some_iff.1 hr
    have hended : r'.isRunning = false := by simpa [Coordinator.isRunning, hr'] using ended
    exact absurd hrunning (by simpa [Run.isRunning, Run.closeWindow, Run.touch] using hended)

private theorem stopTables (h : c.Live) (now : Int64) (tables : List Table) :
    (c.stopTables now tables).Live := by
  have hremoved (c' : Coordinator) {r : Run} (hr : c.run = some r) (hrunning : r.isRunning = true)
      (hrun : c'.run = some (r.removeTables now tables)) : c'.Live := by
    intro r' hr' _ hpaused
    obtain rfl := Option.some.inj (hrun.symm.trans hr')
    exact h r hr hrunning hpaused
  rcases c.stopTables_cases now tables with ⟨heq, -⟩ | ⟨r, hr, hrunning, ⟨-, heq⟩ | ⟨-, -, heq⟩ |
    ⟨-, -, heq⟩⟩ <;> rw [heq]
  · exact h
  · exact of_ended (r := (r.clearTables now).closeWindow now) rfl rfl
  · exact hremoved _ hr hrunning rfl
  · exact hremoved _ hr hrunning rfl

theorem enter {st : Stage} {s t : Session σ} (h : Enters env st s .idle t)
    (hs : s.coordinator.Live) : t.coordinator.Live := by
  generalize hp : Phase.idle = p at h
  cases h with
  | fresh version accepted positions => exact of_ended rfl rfl
  | restored | begun | resumed => exact absurd hp (by simp)
  | enqueued | taken | unpaused stays | unreached stays | passed emit => exact hs
  | @added rounds tables filters c w r run running =>
    intro r' hr' _ hpaused
    obtain rfl := Option.some.inj hr'
    obtain ⟨new, filters', heq⟩ := r.addTables_eq (env.now w) tables filters
    rw [heq] at hpaused ⊢
    exact hs r run running hpaused
  | stopped => exact hs.stopTables _ _
  | paused =>
    intro r' hr' _ hpaused
    obtain ⟨r, -, rfl⟩ := Option.map_eq_some_iff.1 hr'
    exact absurd hpaused (by simp)
  | @pending _ c w r run pending =>
    intro r' hr' _ _
    obtain rfl := Option.some.inj hr'
    exact pending
  | @noted cmd c w =>
    exact hs.of_run (f := fun r => { r with commandOffset := some cmd.offset }) rfl
      fun _ => ⟨rfl, rfl, rfl⟩
  | @placed rounds e c w stays =>
    exact hs.of_run (c.moveTo_run e) fun _ => ⟨rfl, rfl, rfl⟩
  | @closed rounds e c w closes =>
    have hidle := hp
    rcases (c.closeWindow (env.now w)).flushing_phase e.partition e.offset with h | ⟨t, -, h⟩ <;>
      simp [h] at hidle
  | @reached rounds e c w reached =>
    have hidle := hp
    rcases (c.closeWindow (env.now w)).flushing_phase e.partition e.offset with h | ⟨t, -, h⟩ <;>
      simp [h] at hidle

theorem perform {st : Stage} {s s' : Session σ} {u : Unit} (h : st.perform env s = .ok u s')
    (hs : s.coordinator.Live) : s'.coordinator.Live := by
  obtain ⟨p, t, henter, hmoves⟩ := perform_enters h
  refine hmoves.keeps (I := fun p t => p = .idle → t.coordinator.Live) ?_ ?_ rfl
  · rintro p s q t hmove - rfl
    exact of_move hmove
  · rintro rfl
    exact enter henter hs

theorem performAll {settings : Settings} {commands : Option CommandQueue} {w : σ}
    {reqs : List Request} {s' : Session σ}
    (h : Request.performAll env reqs ⟨{ settings, commands }, w⟩ = .ok () s') :
    s'.coordinator.Live := by
  obtain ⟨sts, hsts⟩ := performAll_unfolds h
  exact each_keeps (f := Stage.perform env) (I := fun s => s.coordinator.Live)
    (fun _ _ _ _ hst hi => perform hst hi) hsts.performs fun _ hr => absurd hr (by simp)

/-- The watermarks of a pending window let the stream end it. -/
theorem canEnd {r : Run} (h : c.Live) (hc : c.Consistent .idle) (hr : c.run = some r)
    (hrunning : r.isRunning = true) (hpaused : r.paused = false) :
    ∃ low high, c.CanEnd low high := by
  have hhigh := h r hr hrunning hpaused
  rcases hc.marks r hr with ⟨hmarks, -⟩ | ⟨low, executed, hmarks⟩
  · simp [hmarks] at hhigh
  refine ⟨low, executed.subtract low, ⟨r.mode, ?_⟩, fun rounds e he => ⟨rfl, ?_⟩,
    fun rounds e p he hlow hpast => ⟨rfl, ?_⟩⟩
  · rw [Coordinator.window, hr, Option.map_some, hmarks]
  · simp [Coordinator.isReachedBy, hr, hrunning, hmarks, he, Watermarks.isReached]
  · cases hmode : r.mode <;> simp [Coordinator.transition, hr, Run.transition, hmode, hmarks, he,
      Watermarks.transition, Watermarks.isPast, hlow, hpast, Transition.closes]

end Live
end Coordinator

/-- Whether a unit ends a window between two watermarks in either mode. -/
def Event.Ends (e : Event) (low high : PositionSet) : Prop :=
  (e.kind = .heartbeat ∨ e.kind = .commit) ∧ e.position = none ∨
    ∃ p, e.position = some p ∧ low.contains p = false ∧ high.contains p = false

/-- What is left of a window that was ended at a unit. The rows were sent, and the window is closed
unless another chunk was read. -/
structure Session.EndedAt (e : Event) (s s' : Session (Recorded σ)) : Prop where
  sent : ∀ t, s.coordinator.bufferTable = some t →
    s.emitted ++ (s.coordinator.buffer.rows.map fun row =>
      ⟨e.partition, t, row.record, e.offset.forSnapshot⟩) <+: s'.emitted
  closed : s'.captured = s.captured → s'.coordinator.window = some (.closed, {})

namespace Session.EndedAt
variable {s t s' : Session (Recorded σ)} {e : Event}

/-- The stages after the one that ends the window take nothing back. -/
theorem of_closes {st : Stage} {sts : List Stage} (h : st.perform env.recorded s = .ok () t)
    (hst : st.Closes s.coordinator e) (hrest : Stage.performAll env.recorded sts t = .ok () s') :
    s.EndedAt e s' := by
  refine ⟨fun table htable => ?_, fun hquiet => ?_⟩
  · rw [← emitted_of_closes h hst htable]
    exact emitted_each hrest
  · obtain ⟨hfirst, hlater⟩ := captured_of_quiet h hrest hquiet
    exact window_each_closed hrest (window_of_closes h hst hfirst) hlater

end Session.EndedAt

theorem Coordinator.closes_of_none {e : Event} (he : e.position = none) (c : Coordinator) :
    (c.transition e).closes = false := by
  cases hr : c.run with
  | none => simp [transition, hr, Transition.closes]
  | some r => simp [transition, hr, he, r.transition_none.2.2]

theorem Coordinator.moveTo_of_none {e : Event} (he : e.position = none)
    (hkind : ∀ change, e.kind ≠ .change change) (c : Coordinator) : c.moveTo e = c := by
  unfold moveTo
  split
  · rename_i change hk
    exact absurd hk (hkind change)
  · cases hr : c.run with
    | none => rw [updateRun_of_none hr]
    | some r => rw [updateRun_of_some hr, he, r.transition_none.1, ← hr]

namespace Coordinator.CanEnd
variable {low high : PositionSet} {s s' : Session (Recorded σ)} {rounds : Nat} {e : Event}

/-- A unit that can end the pending window ends it in its own stages. -/
theorem endedAt {n : Nat} (h : s.coordinator.CanEnd low high) (he : e.Ends low high)
    (hstages : Stage.performAll env.recorded
      (.place rounds e :: e.closeStages rounds n ++ e.passStages) s = .ok () s')
    (hunreached : e.kind = .heartbeat ∨ e.kind = .commit →
      s'.coordinator.isReachedBy e.position = false) : s.EndedAt e s' := by
  rw [List.cons_append] at hstages
  obtain ⟨t, hplace, hrest⟩ := each_cons_eq_ok.1 hstages
  rcases he with ⟨hkind, he⟩ | ⟨p, hp, hlow, hhigh⟩
  · -- Without a position the window stays as it was until the heartbeat or commit looks at it.
    have hsame : t = s := by
      have hmove := s.coordinator.moveTo_of_none he (by rcases hkind with hk | hk <;> simp [hk])
      obtain ⟨p, x, henter, hmoves⟩ := perform_enters hplace
      cases henter with
      | @placed _ _ c w stays =>
        obtain ⟨-, rfl⟩ := hmoves.of_idle
        exact congrArg (Session.mk · w) hmove
      | closed closes => exact absurd (closes.symm.trans (closes_of_none he _)) (by simp)
    have hcloses := h.closes rounds e he
    have hlook : e.closeStages rounds n = List.replicate n (.close rounds e) := by
      rcases hkind with hk | hk <;> simp only [Event.closeStages, hk]
    have hpass : e.passStages = [] := by
      rcases hkind with hk | hk <;> simp only [Event.passStages, hk]
    rw [hlook, hpass, List.append_nil, hsame] at hrest
    cases n with
    | zero =>
      obtain rfl := each_nil_eq_ok.1 hrest
      exact absurd (hcloses.2.symm.trans (hunreached hkind)) (by simp)
    | succ n =>
      obtain ⟨x, hclose, hrest⟩ := each_cons_eq_ok.1 hrest
      exact .of_closes hclose hcloses hrest
  · exact .of_closes hplace (h.places rounds e p hp hlow hhigh) hrest

/-- Whatever commands are applied first, a unit that can end the window that is pending then ends
it. -/
theorem process (hrun : s.coordinator.run.isNone = false)
    (h : Session.process env.recorded rounds e s = .ok () s') :
    ∃ t, applyPending env.recorded rounds s = .ok () t ∧
      ∀ low high, t.coordinator.CanEnd low high → e.Ends low high → t.EndedAt e s' := by
  obtain ⟨t, n, hpending, hstages⟩ := process_of_started hrun h
  exact ⟨t, hpending, fun low high hcan he =>
    hcan.endedAt he hstages fun hkind => unreached_of_process hkind h⟩

end Coordinator.CanEnd

/-- Whether a stage makes a run go on, or replaces it. -/
def Stage.Wakes : Stage → Prop
  | .start .. | .resume .. => True
  | _ => False

/-- What holds of a session with a paused run in the middle of a stage that does not wake it. -/
structure Session.Sleeps (n : Nat) (p : Phase) (s : Session (Counted σ)) : Prop where
  paused : ∀ r, s.coordinator.run = some r → r.paused = true
  calls : s.world.calls = n
  still : p.isReading = false

namespace Session.Sleeps
variable {n : Nat} {p q : Phase} {s t : Session (Counted σ)} {f : Failure}

private theorem not_mayRead (hs : s.Sleeps n p) : s.coordinator.mayRead = false := by
  cases hr : s.coordinator.run with
  | none => simp [Coordinator.mayRead, hr]
  | some r => simp [Coordinator.mayRead, hr, hs.paused r hr]

private theorem of_run (hs : s.Sleeps n p) (f : Run → Run)
    (hrun : t.coordinator.run = s.coordinator.run.map f)
    (hf : ∀ r, r.paused = true → (f r).paused = true)
    (hcalls : t.world.calls = s.world.calls) (hq : q.isReading = false) : t.Sleeps n q := by
  refine ⟨fun r' hr' => ?_, hcalls.trans hs.calls, hq⟩
  rw [hrun] at hr'
  obtain ⟨r, hr, rfl⟩ := Option.map_eq_some_iff.1 hr'
  exact hf r (hs.paused r hr)

theorem move (h : Move env.counted p s q t) (hs : s.Sleeps n p) : t.Sleeps n q := by
  have hstill := hs.still
  cases h with
  | @sent p t o size row rows c w w' emit =>
    exact hs.of_run (fun r => r.recordSent row.key) rfl (fun _ => id)
      (Environment.counted_emit emit) rfl
  | allSent | declined stays => exact ⟨hs.paused, hs.calls, rfl⟩
  | began reads commit positions commit' begins => exact absurd reads (by simp [hs.not_mayRead])
  | _ => exact absurd hstill Bool.noConfusion

theorem breaks (h : Breaks env.counted p s f t) (hs : s.Sleeps n p) : t.world.calls = n := by
  have hstill := hs.still
  cases h with
  | unsent emit => exact (Environment.counted_emit emit).trans hs.calls
  | stayed asked => exact hs.calls
  | uncommitted reads commit => exact absurd reads (by simp [hs.not_mayRead])
  | unopened reads commit opens => exact absurd reads (by simp [hs.not_mayRead])
  | _ => exact absurd hstill Bool.noConfusion

theorem breaksOff (h : BreaksOff env.counted p s f t) (hs : s.Sleeps n p) : t.world.calls = n := by
  obtain ⟨q, x, hmoves, hbreaks⟩ := h
  exact breaks hbreaks (hmoves.keeps (I := fun p s => s.Sleeps n p) move hs)

private theorem stopTables {c : Coordinator} {w : Counted σ} (hs : (⟨c, w⟩ : Session _).Sleeps n .idle)
    (now : Int64) (tables : List Table) :
    (⟨c.stopTables now tables, w⟩ : Session _).Sleeps n .idle := by
  rcases c.stopTables_cases now tables with ⟨heq, -⟩ | ⟨r, hr, -, ⟨-, heq⟩ | ⟨-, -, heq⟩ | ⟨-, -, heq⟩⟩ <;>
    rw [heq]
  · exact hs
  · exact hs.of_run (fun r => (r.clearTables now).closeWindow now) (by simp [hr]) (fun _ => id) rfl rfl
  · exact hs.of_run (fun r => r.removeTables now tables) (by simp [hr]) (fun _ => id) rfl rfl
  · exact hs.of_run (fun r => r.removeTables now tables) (by simp [hr]) (fun _ => id) rfl rfl

theorem enter {st : Stage} (h : Enters env.counted st s p t) (hst : ¬ st.Wakes)
    (hs : s.Sleeps n .idle) : t.Sleeps n p := by
  have hadded {c : Coordinator} {w : Counted σ} {r : Run} {tables : List Table}
      {filters : TextMap String} {q : Phase} (hs : (⟨c, w⟩ : Session _).Sleeps n .idle)
      (run : c.run = some r) (hq : q.isReading = false) :
      (⟨{ c with run := some (r.addTables (env.now w.world) tables filters) }, w⟩ :
        Session _).Sleeps n q := by
    refine hs.of_run (fun r => r.addTables (env.now w.world) tables filters) ?_ (fun r hr => ?_) rfl hq
    · simp [run]
    · obtain ⟨new, filters', heq⟩ := r.addTables_eq (env.now w.world) tables filters
      rw [heq]
      exact hr
  cases h with
  | fresh | restored | unpaused | pending | resumed => exact absurd trivial hst
  | enqueued | taken | unreached stays => exact ⟨hs.paused, hs.calls, rfl⟩
  | passed emit => exact ⟨hs.paused, (Environment.counted_emit emit).trans hs.calls, rfl⟩
  | added run running => exact hadded hs run rfl
  | begun run ended => exact hadded hs run rfl
  | stopped => exact hs.stopTables _ _
  | paused => exact hs.of_run (fun r => { r with paused := true }) rfl (fun _ _ => rfl) rfl rfl
  | @noted cmd c w =>
    exact hs.of_run (fun r => { r with commandOffset := some cmd.offset }) rfl (fun _ => id) rfl rfl
  | @placed rounds e c w stays => exact hs.of_run _ (c.moveTo_run e) (fun _ => id) rfl rfl
  | @closed rounds e c w ends | @reached rounds e c w ends =>
    refine hs.of_run (fun r => r.closeWindow (env.now w.world)) ?_ (fun _ => id) rfl
      (isReading_of_flushing _ _ _)
    rw [Coordinator.flushing_coordinator]
    rfl

theorem perform {st : Stage} {u : Unit} (h : st.perform env.counted s = .ok u t) (hst : ¬ st.Wakes)
    (hs : s.Sleeps n .idle) : t.Sleeps n .idle := by
  obtain ⟨p, x, henter, hmoves⟩ := perform_enters h
  exact hmoves.keeps (I := fun p s => s.Sleeps n p) move (enter henter hst hs)

theorem fails {st : Stage} (h : Fails env.counted st s f t) (hst : ¬ st.Wakes)
    (hs : s.Sleeps n .idle) : t.world.calls = n := by
  cases h with
  | unknown | unsupported | unlisted => exact absurd trivial hst
  | absent run | placed closes asked | reached reached asked => exact hs.calls
  | unpassed emit => exact (Environment.counted_emit emit).trans hs.calls
  | broken enters breaks => exact breaksOff breaks (enter enters hst hs)

theorem performAll {sts : List Stage} (h : Stage.performAll env.counted sts s = .ok () t)
    (hsts : ∀ st ∈ sts, ¬ st.Wakes) (hs : s.Sleeps n .idle) : t.Sleeps n .idle :=
  each_keeps (f := Stage.perform env.counted) (I := fun s => s.Sleeps n .idle)
    (fun st hst _ _ hperform hi => hi.perform hperform (hsts st hst)) h hs

/-- A request in which the run is not woken makes no call of the store, whether it ends well or
fails. -/
theorem request {req : Request} (hs : s.Sleeps n .idle)
    (hreq : ∀ windows, ∀ st ∈ req.stages s.coordinator windows, ¬ st.Wakes)
    (h : req.perform env.counted s = .ok () t ∨
      ∃ f, req.perform env.counted s = .error (.failed f) t) : t.world.calls = n := by
  rcases h with h | ⟨f, h⟩
  · obtain ⟨windows, hstages⟩ := perform_stages h
    exact (hs.performAll hstages (hreq windows)).calls
  · obtain ⟨windows, hstages⟩ := performAll_stages_of_failed h
    obtain ⟨before, st, after, x, heq, hbefore, hst⟩ := exists_of_each_eq_error hstages
    have hawake := hreq windows
    rw [heq] at hawake
    refine (hs.performAll hbefore fun y hy => hawake y ?_).fails (perform_fails hst) (hawake st ?_)
    · exact List.mem_append_left _ hy
    · simp

end Session.Sleeps

/-- Whatever is asked of a new coordinator, a run with queued tables that is not paused waits for
the stream to end a window, and while it is paused nothing but a start or a resumption calls the
store. -/
theorem performAll_neverStalls {settings : Settings} {commands : Option CommandQueue}
    {w : Counted σ} {reqs : List Request} {s' : Session (Counted σ)} {r : Run}
    (h : Request.performAll env.counted reqs ⟨{ settings, commands }, w⟩ = .ok () s')
    (hr : s'.coordinator.run = some r) :
    (r.isRunning = true → r.paused = false → ∃ low high, s'.coordinator.CanEnd low high) ∧
      (r.paused = true → ∀ req t,
        (∀ windows, ∀ st ∈ Request.stages s'.coordinator windows req, ¬ st.Wakes) →
        (req.perform env.counted s' = .ok () t ∨
          ∃ f, req.perform env.counted s' = .error (.failed f) t) →
        t.world.calls = s'.world.calls) := by
  obtain ⟨sts, hsts⟩ := performAll_unfolds h
  have hlive : s'.coordinator.Live := Coordinator.Live.performAll h
  have hconsistent : s'.coordinator.Consistent .idle :=
    each_keeps (f := Stage.perform env.counted) (I := fun s => s.coordinator.Consistent .idle)
      (fun _ _ => Coordinator.Consistent.perform) hsts.performs (.initial settings commands)
  refine ⟨hlive.canEnd hconsistent hr, fun hpaused req t hreq => ?_⟩
  refine Session.Sleeps.request ⟨fun r' hr' => ?_, rfl, rfl⟩ hreq
  exact Option.some.inj (hr.symm.trans hr') ▸ hpaused

namespace Rehearsal

def countedTables (positions : List PositionSet) : Session (Counted World) where
  coordinator := { settings := {} }
  world := ⟨(twoTables positions).world.world, 0⟩

/-- Nine calls are made until the first chunk is read. Then a window is pending; and once the run is
paused, the heartbeat that ends it makes no call. -/
theorem twoTables_neverStalls :
    (∃ s' r, Request.performAll environment.counted [.start 9 none, .add 9 [⟨"d", "a"⟩] .empty]
        (countedTables [upTo 5, upTo 5, upTo 6]) = .ok () s' ∧
      s'.coordinator.run = some r ∧ ∃ low high, s'.coordinator.CanEnd low high) ∧
    ∃ s' t, Request.performAll environment.counted
        [.start 9 none, .add 9 [⟨"d", "a"⟩] .empty, .pause]
        (countedTables [upTo 5, upTo 5, upTo 6]) = .ok () s' ∧
      Request.perform environment.counted (.process 9 (unit 6 .heartbeat)) s' = .ok () t ∧
      s'.world.calls = 9 ∧ t.coordinator.buffer.rows.length < s'.coordinator.buffer.rows.length ∧
      t.world.calls = s'.world.calls := by
  constructor
  · obtain ⟨s', h, hends⟩ := exists_of_endsIn
      (x := Request.performAll environment.counted [.start 9 none, .add 9 [⟨"d", "a"⟩] .empty])
      (s := countedTables [upTo 5, upTo 5, upTo 6])
      (p := fun s => s.coordinator.run.any fun r => r.isRunning && !r.paused) (by decide +kernel)
    obtain ⟨r, hr, hwaits⟩ := (Option.any_eq_true _ _).1 hends
    simp only [Bool.and_eq_true, Bool.not_eq_true'] at hwaits
    exact ⟨s', r, h, hr, (performAll_neverStalls h hr).1 hwaits.1 hwaits.2⟩
  · obtain ⟨s', h, hends⟩ := exists_of_endsIn
      (x := Request.performAll environment.counted
        [.start 9 none, .add 9 [⟨"d", "a"⟩] .empty, .pause])
      (s := countedTables [upTo 5, upTo 5, upTo 6])
      (p := fun s => s.coordinator.run.any Run.paused && s.coordinator.commands.isNone &&
        s.world.calls = 9 &&
        (Request.perform environment.counted (.process 9 (unit 6 .heartbeat))).endsIn s fun t =>
          t.coordinator.buffer.rows.length < s.coordinator.buffer.rows.length) (by decide +kernel)
    simp only [Bool.and_eq_true, decide_eq_true_eq] at hends
    obtain ⟨⟨⟨hpaused, hcommands⟩, hcalls⟩, hprocess⟩ := hends
    obtain ⟨r, hr, hpaused⟩ := (Option.any_eq_true _ _).1 hpaused
    obtain ⟨t, ht, hsent⟩ := exists_of_endsIn hprocess
    refine ⟨s', t, h, ht, hcalls, by simpa using hsent, ?_⟩
    refine (performAll_neverStalls h hr).2 hpaused _ t (fun windows st hst => ?_) (.inl ht)
    have hnone : s'.coordinator.commands = none := by simpa using hcommands
    simp only [Request.stages, hr, Option.isNone_some, Bool.false_eq_true, if_false,
      Coordinator.pending, hnone, Option.map_none, Option.getD_none, List.flatMap_nil,
      Event.closeStages, Event.passStages, unit, List.append_nil, List.cons_append, List.nil_append,
      List.mem_cons, List.mem_replicate] at hst
    rcases hst with rfl | rfl | ⟨-, rfl⟩ <;> exact id

end Rehearsal
end Backfill
