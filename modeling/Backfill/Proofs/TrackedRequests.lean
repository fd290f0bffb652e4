import Backfill.Proofs.Tracking

/-! How a row that is watched fares in the operations of a coordinator, whether they end well or fail.
A change that drops it from the buffer is passed on in its place. -/
namespace Backfill
open Procedure Session Environment
variable {σ : Type} {env : Environment σ}

namespace Session.Tracks
variable {g : Watched} {contents : Table → Contents} {admits : String → Row → Prop}
  {seed : List (Visit σ)} {lost : Prop} {p q : Phase} {c : Coordinator} {w : Recorded σ}
  {s s' : Session (Recorded σ)}

private theorem added {r : Run} {ts : List Table} {filters : TextMap String} (now : Int64)
    (h : (⟨c, w⟩ : Session _).Tracks g admits seed lost .idle) (hr : c.run = some r)
    (hregular : (⟨{ c with run := some (r.addTables now ts filters) }, w⟩ :
      Session (Recorded σ)).Regular g.LetsCommand q) (hq : q = .idle ∨ q = .due) :
    (⟨{ c with run := some (r.addTables now ts filters) }, w⟩ : Session _).Tracks g admits seed
      lost q := by
  obtain ⟨new, filters', heq⟩ := r.addTables_eq now ts filters
  have hunsent : q.unsent { c with run := some (r.addTables now ts filters) } =
      Phase.idle.unsent c := by rcases hq with rfl | rfl <;> rfl
  have hsends : q.sendsCurrent { c with run := some (r.addTables now ts filters) } := by
    rcases hq with rfl | rfl <;> trivial
  refine h.of_run (fun r => r.addTables now ts filters) hregular (by rw [hr]; rfl) hsends ?_ ?_ ?_
  · intro r' hr' ht hm
    obtain rfl : r = r' := Option.some.inj (hr.symm.trans hr')
    rw [heq] at ht hm
    refine ⟨?_, hm⟩
    cases hempty : r.tables with
    | nil =>
      have hnone := (h.regular.resumable r hr).ended hempty
      simp [hnone] at hm
    | cons u us => simpa [Run.currentTable, hempty] using ht
  · intro r' hr' _ _ v hread
    obtain rfl : r = r' := Option.some.inj (hr.symm.trans hr')
    rw [hunsent, heq]
    exact hread
  · intro _ hmem
    simp only [Coordinator.queue, hr, heq, Option.map_some, Option.getD_some] at hmem ⊢
    exact List.mem_append_left _ hmem

private theorem stopTables {now : Int64} {ts : List Table}
    (h : (⟨c, w⟩ : Session _).Tracks g admits seed lost .idle)
    (hregular : (⟨c.stopTables now ts, w⟩ : Session (Recorded σ)).Regular g.LetsCommand .idle)
    (hstays : g.wanted → ts ≠ [] ∧ g.table ∉ ts) :
    (⟨c.stopTables now ts, w⟩ : Session _).Tracks g admits seed lost .idle := by
  have hqueue {r : Run} (hr : c.run = some r) (hwanted : g.wanted) (hmem : g.table ∈ c.queue) :
      g.table ∈ (r.removeTables now ts).tables := by
    refine List.mem_filter.2 ⟨?_, by simpa using (hstays hwanted).2⟩
    simpa [Coordinator.queue, hr] using hmem
  rcases c.stopTables_cases now ts with ⟨heq, -⟩ | ⟨r, hr, -, ⟨hall, heq⟩ | ⟨-, hcur, heq⟩ |
    ⟨-, hcur, heq⟩⟩ <;> rw [heq] at hregular ⊢
  · exact h
  · exact h.of_run (fun r => (r.clearTables now).closeWindow now) hregular (by simp [hr]) trivial
      (fun r _ _ hm => absurd hm Bool.false_ne_true)
      (fun r _ _ hm => absurd hm Bool.false_ne_true) fun hwanted => absurd hall (hstays hwanted).1
  · have hnew : (r.removeTables now ts).chunk = {} := by simp [Run.removeTables, Run.touch, hcur]
    have hnone {r' : Run} (hr' : c.run = some r')
        (hm : (r'.removeTables now ts).chunk.maximum.isSome = true) : False := by
      obtain rfl : r = r' := Option.some.inj (hr.symm.trans hr')
      simp [hnew] at hm
    exact h.of_run (fun r => r.removeTables now ts) hregular (by simp [hr]) trivial
      (fun r hr _ hm => (hnone hr hm).elim) (fun r hr _ hm => (hnone hr hm).elim)
      fun hwanted hmem => by simpa [Coordinator.queue] using hqueue hr hwanted hmem
  · obtain ⟨hchunk, hcurrent⟩ := Run.removeTables_of_stays hcur now
    refine h.of_run (fun r => r.removeTables now ts) hregular (by simp [hr]) trivial
      (fun r' hr' ht hm => ?_) (fun r' hr' _ _ v hread => ?_)
      fun hwanted hmem => by simpa [Coordinator.queue] using hqueue hr hwanted hmem
    · obtain rfl : r = r' := Option.some.inj (hr.symm.trans hr')
      exact ⟨hcurrent ▸ ht, hchunk ▸ hm⟩
    · obtain rfl : r = r' := Option.some.inj (hr.symm.trans hr')
      exact hchunk ▸ hread

private theorem ended (e : Event) (now : Int64)
    (h : (⟨c, w⟩ : Session _).Tracks g admits seed lost .idle)
    (hregular : (⟨((c.closeWindow now).flushing e.partition e.offset).2, w⟩ :
      Session (Recorded σ)).Regular g.LetsCommand
        ((c.closeWindow now).flushing e.partition e.offset).1) :
    (⟨((c.closeWindow now).flushing e.partition e.offset).2, w⟩ : Session _).Tracks g admits seed lost
      ((c.closeWindow now).flushing e.partition e.offset).1 := by
  rw [Coordinator.flushing_coordinator] at hregular ⊢
  have hrun : (c.closeWindow now).dropRows.run = c.run.map fun r => r.closeWindow now := rfl
  have hsent := h.regular.consistent.flushing now e.partition e.offset
  refine h.of_kept _ hregular hrun (fun _ => rfl) (fun _ => ⟨rfl, rfl, rfl⟩) ?_ fun _ hrow => .inr ?_
  · rcases hsent with ⟨-, hp⟩ | ⟨t, ht, hp⟩ <;> rw [hp]
    · trivial
    · refine ⟨Eq.trans (Coordinator.currentTable_updateRun (c := c) ?_) ht, rfl⟩
      exact fun _ => rfl
  · refine hrow.imp_left fun hmem => ?_
    have hmem : g.row ∈ c.buffer.rows := hmem
    rcases hsent with ⟨hempty, hp⟩ | ⟨t, -, hp⟩ <;> rw [hp]
    · exact absurd (hempty ▸ hmem) List.not_mem_nil
    · exact hmem

end Session.Tracks

/-- Whether a stage goes on with a run, moves no window and passes on no change, and leaves the table
in the queue if it is to be read to its end. -/
def Watched.LetsStage (g : Watched) : Stage → Prop
  | .start .. | .place .. | .pass .. => False
  | .stop tables => g.wanted → tables ≠ [] ∧ g.table ∉ tables
  | .enqueue cmd => g.LetsCommand cmd
  | _ => True

namespace Session.Tracks
variable {g : Watched} {contents : Table → Contents} {admits : String → Row → Prop}
  {seed : List (Visit σ)} {lost : Prop} {p : Phase} {c : Coordinator} {w : Recorded σ}
  {s s' : Session (Recorded σ)} {st : Stage}

private theorem enter (h : Enters env.recorded st s p s') (hst : g.LetsStage st)
    (hs : s.Tracks g admits seed lost .idle) : s'.Tracks g admits seed lost p := by
  have hregular := hs.regular.enter h (by rintro rounds r rfl; exact hst.elim)
    (by rintro cmd rfl; exact hst)
  cases h with
  | fresh | restored | placed | closed | passed => exact hst.elim
  | enqueued | taken | unpaused stays | unreached stays =>
    exact hs.of_same_run hregular rfl trivial rfl
  | added run running => exact hs.added _ run hregular (.inl rfl)
  | begun run ended => exact hs.added _ run hregular (.inr rfl)
  | stopped => exact hs.stopTables hregular hst
  | paused =>
    exact hs.of_kept (fun r => { r with paused := true }) hregular rfl (fun _ => rfl)
      (fun _ => ⟨rfl, rfl, rfl⟩) trivial fun _ => .inr
  | @pending _ c w r run pending | @resumed _ c w r run free =>
    exact hs.of_kept (fun r => { r with paused := false }) hregular (by simp [run]) (fun _ => rfl)
      (fun _ => ⟨rfl, rfl, rfl⟩) trivial fun _ => .inr
  | @noted cmd c w =>
    exact hs.of_kept (fun r => { r with commandOffset := some cmd.offset }) hregular rfl
      (fun _ => rfl) (fun _ => ⟨rfl, rfl, rfl⟩) trivial fun _ => .inr
  | reached reached => exact hs.ended _ _ hregular

/-- The window moves to the position of a unit, whose change may drop the row. -/
private theorem enter_place {rounds : Nat} {e : Event}
    (h : Enters env.recorded (.place rounds e) s p s') (hs : s.Tracks g admits seed False .idle) :
    s'.Tracks g admits seed False p ∨
      p = .idle ∧ s'.Tracks g admits seed (s.coordinator.Drops g.table g.row e) .idle := by
  have hregular := hs.regular.enter h (by rintro _ _ ⟨⟩) (by rintro _ ⟨⟩)
  cases h with
  | @placed _ _ c w stays =>
    refine .inr ⟨rfl, hs.of_kept _ hregular (c.moveTo_run e) (fun _ => rfl)
      (fun _ => ⟨rfl, rfl, rfl⟩) trivial fun hcur hrow => ?_⟩
    by_cases hmem : g.row ∈ (c.moveTo e).buffer.rows
    · exact .inr (.inl hmem)
    · exact .inr (.inr ⟨hcur, hrow.resolve_right id, hmem⟩)
  | closed closes => exact .inl (hs.ended _ _ hregular)

theorem perform (tables : env.HasTables contents admits)
    (hstored : contents g.table g.row.key = some g.row.data)
    (h : st.perform env.recorded s = .ok () s') (hst : g.LetsStage st)
    (hs : s.Tracks g admits seed False .idle) : s'.Tracks g admits seed False .idle := by
  obtain ⟨p, t, henter, hmoves⟩ := perform_enters h
  exact moves tables hstored hmoves (enter henter hst hs)

theorem perform_place (tables : env.HasTables contents admits)
    (hstored : contents g.table g.row.key = some g.row.data) {rounds : Nat} {e : Event}
    (h : (Stage.place rounds e).perform env.recorded s = .ok () s')
    (hs : s.Tracks g admits seed False .idle) :
    s'.Tracks g admits seed (s.coordinator.Drops g.table g.row e) .idle := by
  obtain ⟨p, t, henter, hmoves⟩ := perform_enters h
  rcases enter_place henter hs with ht | ⟨rfl, ht⟩
  · exact (moves tables hstored hmoves ht).mono False.elim
  · obtain ⟨-, rfl⟩ := hmoves.of_idle
    exact ht

/-- A change is passed on. If it has dropped the row, the sink is told of it instead. -/
theorem perform_pass {e : Event} {change : Change}
    (h : (Stage.pass e change).perform env.recorded s = .ok () s')
    (hlost : lost → change.table = g.table ∧
      g.supersedes ⟨e.partition, change.table, change.record, e.offset⟩)
    (hs : s.Tracks g admits seed lost .idle) : s'.Tracks g admits seed False .idle := by
  obtain ⟨p, t, henter, hmoves⟩ := perform_enters h
  cases henter with
  | passed emit =>
    obtain ⟨-, rfl⟩ := hmoves.of_idle
    obtain ⟨v, -, rfl⟩ := recorded_emit_eq_ok.1 emit
    have hnoted := hs.note (v := v)
      (a := .sent ⟨e.partition, change.table, change.record, e.offset⟩) rfl
    refine hnoted.of_kept id hnoted.regular (congrFun Option.map_id _).symm (fun _ => rfl)
      (fun _ => ⟨rfl, rfl, rfl⟩) trivial fun _ hrow => ?_
    rcases hrow with hmem | hlost'
    · exact .inr (.inl hmem)
    · refine .inl (.inr ⟨_, ?_, (hlost hlost').1, .inr (hlost hlost').2⟩)
      simp [Session.emitted, Session.journal, Answer.sent?]

/-- What is left where a window has ended and nothing else is done. -/
private theorem leaves_closeWindow (now : Int64)
    (h : (⟨c, w⟩ : Session _).Tracks g admits seed lost p) :
    (⟨c.closeWindow now, w⟩ : Session _).Leaves g admits seed := by
  have hleaves := h.leaves
  refine ⟨hleaves.resumable.updateRun fun r _ hr => hr.of_eq rfl rfl, fun r' hr' => ?_⟩
  obtain ⟨r, hr, rfl⟩ := Option.map_eq_some_iff.1 hr'
  exact hleaves.read r hr

theorem fails {f : Failure} (tables : env.HasTables contents admits)
    (hstored : contents g.table g.row.key = some g.row.data) (h : Fails env.recorded st s f s')
    (hst : g.LetsStage st ∨ ∃ rounds e, st = .place rounds e)
    (hs : s.Tracks g admits seed False .idle) : s'.Leaves g admits seed := by
  cases h with
  | unknown | unsupported | unlisted => simp [Watched.LetsStage] at hst
  | absent run => exact hs.leaves
  | unpassed emit => simp [Watched.LetsStage] at hst
  | placed closes asked | reached reached asked => exact hs.leaves_closeWindow _
  | broken enters breaks =>
    refine breaksOff tables hstored breaks ?_
    rcases hst with hst | ⟨rounds, e, rfl⟩
    · exact enter enters hst hs
    · rcases enter_place enters hs with ht | ⟨rfl, -⟩
      · exact ht
      · obtain ⟨q, t, hmoves, hbreaks⟩ := breaks
        obtain ⟨rfl, rfl⟩ := hmoves.of_idle
        exact nomatch hbreaks

/-- Nor is more left where a change is not passed on. -/
theorem fails_pass {f : Failure} {e : Event} {change : Change}
    (h : Fails env.recorded (.pass e change) s f s') (hs : s.Tracks g admits seed lost .idle) :
    s'.Leaves g admits seed := by
  cases h with
  | unpassed emit =>
    simp only [recorded] at emit
    exact (hs.of_journal (recording_eq_error emit)).leaves
  | broken enters breaks =>
    obtain ⟨q, t, hmoves, hbreaks⟩ := breaks
    cases enters with
    | passed emit =>
      obtain ⟨rfl, rfl⟩ := hmoves.of_idle
      cases hbreaks

/-- What stages keep that move no window and pass on no change. -/
private theorem performAll {sts : List Stage} (tables : env.HasTables contents admits)
    (hstored : contents g.table g.row.key = some g.row.data)
    (h : Stage.performAll env.recorded sts s = .ok () s') (hsts : ∀ st ∈ sts, g.LetsStage st)
    (hs : s.Tracks g admits seed False .idle) : s'.Tracks g admits seed False .idle :=
  each_keeps (f := Stage.perform env.recorded) (I := fun s => s.Tracks g admits seed False .idle)
    (fun st hst _ _ hperform hi => hi.perform tables hstored hperform (hsts st hst)) h hs

private theorem performAll_fails {sts : List Stage} {f : Failure}
    (tables : env.HasTables contents admits)
    (hstored : contents g.table g.row.key = some g.row.data)
    (h : Stage.performAll env.recorded sts s = .error (.failed f) s')
    (hsts : ∀ st ∈ sts, g.LetsStage st) (hs : s.Tracks g admits seed False .idle) :
    s'.Leaves g admits seed := by
  obtain ⟨before, st, after, t, rfl, hbefore, hst⟩ := exists_of_each_eq_error h
  have ht := hs.performAll tables hstored hbefore fun st hst => hsts st (List.mem_append_left _ hst)
  exact ht.fails tables hstored (perform_fails hst) (.inl (hsts st (by simp)))

end Session.Tracks

/-- Whether a request has a change that drops a row from the buffer and is passed on as `em`. Before
the change is looked at, the commands in line are applied. -/
def Request.Supersedes (env : Environment σ) (t : Table) (row : Row) (s : Session σ) (em : Emission) :
    Request → Prop
  | .process rounds e => ∃ change u, e.kind = .change change ∧
      em = ⟨e.partition, change.table, change.record, e.offset⟩ ∧
      Stage.performAll env (.take :: s.coordinator.pending.flatMap (Command.stages rounds)) s =
        .ok () u ∧ u.coordinator.Drops t row e
  | _ => False

/-- Whether one of several requests ends well and has passed on a change as `em` that dropped a row. -/
inductive Request.Replaced (env : Environment σ) (t : Table) (row : Row) (em : Emission) :
    List Request → Session σ → Prop
  | here {req reqs s s'} (performed : Request.perform env req s = .ok () s')
      (supersedes : req.Supersedes env t row s em) : Replaced env t row em (req :: reqs) s
  | later {req reqs s s'} (performed : Request.perform env req s = .ok () s')
      (replaced : Replaced env t row em reqs s') : Replaced env t row em (req :: reqs) s

theorem Request.Replaced.append {t : Table} {row : Row} {em : Emission} {reqs : List Request}
    {s : Session σ} (h : Request.Replaced env t row em reqs s) (more : List Request) :
    Request.Replaced env t row em (reqs ++ more) s := by
  induction h with
  | here performed supersedes => exact .here performed supersedes
  | later performed _ ih => exact .later performed ih

def Request.Starts : Request → Prop
  | .start .. => True
  | _ => False

def Request.Spares (t : Table) : Request → Prop
  | .stop tables => tables ≠ [] ∧ t ∉ tables
  | .enqueue cmd | .apply _ cmd => cmd.Spares t
  | _ => True

/-- Whether a request goes on with a run, and leaves the table in the queue if it is to be read to its
end. -/
structure Watched.LetsRequest (g : Watched) (req : Request) : Prop where
  continues : ¬ req.Starts
  spares : g.wanted → req.Spares g.table

namespace Watched
variable {g : Watched} {rounds n : Nat} {st : Stage}

theorem letsStage_of_mem_stages {cmd : Command} (h : st ∈ cmd.stages rounds)
    (hcmd : g.LetsCommand cmd) : g.LetsStage st := by
  cases hact : cmd.action <;>
  · simp only [Command.stages, hact, List.mem_cons, List.not_mem_nil, or_false] at h
    rcases h with rfl | rfl
    · first | trivial | exact fun hwanted => hcmd hwanted hact
    · trivial

theorem letsStage_of_mem_closeStages {e : Event} (h : st ∈ e.closeStages rounds n) :
    g.LetsStage st :=
  Event.eq_of_mem_closeStages h ▸ trivial

theorem letsStage_of_mem_pending {c : Coordinator} (hc : ∀ cmd ∈ c.pending, g.LetsCommand cmd)
    (h : st ∈ Stage.take :: c.pending.flatMap (Command.stages rounds)) : g.LetsStage st := by
  rcases List.mem_cons.1 h with rfl | h
  · trivial
  · obtain ⟨cmd, hcmd, hst⟩ := List.mem_flatMap.1 h
    exact letsStage_of_mem_stages hst (hc cmd hcmd)

/-- A request that is no unit of the stream is done in stages that move no window. -/
theorem letsStage_of_request {req : Request} {c : Coordinator} (h : st ∈ req.stages c n)
    (hreq : g.LetsRequest req) (hprocess : ∀ rounds e, req ≠ .process rounds e) : g.LetsStage st := by
  cases req with
  | start rounds restored => exact absurd trivial hreq.continues
  | apply rounds cmd => exact letsStage_of_mem_stages h hreq.spares
  | process rounds e => exact absurd rfl (hprocess rounds e)
  | stop tables | enqueue cmd =>
    obtain rfl := List.mem_singleton.1 h
    exact hreq.spares
  | add rounds tables filters | pause | resume rounds =>
    obtain rfl := List.mem_singleton.1 h
    trivial

end Watched

namespace Session.Tracks
variable {g : Watched} {contents : Table → Contents} {admits : String → Row → Prop}
  {seed : List (Visit σ)} {rounds n : Nat} {e : Event} {s s' t : Session (Recorded σ)} {f : Failure}

private theorem not_drops {c : Coordinator} (hk : ∀ change, e.kind ≠ .change change) :
    ¬ c.Drops g.table g.row e := by
  intro hdrops
  obtain ⟨change, heq, -⟩ := hdrops.change
  exact hk change heq

private theorem process (tables : env.HasTables contents admits)
    (hstored : contents g.table g.row.key = some g.row.data)
    (h : Stage.performAll env.recorded ((Request.process rounds e).stages s.coordinator n) s =
      .ok () s')
    (hsupersedes : ∀ em, (Request.process rounds e).Supersedes env.recorded g.table g.row s em →
      g.supersedes em) (hs : s.Tracks g admits seed False .idle) :
    s'.Tracks g admits seed False .idle := by
  simp only [Request.stages] at h
  split at h
  · cases hk : e.kind with
    | change change =>
      simp only [Event.passStages, hk] at h
      obtain ⟨s₁, h₁, h⟩ := each_cons_eq_ok.1 h
      obtain rfl := each_nil_eq_ok.1 h
      exact hs.perform_pass h₁ False.elim
    | _ =>
      simp only [Event.passStages, hk] at h
      exact each_nil_eq_ok.1 h ▸ hs
  · obtain ⟨s₁, h₁, h⟩ := each_append_eq_ok.1 h
    obtain ⟨s₃, h, h₄⟩ := each_append_eq_ok.1 h
    obtain ⟨s₂, h₂, h₃⟩ := each_cons_eq_ok.1 h
    have hs₁ := hs.performAll tables hstored h₁ fun _ =>
      Watched.letsStage_of_mem_pending hs.regular.commands
    have hs₂ := hs₁.perform_place tables hstored h₂
    cases hk : e.kind with
    | change change =>
      simp only [Event.closeStages, Event.passStages, hk] at h₃ h₄
      obtain rfl := each_nil_eq_ok.1 h₃
      obtain ⟨s₅, h₅, h₄⟩ := each_cons_eq_ok.1 h₄
      obtain rfl := each_nil_eq_ok.1 h₄
      refine hs₂.perform_pass h₅ fun hdrops => ?_
      obtain ⟨change', heq, htable, -⟩ := hdrops.change
      obtain rfl := Event.Kind.change.inj (hk.symm.trans heq)
      exact ⟨htable, hsupersedes _ ⟨change, s₁, hk, rfl, h₁, hdrops⟩⟩
    | _ =>
      simp only [Event.passStages, hk] at h₄
      obtain rfl := each_nil_eq_ok.1 h₄
      refine performAll tables hstored h₃ (fun _ => Watched.letsStage_of_mem_closeStages) ?_
      exact hs₂.mono (not_drops (by simp [hk]))

private theorem process_fails (tables : env.HasTables contents admits)
    (hstored : contents g.table g.row.key = some g.row.data)
    (h : Stage.performAll env.recorded ((Request.process rounds e).stages s.coordinator n) s =
      .error (.failed f) s') (hs : s.Tracks g admits seed False .idle) :
    s'.Leaves g admits seed := by
  have hpass {lost : Prop} {t : Session (Recorded σ)} (ht : t.Tracks g admits seed lost .idle)
      (h : Stage.performAll env.recorded e.passStages t = .error (.failed f) s') :
      s'.Leaves g admits seed := by
    unfold Event.passStages at h
    split at h
    · rcases each_cons_eq_error.1 h with h | ⟨_, _, h⟩
      · exact ht.fails_pass (perform_fails h)
      · exact absurd h pure_ne_error
    · exact absurd h pure_ne_error
  simp only [Request.stages] at h
  split at h
  · exact hpass hs h
  · rcases each_append_eq_error.1 h with h | ⟨s₁, h₁, h⟩
    · exact hs.performAll_fails tables hstored h fun _ =>
        Watched.letsStage_of_mem_pending hs.regular.commands
    have hs₁ := hs.performAll tables hstored h₁ fun _ =>
      Watched.letsStage_of_mem_pending hs.regular.commands
    have hplace {s₂ : Session (Recorded σ)}
        (h₂ : (Stage.place rounds e).perform env.recorded s₁ = .ok () s₂) :=
      hs₁.perform_place tables hstored h₂
    rcases each_append_eq_error.1 h with h | ⟨s₃, h, h₄⟩
    · rcases each_cons_eq_error.1 h with h | ⟨s₂, h₂, h₃⟩
      · exact hs₁.fails tables hstored (perform_fails h) (.inr ⟨_, _, rfl⟩)
      · refine performAll_fails tables hstored h₃ (fun _ => Watched.letsStage_of_mem_closeStages) ?_
        refine (hplace h₂).mono (not_drops fun change hk => ?_)
        simp only [Event.closeStages, hk] at h₃
        exact pure_ne_error h₃
    · obtain ⟨s₂, h₂, h₃⟩ := each_cons_eq_ok.1 h
      cases hk : e.kind with
      | change change =>
        simp only [Event.closeStages, hk] at h₃
        obtain rfl := each_nil_eq_ok.1 h₃
        exact hpass (hplace h₂) h₄
      | _ =>
        simp only [Event.passStages, hk] at h₄
        exact absurd h₄ pure_ne_error

theorem request {req : Request} (tables : env.HasTables contents admits)
    (hstored : contents g.table g.row.key = some g.row.data)
    (h : req.perform env.recorded s = .ok () s') (hreq : g.LetsRequest req)
    (hsupersedes : ∀ em, req.Supersedes env.recorded g.table g.row s em → g.supersedes em)
    (hs : s.Tracks g admits seed False .idle) : s'.Tracks g admits seed False .idle := by
  obtain ⟨n, hstages⟩ := perform_stages h
  cases req with
  | process rounds e => exact hs.process tables hstored hstages hsupersedes
  | _ =>
    exact hs.performAll tables hstored hstages fun st hst =>
      Watched.letsStage_of_request hst hreq nofun

theorem request_fails {req : Request} (tables : env.HasTables contents admits)
    (hstored : contents g.table g.row.key = some g.row.data)
    (h : req.perform env.recorded s = .error (.failed f) s') (hreq : g.LetsRequest req)
    (hs : s.Tracks g admits seed False .idle) : s'.Leaves g admits seed := by
  obtain ⟨n, hstages⟩ := performAll_stages_of_failed h
  cases req with
  | process rounds e => exact hs.process_fails tables hstored hstages
  | _ =>
    exact hs.performAll_fails tables hstored hstages fun st hst =>
      Watched.letsStage_of_request hst hreq nofun

theorem requests {reqs : List Request} (tables : env.HasTables contents admits)
    (hstored : contents g.table g.row.key = some g.row.data)
    (h : Request.performAll env.recorded reqs s = .ok () s') (hreqs : ∀ req ∈ reqs, g.LetsRequest req)
    (hsupersedes : ∀ em, Request.Replaced env.recorded g.table g.row em reqs s → g.supersedes em)
    (hs : s.Tracks g admits seed False .idle) : s'.Tracks g admits seed False .idle := by
  induction reqs generalizing s with
  | nil => exact each_nil_eq_ok.1 h ▸ hs
  | cons req reqs ih =>
    obtain ⟨t, hreq, h⟩ := each_cons_eq_ok.1 h
    have ht := hs.request tables hstored hreq (hreqs req List.mem_cons_self)
      fun em hem => hsupersedes em (.here hreq hem)
    exact ih h (fun req hmem => hreqs req (List.mem_cons_of_mem _ hmem))
      (fun em hem => hsupersedes em (.later hreq hem)) ht

/-- What is left where one of several requests fails. -/
theorem requests_fail {reqs : List Request} (tables : env.HasTables contents admits)
    (hstored : contents g.table g.row.key = some g.row.data)
    (h : Request.performAll env.recorded reqs s = .error (.failed f) s')
    (hreqs : ∀ req ∈ reqs, g.LetsRequest req)
    (hsupersedes : ∀ em, Request.Replaced env.recorded g.table g.row em reqs s → g.supersedes em)
    (hs : s.Tracks g admits seed False .idle) : s'.Leaves g admits seed := by
  obtain ⟨before, req, after, t, rfl, hbefore, hreq⟩ := exists_of_each_eq_error h
  have ht := hs.requests tables hstored hbefore
    (fun req hmem => hreqs req (List.mem_append_left _ hmem))
    fun em hem => hsupersedes em (hem.append _)
  exact ht.request_fails tables hstored hreq (hreqs req (by simp))

end Session.Tracks
end Backfill
