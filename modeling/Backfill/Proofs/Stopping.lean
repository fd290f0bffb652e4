import Backfill.Proofs.Attempts
import Backfill.Proofs.Forms
import Backfill.Proofs.FreshWindow
import Backfill.Proofs.Resumption

/-! Two ways to stop all tables: to name them, or to name none. Both empty the queue and drop the
rows, but only the second one ends the window too. So they agree if no window is pending. Filters
need an invariant of their own: whatever was asked, only queued tables have one. -/
namespace Backfill
open Procedure Session
variable {σ : Type} {env : Environment σ}

namespace TextMap
variable {β : Type}

theorem get?_foldl_erase (ks : List String) (m : TextMap β) (l : String) :
    (ks.foldl erase m).get? l = if l ∈ ks then none else m.get? l := by
  induction ks generalizing m with
  | nil => simp
  | cons k ks ih =>
    rw [List.foldl_cons, ih, get?_erase]
    by_cases hk : l = k <;> simp [hk]

end TextMap

namespace Run

/-- Whether every filter is that of a queued table. -/
def FiltersQueued (r : Run) : Prop :=
  ∀ k, r.filters.get? k ≠ none → ∃ t ∈ r.tables, t.text = k

namespace FiltersQueued
variable {r : Run}

theorem fresh (token : String) (now : Int64) : (Run.fresh token now).FiltersQueued :=
  fun _ h => absurd rfl h

/-- Only the tables and the filters of a run matter. -/
theorem of_eq {r' : Run} (hr : r.FiltersQueued) (htables : r'.tables = r.tables)
    (hfilters : r'.filters = r.filters) : r'.FiltersQueued := by
  rw [FiltersQueued, htables, hfilters]
  exact hr

theorem enqueue (filters : TextMap String) (hr : r.FiltersQueued) (t : Table) :
    (r.enqueue filters t).FiltersQueued := by
  unfold Run.enqueue
  split
  · exact hr
  · intro k hk
    have hold (h : r.filters.get? k ≠ none) : ∃ u ∈ r.tables ++ [t], u.text = k :=
      (hr k h).imp fun u hu => ⟨List.mem_append_left _ hu.1, hu.2⟩
    simp only at hk
    split at hk
    · rw [TextMap.get?_insert] at hk
      split at hk
      · rename_i htext
        exact ⟨t, by simp, htext.symm⟩
      · exact hold hk
    · exact hold hk

theorem addTables (now : Int64) (tables : List Table) (filters : TextMap String)
    (hr : r.FiltersQueued) : (r.addTables now tables filters).FiltersQueued := by
  have hall : (tables.foldl (Run.enqueue filters) r).FiltersQueued :=
    List.foldlRecOn tables _ hr fun _ h t _ => h.enqueue filters t
  exact hall

theorem removeTables (now : Int64) (tables : List Table) (hr : r.FiltersQueued) :
    (r.removeTables now tables).FiltersQueued := by
  intro k hk
  have hfilters : (r.removeTables now tables).filters =
      (tables.map Table.text).foldl TextMap.erase r.filters := by
    rw [List.foldl_map]
    rfl
  rw [hfilters, TextMap.get?_foldl_erase] at hk
  split at hk
  · exact absurd rfl hk
  · rename_i hstays
    obtain ⟨t, ht, rfl⟩ := hr k hk
    refine ⟨t, List.mem_filter.2 ⟨ht, ?_⟩, rfl⟩
    simpa using fun hmem => hstays (List.mem_map_of_mem hmem)

theorem nextTable (now : Int64) (hr : r.FiltersQueued) : (r.nextTable now).FiltersQueued := by
  intro k hk
  cases ht : r.tables with
  | nil =>
    simp only [Run.nextTable, Run.touch, Run.currentTable, ht, List.head?_nil] at hk
    obtain ⟨t, hmem, -⟩ := hr k hk
    simp [ht] at hmem
  | cons t ts =>
    simp only [Run.nextTable, Run.touch, Run.currentTable, ht, List.head?_cons, TextMap.get?_erase]
      at hk
    split at hk
    · exact absurd rfl hk
    · rename_i hother
      obtain ⟨u, hu, rfl⟩ := hr k hk
      rw [ht] at hu
      refine ⟨u, ?_, rfl⟩
      simp only [Run.nextTable, Run.touch, ht, List.tail_cons]
      exact (List.mem_cons.1 hu).resolve_left fun heq => hother (heq ▸ rfl)

theorem filters_removeTables {tables : List Table} (hr : r.FiltersQueued) (now : Int64)
    (hall : ∀ t ∈ r.tables, t ∈ tables) : (r.removeTables now tables).filters = .empty := by
  have hnone (k : String) : (r.removeTables now tables).filters.get? k = none := by
    by_contra hk
    obtain ⟨t, ht, -⟩ := hr.removeTables now tables k hk
    obtain ⟨hmem, hstays⟩ := List.mem_filter.1 ht
    exact of_decide_eq_true hstays (hall t hmem)
  exact TextMap.eq_of_get? hnone

end FiltersQueued
end Run

def Coordinator.FiltersQueued (c : Coordinator) : Prop := ∀ r, c.run = some r → r.FiltersQueued

namespace Coordinator.FiltersQueued
variable {c : Coordinator}

theorem updateRun (hc : c.FiltersQueued) {f : Run → Run}
    (h : ∀ r, r.FiltersQueued → (f r).FiltersQueued := by exact fun _ h => h) :
    (c.updateRun f).FiltersQueued := by
  intro r hr
  obtain ⟨r', hr', rfl⟩ := Option.map_eq_some_iff.1 hr
  exact h r' (hc r' hr')

theorem of_run {r : Run} (hrun : c.run = some r) (h : r.FiltersQueued) : c.FiltersQueued :=
  fun _ hr => Option.some.inj (hrun.symm.trans hr) ▸ h

theorem bufferRows (hc : c.FiltersQueued) (t : Table) (rows : List Row) :
    (c.bufferRows t rows).FiltersQueued := by
  intro r hr
  simp only [Coordinator.bufferRows] at hr
  split at hr
  · obtain ⟨r', hr', rfl⟩ := Option.map_eq_some_iff.1 hr
    exact hc r' hr'
  · exact hc r hr

theorem stopTables (hc : c.FiltersQueued) (now : Int64) (tables : List Table) :
    (c.stopTables now tables).FiltersQueued := by
  rcases c.stopTables_cases now tables with ⟨heq, -⟩ | ⟨r, hr, -, ⟨-, heq⟩ | ⟨-, -, heq⟩ |
    ⟨-, -, heq⟩⟩ <;> rw [heq]
  · exact hc
  · exact of_run rfl fun _ h => absurd rfl h
  · exact of_run rfl ((hc r hr).removeTables now tables)
  · exact of_run rfl ((hc r hr).removeTables now tables)

theorem moveTo (hc : c.FiltersQueued) (e : Event) : (c.moveTo e).FiltersQueued := by
  intro r hr
  rw [moveTo_run] at hr
  obtain ⟨r', hr', rfl⟩ := Option.map_eq_some_iff.1 hr
  exact hc r' hr'

theorem flushing (hc : c.FiltersQueued) (now : Int64) (p : Partition) (o : Offset) :
    ((c.closeWindow now).flushing p o).2.FiltersQueued := by
  rw [flushing_coordinator]
  exact hc.updateRun (f := fun r => r.closeWindow now)

theorem move {p q : Phase} {s t : Session σ} (h : Move env p s q t)
    (hs : s.coordinator.FiltersQueued) : t.coordinator.FiltersQueued := by
  cases h with
  | allSent | declined stays | served run tables => exact hs
  | buffered run tables known found query => exact hs.bufferRows _ _
  | vacant run tables unknown maximum | exhausted run tables known query =>
    exact hs.updateRun fun _ hr => hr.nextTable _
  | began reads commit positions commit' begins => exact hs.updateRun.updateRun
  | reverted running positions ambiguous held => exact hs.updateRun.updateRun
  | _ => exact hs.updateRun

theorem enter {st : Stage} {p : Phase} {s t : Session σ} (h : Enters env st s p t)
    (hstart : ∀ rounds r, st = .start rounds (some r) → r.FiltersQueued)
    (hs : s.coordinator.FiltersQueued) : t.coordinator.FiltersQueued := by
  cases h with
  | fresh version accepted positions => exact of_run rfl (.fresh _ _)
  | restored version accepted positions => exact of_run rfl ((hstart _ _ rfl).of_eq rfl rfl)
  | enqueued | taken | unpaused stays | unreached stays | passed emit => exact hs
  | added run running | begun run ended => exact of_run rfl ((hs _ run).addTables _ _ _)
  | stopped => exact hs.stopTables _ _
  | paused => exact hs.updateRun
  | pending run pending | resumed run free => exact of_run rfl ((hs _ run).of_eq rfl rfl)
  | noted => exact hs.updateRun
  | placed stays => exact hs.moveTo _
  | closed closes | reached reached => exact hs.flushing _ _ _

theorem breaks {p : Phase} {s s' : Session σ} {f : Failure} (h : Breaks env p s f s')
    (hs : s.coordinator.FiltersQueued) : s'.coordinator.FiltersQueued := by
  cases h with
  | unopened reads commit opens => exact hs.updateRun
  | _ => exact hs

theorem fails {st : Stage} {s s' : Session σ} {f : Failure} (h : Fails env st s f s')
    (hstart : ∀ rounds r, st = .start rounds (some r) → r.FiltersQueued)
    (hs : s.coordinator.FiltersQueued) : s'.coordinator.FiltersQueued := by
  cases h with
  | placed closes asked | reached reached asked => exact hs.updateRun
  | broken enters breaks =>
    obtain ⟨q, u, hmoves, hbreaks⟩ := breaks
    have hentered := hs.enter enters hstart
    exact (hmoves.keeps (I := fun _ s => s.coordinator.FiltersQueued) move hentered).breaks hbreaks
  | _ => exact hs

end Coordinator.FiltersQueued

/-- The sessions that requests lead to, whether these end well or fail. The world may change of
itself, and a run may be taken up again as it was left or as its document says. -/
inductive Reached (env : Environment σ) : Session σ → Prop
  | fresh {settings commands w} : Reached env ⟨{ settings, commands }, w⟩
  | elapsed {s w} (before : Reached env s) : Reached env ⟨s.coordinator, w⟩
  | attempted {a : Attempt σ} (before : Reached env a.before) (happens : a.Happens env)
      (anew : ∀ rounds r, a.request ≠ .start rounds (some r)) : Reached env a.after
  | resumed {a : Attempt σ} {s rounds r r'} (left : Reached env s)
      (run : s.coordinator.run = some r)
      (handedOn : r' = r ∨ Run.restore r.persist = .ok r') (before : Reached env a.before)
      (happens : a.Happens env) (again : a.request = .start rounds (some r')) : Reached env a.after

namespace Reached
variable {s s' : Session σ}

theorem performAll {reqs : List Request} {u : Unit} (hs : Reached env s)
    (h : Request.performAll env reqs s = .ok u s')
    (anew : ∀ req ∈ reqs, ∀ rounds r, req ≠ .start rounds (some r)) : Reached env s' :=
  each_keeps (f := Request.perform env) (I := Reached env)
    (fun req hreq _ _ hperform hi =>
      .attempted (a := ⟨_, req, none, _⟩) hi hperform (anew req hreq))
    h hs

end Reached

theorem Coordinator.FiltersQueued.perform {st : Stage} {s s' : Session σ} {u : Unit}
    (h : st.perform env s = .ok u s')
    (hstart : ∀ rounds r, st = .start rounds (some r) → r.FiltersQueued)
    (hs : s.coordinator.FiltersQueued) : s'.coordinator.FiltersQueued := by
  obtain ⟨p, t, henter, hmoves⟩ := perform_enters h
  exact hmoves.keeps (I := fun _ s => s.coordinator.FiltersQueued) move (hs.enter henter hstart)

theorem Attempt.Happens.filtersQueued {a : Attempt σ} (h : a.Happens env)
    (hstart : ∀ rounds r, a.request = .start rounds (some r) → r.FiltersQueued)
    (hs : a.before.coordinator.FiltersQueued) : a.after.coordinator.FiltersQueued := by
  obtain ⟨n, hstages⟩ := h.stages
  have hstarts (st) (hst : st ∈ a.request.stages a.before.coordinator n) (rounds r)
      (heq : st = .start rounds (some r)) : r.FiltersQueued := by
    subst heq
    exact hstart rounds r (Request.of_start_mem_stages hst)
  have hperforms {sts : List Stage} {t : Session σ}
      (hrow : Stage.performAll env sts a.before = .ok () t)
      (hsub : ∀ st ∈ sts, st ∈ a.request.stages a.before.coordinator n) :
      t.coordinator.FiltersQueued :=
    each_keeps (f := Stage.perform env) (I := fun s => s.coordinator.FiltersQueued)
      (fun st hst _ _ hperform hi => hi.perform hperform (hstarts st (hsub st hst))) hrow hs
  rcases hstages with hall | ⟨f, before, st, rest, t, -, hsplit, hbefore, hst⟩
  · exact hperforms hall fun _ h => h
  · rw [hsplit] at hstarts hperforms
    refine (hperforms hbefore fun st' hst' => List.mem_append_left _ hst').fails hst ?_
    exact hstarts st (by simp)

theorem Reached.filtersQueued {s : Session σ} (h : Reached env s) :
    s.coordinator.FiltersQueued := by
  induction h with
  | fresh => exact fun _ hr => absurd hr (by simp)
  | elapsed before ih => exact ih
  | attempted before happens anew ih =>
    exact happens.filtersQueued (fun rounds r hreq => absurd hreq (anew rounds r)) ih
  | resumed left run handedOn before happens again ihleft ihbefore =>
    refine happens.filtersQueued (fun rounds r hreq => ?_) ihbefore
    obtain ⟨-, hr⟩ := Request.start.inj (again.symm.trans hreq)
    obtain rfl := Option.some.inj hr
    rcases handedOn with rfl | hdocument
    · exact ihleft _ run
    · obtain ⟨watermarks, rfl⟩ := Run.of_restore_persist hdocument
      exact (ihleft _ run).of_eq rfl rfl

namespace Coordinator

def emptied (c : Coordinator) (now : Int64) (mode : WindowMode) (watermarks : Watermarks) :
    Coordinator :=
  { c.dropWindow with
    run := c.run.map fun r =>
      { r with
        tables := [], filters := .empty, chunk := {}, mode, watermarks, lastActivity := now } }

variable {c : Coordinator} {r : Run}

theorem stopTables_nil (hr : c.run = some r) (hrunning : r.isRunning = true) (now : Int64) :
    c.stopTables now [] = c.emptied now .closed {} := by
  simp only [stopTables, hr, hrunning, emptied]
  rfl

/-- When every queued table is named, the window stays as it is. -/
theorem stopTables_of_named (hc : c.FiltersQueued) (hr : c.run = some r)
    (hrunning : r.isRunning = true) (now : Int64) {tables : List Table}
    (hall : ∀ t ∈ r.tables, t ∈ tables) :
    c.stopTables now tables = c.emptied now r.mode r.watermarks := by
  have hcurrent : r.isCurrentIn tables = true := by
    cases ht : r.tables with
    | nil => simp [Run.isRunning, ht] at hrunning
    | cons t ts =>
      simpa [Run.isCurrentIn, Run.currentTable, ht] using hall t (ht ▸ List.mem_cons_self)
  have hnamed : tables.isEmpty = false := by
    cases tables with
    | nil => simp [Run.isCurrentIn] at hcurrent
    | cons t ts => rfl
  have hqueue : r.tables.filter (fun t => t ∉ tables) = [] :=
    List.filter_eq_nil_iff.2 fun t ht => by simpa using hall t ht
  have hremoved : r.removeTables now tables =
      { r with tables := [], filters := .empty, chunk := {}, lastActivity := now } := by
    have hfilters := (hc r hr).filters_removeTables now hall
    simp only [Run.removeTables, Run.touch] at hfilters
    simp only [Run.removeTables, Run.touch, hqueue, hcurrent, hfilters, if_true]
  simp [stopTables, hr, hrunning, hnamed, hcurrent, hremoved, emptied]

theorem isFinished_emptied (hr : c.run = some r) (now : Int64) (mode : WindowMode)
    (watermarks : Watermarks) : (c.emptied now mode watermarks).run.any Run.isFinished = true ↔
      mode = .closed ∧ watermarks.high = none := by
  simp [emptied, hr, Run.isFinished, Run.isRunning]

end Coordinator

/-- What the two ways to stop all tables of a run lead to. -/
structure Session.StopsAll (env : Environment σ) (s : Session σ) (r : Run) (tables : List Table) :
    Prop where
  /-- If no table is named, the window ends. -/
  unnamed : Session.stop env [] s =
    .ok () ⟨s.coordinator.emptied (env.now s.world) .closed {}, s.world⟩
  /-- If the tables are named, it stays as it was. -/
  named : Session.stop env tables s =
    .ok () ⟨s.coordinator.emptied (env.now s.world) r.mode r.watermarks, s.world⟩
  /-- There is no other difference. -/
  agree : Session.stop env tables s = Session.stop env [] s ↔ r.mode = .closed ∧ r.watermarks = {}
  finished : (s.coordinator.emptied (env.now s.world) .closed {}).run.any Run.isFinished = true
  /-- Named tables leave a run that is finished only if no window was pending. -/
  finishedNamed : (s.coordinator.emptied (env.now s.world) r.mode r.watermarks).run.any
    Run.isFinished = true ↔ r.mode = .closed ∧ r.watermarks.high = none

/-- Whatever was asked before, to name all tables that are queued stops them just as to name none
does, up to the window that is pending. -/
theorem Reached.stopsAll {s : Session σ} (h : Reached env s) {r : Run}
    (hr : s.coordinator.run = some r) (hrunning : r.isRunning = true) {tables : List Table}
    (hall : ∀ t ∈ r.tables, t ∈ tables) : s.StopsAll env r tables := by
  have hnil := Coordinator.stopTables_nil hr hrunning (env.now s.world)
  have hnamed := Coordinator.stopTables_of_named h.filtersQueued hr hrunning (env.now s.world) hall
  have hstop (ts : List Table) : Session.stop env ts s =
      .ok () ⟨s.coordinator.stopTables (env.now s.world) ts, s.world⟩ := rfl
  refine
    { unnamed := by rw [hstop, hnil]
      named := by rw [hstop, hnamed]
      agree := ?_
      finished := (Coordinator.isFinished_emptied hr _ _ _).2 ⟨rfl, rfl⟩
      finishedNamed := Coordinator.isFinished_emptied hr _ _ _ }
  rw [hstop, hstop, hnil, hnamed]
  simp [Coordinator.emptied, hr]

namespace Rehearsal

def rowByRow : Session World where
  coordinator := { settings := { chunkSize := 1 } }
  world :=
    { positions := [upTo 5, upTo 5, upTo 6]
      tables := [⟨⟨"d", "a"⟩, [⟨⟨[.int 1]⟩, .null⟩, ⟨⟨[.int 2]⟩, .null⟩], none⟩] }

/-- A paused run whose window has closed is stopped in the same way by both. -/
theorem rowByRow_stopsAll : ∃ s r, Reached environment s ∧ s.coordinator.run = some r ∧
    r.isRunning = true ∧ (∀ t ∈ r.tables, t ∈ [⟨"d", "a"⟩]) ∧
    s.StopsAll environment r [⟨"d", "a"⟩] ∧
    Session.stop environment [⟨"d", "a"⟩] s = Session.stop environment [] s := by
  obtain ⟨s, h, hrun⟩ := exists_of_endsIn
    (x := Request.performAll environment
      [.start 9 none, .add 9 [⟨"d", "a"⟩] .empty, .pause, .process 9 (unit 7 .begin)])
    (s := rowByRow) (p := fun s => s.coordinator.run.any fun r =>
      r.isRunning && r.tables = [⟨"d", "a"⟩] && r.mode = .closed && r.watermarks = {})
    (by decide +kernel)
  obtain ⟨r, hr, hrunning⟩ := (Option.any_eq_true _ _).1 hrun
  simp only [Bool.and_eq_true, decide_eq_true_eq] at hrunning
  obtain ⟨⟨⟨hrunning, htables⟩, hmode⟩, hmarks⟩ := hrunning
  have hreached : Reached environment s := Reached.fresh.performAll h (by simp)
  have hall : ∀ t ∈ r.tables, t ∈ [⟨"d", "a"⟩] := fun t ht => htables ▸ ht
  have hstops := hreached.stopsAll hr hrunning hall
  exact ⟨s, r, hreached, hr, hrunning, hall, hstops, hstops.agree.2 ⟨hmode, hmarks⟩⟩

/-- While a window is pending, the run is finished only if no table is named. A window that is left
open is still open when another table is added. -/
theorem twoTables_stopped_apart :
    (Request.performAll environment.recorded
      [.start 9 none, .add 9 [⟨"d", "a"⟩] .empty, .stop [⟨"d", "a"⟩]]).endsIn
        (twoTables [upTo 5]) (fun s => s.coordinator.run.any fun r => !r.isFinished) = true ∧
    (Request.performAll environment.recorded
      [.start 9 none, .add 9 [⟨"d", "a"⟩] .empty, .stop []]).endsIn
        (twoTables [upTo 5]) (fun s => s.coordinator.run.any Run.isFinished) = true ∧
    (Request.performAll environment.recorded
      [.start 9 none, .add 9 [⟨"d", "a"⟩] .empty, .process 9 (unit 6 .begin), .stop [⟨"d", "a"⟩],
        .add 9 [⟨"d", "b"⟩] .empty, .process 9 (unit 7 .begin)]).endsIn
        (twoTables [upTo 5, upTo 5, upTo 7]) (fun s => s.emitted.length = 1) = true ∧
    (Request.performAll environment.recorded
      [.start 9 none, .add 9 [⟨"d", "a"⟩] .empty, .process 9 (unit 6 .begin), .stop [],
        .add 9 [⟨"d", "b"⟩] .empty, .process 9 (unit 7 .begin)]).endsIn
        (twoTables [upTo 5, upTo 5, upTo 7]) (fun s => s.emitted.length = 0) = true := by
  refine ⟨?_, ?_, ?_, ?_⟩ <;> decide +kernel

end Rehearsal
end Backfill
