import Backfill.Proofs.Progress
import Backfill.Proofs.Queue
import Backfill.Proofs.Regular

/-! Every queued table is read once, one after the other: no row is read twice, the keys ascend,
and a row that stays as it is is read before the table is finished. -/
namespace Backfill
open Procedure Session Environment
variable {σ : Type} {env : Environment σ} {contents : σ → Table → Contents}
  {admits : String → Row → Prop} {seed : List (Visit σ)}

def Session.visits (seed : List (Visit σ)) (s : Session (Recorded σ)) : List (Visit σ) :=
  Visit.ofJournal seed s.journal

/-- The tables that were read and those that are still to be read. -/
def Session.line (seed : List (Visit σ)) (s : Session (Recorded σ)) : List Table :=
  Visit.served (s.visits seed) ++ s.coordinator.queue

/-- Whether queries are answered with the first rows that they ask for. -/
def Environment.Honest (env : Environment σ) (contents : σ → Table → Contents)
    (admits : String → Row → Prop) : Prop :=
  ∀ q rows w w', env.rangeQuery q w = (.ok rows, w') → q.FirstRows admits (contents w q.table) rows

/-- How the visits of a session stand, apart from their order. -/
abbrev Session.Stands (contents : σ → Table → Contents) (admits : String → Row → Prop)
    (seed : List (Visit σ)) (x : Option (Table × Key)) (p : Phase) (s : Session (Recorded σ)) : Prop :=
  Standing contents admits x p (s.visits seed) s.coordinator

theorem ofJournal_snoc (j : List (Answer σ)) (a : Answer σ) :
    Visit.ofJournal seed (j ++ [a]) = Visit.follow (Visit.ofJournal seed j) a :=
  List.foldl_append

theorem Coordinator.chunkQuery_of_run {c : Coordinator} {r : Run} {u : Table} {ts : List Table}
    (hr : c.run = some r) (ht : r.tables = u :: ts) : r.currentTable = some u ∧
      (c.chunkQuery u).after = r.chunk.stop ∧ (c.chunkQuery u).upTo = r.chunk.maximum ∧
      (c.chunkQuery u).filter = r.filters.get? u.text := by
  simp [chunkQuery, hr, Run.currentFilter, Run.currentTable, ht]

private theorem stands_move {p q : Phase} {s t : Session (Recorded σ)}
    (honest : env.Honest contents admits) (h : Move env.recorded p s q t)
    (hregular : s.Regular (·.action ≠ .stop) p) (hs : s.Stands contents admits seed none p) :
    t.Stands contents admits seed none q := by
  cases h with
  | sent emit =>
    obtain ⟨v, -, rfl⟩ := recorded_emit_eq_ok.1 emit
    simp only [Session.Stands, Session.visits, Session.journal, ofJournal_snoc]
    exact hs.sent
  | allSent => exact hs.of_same_run rfl hregular.consistent.rows fun _ _ _ => trivial
  | declined stays => exact hs.of_same_run rfl rfl fun _ _ _ => trivial
  | @began c w w₁ w₂ w₃ w₄ low reads commit positions commit' begins =>
    obtain ⟨v₁, v₂, rfl, rfl⟩ := recorded_opening commit positions commit' begins
    simp only [Session.Stands, Session.visits, Session.journal, ofJournal_snoc]
    exact .of_plain (.of_plain (.of_plain (.of_plain (hs.began _ low) rfl) rfl) rfl) rfl
  | measured run tables unknown maximum =>
    obtain ⟨v, -, rfl⟩ := recorded_maximum_eq_ok.1 maximum
    simp only [Session.Stands, Session.visits, Session.journal, ofJournal_snoc]
    exact hs.measured _ run tables unknown (hregular.resumable _ run)
  | vacant run tables unknown maximum =>
    obtain ⟨v, -, rfl⟩ := recorded_maximum_eq_ok.1 maximum
    simp only [Session.Stands, Session.visits, Session.journal, ofJournal_snoc]
    exact hs.vacant _ run unknown
  | @exhausted c w w' r t ts run tables known query =>
    obtain ⟨v, hquery, rfl⟩ := recorded_query_eq_ok.1 query
    simp only [Session.Stands, Session.visits, Session.journal, ofJournal_snoc]
    obtain ⟨hcur, hafter, hupTo, -⟩ := Coordinator.chunkQuery_of_run run tables
    exact hs.exhausted _ rfl run known (honest _ _ _ _ hquery) (hregular.limit_pos t) hafter hupTo
      hcur hregular.consistent.rows
  | @buffered c w w' r t ts rows run tables known found query =>
    obtain ⟨v, hquery, rfl⟩ := recorded_query_eq_ok.1 query
    simp only [Session.Stands, Session.visits, Session.journal, ofJournal_snoc]
    obtain ⟨hcur, hafter, hupTo, -⟩ := Coordinator.chunkQuery_of_run run tables
    exact hs.buffered run known (honest _ _ _ _ hquery) found hafter hupTo hcur
      hregular.consistent.rows
  | @served s r run tables =>
    have hm : r.chunk.maximum = none := (hregular.resumable _ run).ended tables
    obtain ⟨hunsent, hfinished⟩ := hs.finished_of_unknown run hm
    exact .between run hm hunsent hfinished
  | kept running positions clear =>
    obtain ⟨v, -, rfl⟩ := recorded_positions_eq_ok.1 positions
    simp only [Session.Stands, Session.visits, Session.journal, ofJournal_snoc]
    exact (hs.kept _).of_plain rfl
  | reverted running positions ambiguous held =>
    obtain ⟨v, -, rfl⟩ := recorded_positions_eq_ok.1 positions
    simp only [Session.Stands, Session.visits, Session.journal, ofJournal_snoc]
    exact (hs.reverted _).of_plain rfl
  | completed ended => exact hs.completed _

/-- A move adds nothing to the line and takes nothing from it. -/
private theorem line_move {p q : Phase} {s t : Session (Recorded σ)}
    (h : Move env.recorded p s q t) (hs : s.Stands contents admits seed none p) :
    t.line seed = s.line seed := by
  have hplain {vs : List (Visit σ)} {a : Answer σ} (ha : a.isPlain = true) :
      Visit.served (Visit.follow vs a) = Visit.served vs := Visit.served_follow_of_isPlain ha
  cases h with
  | @sent p t o n row rows c w w' emit =>
    obtain ⟨v, -, rfl⟩ := recorded_emit_eq_ok.1 emit
    simp only [Session.line, Session.visits, Session.journal, ofJournal_snoc,
      Visit.served_follow_sent]
    exact congrArg _ (Coordinator.queue_of_run _ rfl fun _ => rfl)
  | allSent | declined stays | served run tables => rfl
  | @began c w w₁ w₂ w₃ w₄ low reads commit positions commit' begins =>
    obtain ⟨v₁, v₂, rfl, rfl⟩ := recorded_opening commit positions commit' begins
    simp only [Session.line, Session.visits, Session.journal, ofJournal_snoc]
    rw [hplain rfl, hplain rfl, hplain rfl, hplain rfl]
    exact congrArg _ (Coordinator.queue_of_run _ (Option.map_map ..) fun _ => rfl)
  | @measured c w w' r t ts k run tables unknown maximum =>
    obtain ⟨v, -, rfl⟩ := recorded_maximum_eq_ok.1 maximum
    simp only [Session.line, Session.visits, Session.journal, ofJournal_snoc, Visit.follow,
      Visit.served_cons]
    simp [Coordinator.queue, Coordinator.updateRun, run, Run.setMaximum]
  | @vacant c w w' r t ts run tables unknown maximum =>
    obtain ⟨v, -, rfl⟩ := recorded_maximum_eq_ok.1 maximum
    simp only [Session.line, Session.visits, Session.journal, ofJournal_snoc, Visit.follow,
      Visit.served_cons]
    simp [Coordinator.queue, Coordinator.updateRun, Coordinator.count, run, tables, Run.nextTable,
      Run.touch]
  | @exhausted c w w' r t ts run tables known query =>
    obtain ⟨v, -, rfl⟩ := recorded_query_eq_ok.1 query
    obtain ⟨u, us, hus, -, underway, -⟩ := hs.underway_of_known run known
    have htable : u.table = t := by
      have hcurrent := underway.current
      simp only [Run.currentTable, tables, List.head?_cons, Option.some.injEq] at hcurrent
      exact hcurrent.symm
    simp only [Session.line, Session.visits, Session.journal, ofJournal_snoc] at hus ⊢
    rw [hus, Visit.follow, Visit.served_cons, Visit.served_cons, underway.continues]
    simp [Coordinator.queue, Coordinator.updateRun, Coordinator.count, run, tables, Run.nextTable,
      Run.touch, Visit.note, htable]
  | @buffered c w w' r t ts rows run tables known found query =>
    obtain ⟨v, -, rfl⟩ := recorded_query_eq_ok.1 query
    obtain ⟨u, us, hus, -, underway, -⟩ := hs.underway_of_known run known
    simp only [Session.line, Session.visits, Session.journal, ofJournal_snoc] at hus ⊢
    rw [hus, Visit.follow, Visit.served_cons, Visit.served_cons, underway.continues]
    simp [Coordinator.queue_bufferRows, found]
  | @kept c w w' executed running positions clear =>
    obtain ⟨v, -, rfl⟩ := recorded_positions_eq_ok.1 positions
    simp only [Session.line, Session.visits, Session.journal, ofJournal_snoc]
    rw [hplain rfl]
    exact congrArg _ (Coordinator.queue_of_run _ rfl fun _ => rfl)
  | @reverted c w w' executed running positions ambiguous held =>
    obtain ⟨v, -, rfl⟩ := recorded_positions_eq_ok.1 positions
    simp only [Session.line, Session.visits, Session.journal, ofJournal_snoc]
    rw [hplain rfl]
    exact congrArg _ (Coordinator.queue_of_run _ (Option.map_map ..) fun _ => rfl)
  | @completed c w ended =>
    exact congrArg (Visit.served _ ++ ·) (Coordinator.queue_of_run _ rfl fun _ => rfl)

private theorem reads_snoc {j : List (Answer σ)} (a : Answer σ)
    (hj : (j.filterMap Answer.sent?).filter Emission.isRead = Visit.allReads (Visit.ofJournal seed j))
    (ha : Visit.ofJournal seed j ≠ [] ∨ a.isPlain = true ∨ a.sent? = none) :
    ((j ++ [a]).filterMap Answer.sent?).filter Emission.isRead =
      Visit.allReads (Visit.ofJournal seed (j ++ [a])) := by
  rw [ofJournal_snoc, Visit.allReads_follow ha, ← hj, List.filterMap_append, List.filter_append]
  cases hs : a.sent? <;> simp [hs]

/-- What a move sends is sent in a visit. -/
private theorem reads_move {p q : Phase} {s t : Session (Recorded σ)}
    (h : Move env.recorded p s q t) (hs : s.Stands contents admits seed none p)
    (hreads : s.emitted.filter Emission.isRead = Visit.allReads (s.visits seed)) :
    t.emitted.filter Emission.isRead = Visit.allReads (t.visits seed) := by
  cases h with
  | sent emit =>
    obtain ⟨v, -, rfl⟩ := recorded_emit_eq_ok.1 emit
    exact reads_snoc _ hreads (.inl (hs.ne_nil (List.cons_ne_nil _ _)))
  | allSent | declined stays | served run tables | completed ended => exact hreads
  | @began c w w₁ w₂ w₃ w₄ low reads commit positions commit' begins =>
    obtain ⟨v₁, v₂, rfl, rfl⟩ := recorded_opening commit positions commit' begins
    have hplain {a : Answer σ} (ha : a.isPlain = true) {j : List (Answer σ)} :
        Visit.ofJournal seed j ≠ [] ∨ a.isPlain = true ∨ a.sent? = none := .inr (.inl ha)
    have hfirst := reads_snoc .committed hreads (hplain rfl)
    have hlow := reads_snoc (.positions low) hfirst (hplain rfl)
    have hsecond := reads_snoc .committed hlow (hplain rfl)
    exact reads_snoc .began hsecond (hplain rfl)
  | measured run tables unknown maximum | vacant run tables unknown maximum =>
    obtain ⟨v, -, rfl⟩ := recorded_maximum_eq_ok.1 maximum
    exact reads_snoc _ hreads (.inr (.inr rfl))
  | exhausted run tables known query | buffered run tables known found query =>
    obtain ⟨v, -, rfl⟩ := recorded_query_eq_ok.1 query
    exact reads_snoc _ hreads (.inr (.inr rfl))
  | kept running positions clear | reverted running positions ambiguous held =>
    obtain ⟨v, -, rfl⟩ := recorded_positions_eq_ok.1 positions
    exact reads_snoc _ hreads (.inr (.inl rfl))

/-- What holds of a session in a phase. The line begins with the tables `old`. -/
structure Session.InTurn (contents : σ → Table → Contents) (admits : String → Row → Prop)
    (seed : List (Visit σ)) (old : List Table) (x : Option (Table × Key)) (p : Phase)
    (s : Session (Recorded σ)) : Prop where
  regular : s.Regular (·.action ≠ .stop) p
  stands : s.Stands contents admits seed x p
  reads : s.emitted.filter Emission.isRead = Visit.allReads (s.visits seed)
  line : old <+: s.line seed

/-- The row that the change which a stage passes on may have dropped. -/
def Stage.before : Stage → Option (Table × Key)
  | .pass _ change => some (change.table, change.key)
  | _ => none

def Stage.after : Stage → Option (Table × Key)
  | .place _ e => e.named
  | _ => none

/-- Whether a stage takes no table off the queue, and passes on no row that a snapshot read. -/
def Stage.Continues : Stage → Prop
  | .start .. | .stop _ => False
  | .enqueue cmd => cmd.action ≠ .stop
  | .pass e change => change.operation = .read → e.offset.fromSnapshot = false
  | _ => True

theorem Stage.Continues.isRead_eq_false {e : Event} {change : Change}
    (h : (Stage.pass e change).Continues) :
    Emission.isRead ⟨e.partition, change.table, change.record, e.offset⟩ = false :=
  Bool.and_eq_false_imp.2 fun hread => h (of_decide_eq_true hread)

private theorem line_of_run {c c' : Coordinator} {w : Recorded σ} (f : Run → Run)
    (hrun : c'.run = c.run.map f) (h : ∀ r, (f r).tables = r.tables) :
    Session.line seed ⟨c, w⟩ <+: Session.line seed ⟨c', w⟩ := by
  have hqueue : c'.queue = c.queue := Coordinator.queue_of_run f hrun h
  rw [Session.line, Session.line, hqueue]
  exact List.prefix_rfl

private theorem line_added {c : Coordinator} {r : Run} (w : Recorded σ) (hr : c.run = some r)
    (now : Int64) (tables : List Table) (filters : TextMap String) : Session.line seed ⟨c, w⟩ <+:
      Session.line seed ⟨{ c with run := some (r.addTables now tables filters) }, w⟩ := by
  obtain ⟨new, filters', heq⟩ := r.addTables_eq now tables filters
  have hline : Session.line seed ⟨{ c with run := some (r.addTables now tables filters) }, w⟩ =
      Session.line seed ⟨c, w⟩ ++ new := by
    simp [Session.line, Session.visits, Session.journal, Coordinator.queue, heq, hr]
  rw [hline]
  exact List.prefix_append _ _

namespace Session.InTurn
variable {old : List Table} {x : Option (Table × Key)} {p q : Phase} {s t : Session (Recorded σ)}

theorem move (honest : env.Honest contents admits) (h : Move env.recorded p s q t)
    (hs : s.InTurn contents admits seed old none p) : t.InTurn contents admits seed old none q where
  regular := hs.regular.move h
  stands := stands_move honest h hs.regular hs.stands
  reads := reads_move h hs.stands hs.reads
  line := line_move h hs.stands ▸ hs.line

theorem enter {st : Stage} (h : Enters env.recorded st s p t) (hst : st.Continues)
    (hs : s.InTurn contents admits seed old st.before .idle) :
    t.InTurn contents admits seed old none p ∨
      p = .idle ∧ t.InTurn contents admits seed old st.after .idle := by
  have hr := hs.regular.enter h (by rintro rounds r rfl; exact hst.elim)
    (by rintro cmd rfl; exact hst)
  cases h with
  | fresh version accepted positions | restored version accepted positions => exact hst.elim
  | stopped => exact hst.elim
  | enqueued | taken | unpaused stays | unreached stays =>
    exact .inl ⟨hr, hs.stands.of_same_run rfl rfl fun _ _ h => h, hs.reads, hs.line⟩
  | @added rounds tables filters c w r run running =>
    refine .inl ⟨hr, ?_, hs.reads, hs.line.trans (line_added w run _ _ _)⟩
    exact hs.stands.added run _ _ _ rfl fun _ _ => trivial
  | @begun rounds tables filters c w r run ended =>
    refine .inl ⟨hr, ?_, hs.reads, hs.line.trans (line_added w run _ _ _)⟩
    exact hs.stands.added run _ _ _ rfl fun _ _ => trivial
  | paused | noted =>
    refine .inl ⟨hr, ?_, hs.reads, ?_⟩
    · exact hs.stands.of_run _ rfl (fun _ _ => ⟨rfl, rfl⟩) (fun _ _ _ h => h) rfl
        fun _ _ _ _ h => h
    · exact hs.line.trans (line_of_run _ rfl fun _ => rfl)
  | @pending rounds c w r run pending | @resumed rounds c w r run free =>
    have hrun : some { r with paused := false } =
        c.run.map fun r => { r with paused := false } := by rw [run]; rfl
    refine .inl ⟨hr, ?_, hs.reads, ?_⟩
    · exact hs.stands.of_run _ hrun (fun _ _ => ⟨rfl, rfl⟩) (fun _ _ _ h => h) rfl
        fun _ _ _ _ _ => trivial
    · exact hs.line.trans (line_of_run _ hrun fun _ => rfl)
  | @placed rounds e c w stays =>
    refine .inr ⟨rfl, hr, hs.stands.placed e, hs.reads, ?_⟩
    exact hs.line.trans (line_of_run _ (c.moveTo_run e) fun _ => rfl)
  | @closed rounds e c w closes | @reached rounds e c w reached =>
    refine .inl ⟨hr, hs.stands.flushed hs.regular.consistent _ _ _, hs.reads, ?_⟩
    rw [Coordinator.flushing_coordinator]
    exact hs.line.trans (line_of_run _ rfl fun _ => rfl)
  | @passed e change c w w' emit =>
    obtain ⟨v, -, rfl⟩ := recorded_emit_eq_ok.1 emit
    have hread := hst.isRead_eq_false
    have hplain : (Answer.sent ⟨e.partition, change.table, change.record, e.offset⟩ :
        Answer σ).isPlain = true := by simp [Answer.isPlain, hread]
    refine .inl ⟨hr, ?_, reads_snoc _ hs.reads (.inr (.inl hplain)), ?_⟩
    · simp only [Session.Stands, Session.visits, Session.journal, ofJournal_snoc]
      exact hs.stands.passed rfl hread
    · have hline := hs.line
      simp only [Session.line, Session.visits, Session.journal, ofJournal_snoc,
        Visit.served_follow_sent] at hline ⊢
      exact hline

theorem perform {st : Stage} {s s' : Session (Recorded σ)} {u : Unit}
    (honest : env.Honest contents admits) (h : st.perform env.recorded s = .ok u s')
    (hst : st.Continues) (hs : s.InTurn contents admits seed old st.before .idle) :
    s'.InTurn contents admits seed old st.after .idle := by
  obtain ⟨p, t, henter, hmoves⟩ := perform_enters h
  rcases enter henter hst hs with ht | ⟨rfl, ht⟩
  · have hs' := hmoves.keeps (I := fun p t => t.InTurn contents admits seed old none p)
      (move honest) ht
    exact ⟨hs'.regular, hs'.stands.mono, hs'.reads, hs'.line⟩
  · obtain ⟨-, rfl⟩ := hmoves.of_idle
    exact ht

end Session.InTurn

def Request.Continues : Request → Prop
  | .start .. | .stop _ => False
  | .enqueue cmd | .apply _ cmd => cmd.action ≠ .stop
  | .process _ e => ∀ change, e.kind = .change change → change.operation = .read →
    e.offset.fromSnapshot = false
  | .add .. | .pause | .resume _ => True

private theorem Command.continues_of_mem_stages {cmd : Command} {rounds : Nat} {st : Stage}
    (h : st ∈ cmd.stages rounds) (hcmd : cmd.action ≠ .stop) :
    st.Continues ∧ st.before = none ∧ st.after = none := by
  cases hact : cmd.action with
  | stop => exact absurd hact hcmd
  | _ =>
    simp only [Command.stages, hact, List.mem_cons, List.not_mem_nil, or_false] at h
    rcases h with rfl | rfl <;> exact ⟨trivial, rfl, rfl⟩

private theorem Event.continues_of_mem_closeStages {e : Event} {rounds n : Nat} {st : Stage}
    (h : st ∈ e.closeStages rounds n) : st.Continues ∧ st.before = none ∧ st.after = none := by
  obtain rfl := Event.eq_of_mem_closeStages h
  exact ⟨trivial, rfl, rfl⟩

/-- What every stage keeps that continues. While a change is to be passed on, the row that it may have
dropped is left out of sight. -/
structure Stage.Keeps (env : Environment σ) (I : Option (Table × Key) → Session σ → Prop) : Prop where
  perform : ∀ {st : Stage} {s s' : Session σ} {u : Unit}, st.perform env s = .ok u s' →
    st.Continues → I st.before s → I st.after s'
  commands : ∀ {s : Session σ}, I none s → ∀ cmd ∈ s.coordinator.pending, cmd.action ≠ .stop
  started : ∀ {s : Session σ}, I none s → ∃ r, s.coordinator.run = some r

namespace Stage.Keeps
variable {I : Option (Table × Key) → Session σ → Prop} {s s' : Session σ}

/-- What stages keep that are about no change. -/
private theorem performAll {sts : List Stage} (hI : Stage.Keeps env I)
    (h : Stage.performAll env sts s = .ok () s')
    (hsts : ∀ st ∈ sts, st.Continues ∧ st.before = none ∧ st.after = none) (hs : I none s) :
    I none s' := by
  refine each_keeps (f := Stage.perform env) (I := I none) (fun st hst t t' ht hi => ?_) h hs
  obtain ⟨hcontinues, hbefore, hafter⟩ := hsts st hst
  rw [← hafter]
  exact hI.perform ht hcontinues (hbefore ▸ hi)

private theorem process {rounds n : Nat} {e : Event} (hI : Stage.Keeps env I)
    (h : Stage.performAll env ((Request.process rounds e).stages s.coordinator n) s = .ok () s')
    (he : (Request.process rounds e).Continues) (hs : I none s) : I none s' := by
  have hrun : s.coordinator.run.isNone = false := by
    obtain ⟨r, hr⟩ := hI.started hs
    rw [hr, Option.isNone_some]
  simp only [Request.stages, hrun, Bool.false_eq_true, if_false] at h
  obtain ⟨s₁, h₁, h⟩ := each_append_eq_ok.1 h
  obtain ⟨s₃, h, h₄⟩ := each_append_eq_ok.1 h
  obtain ⟨s₂, h₂, h₃⟩ := each_cons_eq_ok.1 h
  have hs₁ : I none s₁ := by
    refine hI.performAll h₁ (fun st hst => ?_) hs
    rcases List.mem_cons.1 hst with rfl | hst
    · exact ⟨trivial, rfl, rfl⟩
    · obtain ⟨cmd, hcmd, hst⟩ := List.mem_flatMap.1 hst
      exact Command.continues_of_mem_stages hst (hI.commands hs cmd hcmd)
  have hs₂ := hI.perform h₂ trivial hs₁
  cases hk : e.kind with
  | change change =>
    simp only [Event.closeStages, Event.passStages, hk] at h₃ h₄
    obtain rfl := each_nil_eq_ok.1 h₃
    obtain ⟨s₅, h₅, h₄⟩ := each_cons_eq_ok.1 h₄
    obtain rfl := each_nil_eq_ok.1 h₄
    refine hI.perform h₅ (he change hk) ?_
    simpa [Stage.after, Event.named, hk, Stage.before] using hs₂
  | _ =>
    simp only [Event.passStages, hk] at h₄
    obtain rfl := each_nil_eq_ok.1 h₄
    refine hI.performAll h₃ (fun st => Event.continues_of_mem_closeStages) ?_
    simpa [Stage.after, Event.named, hk] using hs₂

private theorem request {req : Request} {n : Nat} (hI : Stage.Keeps env I)
    (h : Stage.performAll env (req.stages s.coordinator n) s = .ok () s') (hreq : req.Continues)
    (hs : I none s) : I none s' := by
  cases req with
  | start rounds restored => exact hreq.elim
  | stop tables => exact hreq.elim
  | apply rounds cmd =>
    exact hI.performAll h (fun st hst => Command.continues_of_mem_stages hst hreq) hs
  | process rounds e => exact hI.process h hreq hs
  | enqueue cmd =>
    refine hI.performAll h (fun st hst => ?_) hs
    obtain rfl := List.mem_singleton.1 hst
    exact ⟨hreq, rfl, rfl⟩
  | add rounds tables filters | pause | resume rounds =>
    refine hI.performAll h (fun st hst => ?_) hs
    obtain rfl := List.mem_singleton.1 hst
    exact ⟨trivial, rfl, rfl⟩

/-- What such stages keep, requests keep that take no table off the queue. -/
theorem requests {reqs : List Request} (hI : Stage.Keeps env I)
    (h : Request.performAll env reqs s = .ok () s') (hreqs : ∀ req ∈ reqs, req.Continues)
    (hs : I none s) : I none s' :=
  each_keeps (f := Request.perform env) (I := I none)
    (fun req hreq _ _ ht hi => by
      obtain ⟨n, hn⟩ := perform_stages ht
      exact hI.request hn (hreqs req hreq) hi) h hs

end Stage.Keeps

namespace Session.InTurn
variable {old : List Table} {s s' : Session (Recorded σ)}

theorem keeps (honest : env.Honest contents admits) :
    Stage.Keeps env.recorded fun x s => s.InTurn contents admits seed old x .idle :=
  ⟨perform honest, fun hs => hs.regular.commands, fun hs => hs.stands.exists_run⟩

theorem requests {reqs : List Request} (honest : env.Honest contents admits)
    (h : Request.performAll env.recorded reqs s = .ok () s') (hreqs : ∀ req ∈ reqs, req.Continues)
    (hs : s.InTurn contents admits seed old none .idle) :
    s'.InTurn contents admits seed old none .idle :=
  (keeps honest).requests h hreqs hs

end Session.InTurn

def Run.visits (σ : Type) (r : Run) : List (Visit σ) :=
  match r.chunk.maximum, r.tables with
  | some m, t :: _ => [{ table := t, after := r.chunk.start, maximum := some m, ended := false }]
  | _, _ => []

theorem Run.allReads_visits (r : Run) : Visit.allReads (r.visits σ) = [] := by
  unfold visits
  split <;> rfl

/-- A run that is taken up again goes on with its visit. -/
private theorem stands_visits {r : Run} {c : Coordinator} (now : Int64) (h : r.Resumable)
    (hr : c.run = some (r.prepareResume now)) (hempty : c.buffer.rows = []) :
    Standing contents admits none .due (r.visits σ) c := by
  unfold Run.visits
  cases hm : r.chunk.maximum with
  | none => exact .between hr hm hempty nofun
  | some m =>
    cases ht : r.tables with
    | nil => exact absurd (hm.symm.trans (h.ended ht)) (by simp)
    | cons t ts =>
      refine .reading hr nofun ⟨rfl, congrArg List.head? ht, hm, rfl, nofun, nofun, ?_⟩ trivial
      rw [show Phase.due.unsent c = [] from hempty]
      refine ⟨.nil, nofun, nofun, fun k hk => ⟨k, hk, le_refl k⟩, ?_⟩
      rintro row hrow - ⟨b, hb, hle⟩
      exact absurd (hrow.covered.after b hb) (not_lt.2 hle)

theorem Session.InTurn.restored {settings : Settings} {commands : Option CommandQueue} {w : σ}
    {journal : List (Answer σ)} {rounds : Nat} {r : Run} {old : List Table} {p : Phase}
    {t : Session (Recorded σ)} (hsize : settings.chunkSize ≠ 0)
    (hcommands : ∀ q, commands = some q → ∀ cmd ∈ q.pending, cmd.action ≠ .stop)
    (hres : r.Resumable)
    (hstands : ∀ now (c : Coordinator), c.run = some (r.prepareResume now) → c.buffer.rows = [] →
      Standing contents admits none .due (Visit.ofJournal seed journal) c)
    (hreads : (journal.filterMap Answer.sent?).filter Emission.isRead =
      Visit.allReads (Visit.ofJournal seed journal))
    (hline : old <+: Visit.served (Visit.ofJournal seed journal) ++ r.tables)
    (h : Enters env.recorded (.start rounds (some r)) ⟨{ settings, commands }, ⟨w, journal⟩⟩ p t) :
    t.InTurn contents admits seed old none p := by
  have hregular : t.Regular (·.action ≠ .stop) p := by
    refine (Session.Regular.initial hsize hcommands).enter h ?_ nofun
    rintro rounds' r' heq
    obtain rfl := Option.some.inj (Stage.start.inj heq).2
    exact hres
  cases h with
  | restored version accepted positions =>
    obtain ⟨v₁, -, rfl⟩ := recorded_version_eq_ok.1 version
    obtain ⟨v₂, -, rfl⟩ := recorded_positions_eq_ok.1 positions
    refine ⟨hregular, ?_, reads_snoc _ hreads (.inr (.inl rfl)), ?_⟩
    · simp only [Session.Stands, Session.visits, Session.journal, ofJournal_snoc]
      exact (hstands _ _ rfl rfl).of_plain rfl
    · simp only [Session.line, Session.visits, Session.journal, ofJournal_snoc]
      rw [Visit.served_follow_of_isPlain rfl]
      exact hline

theorem Session.InTurn.started {settings : Settings} {commands : Option CommandQueue} {w : σ}
    {rounds : Nat} {restored : Option Run} {p : Phase} {t : Session (Recorded σ)}
    (hsize : settings.chunkSize ≠ 0)
    (hcommands : ∀ q, commands = some q → ∀ cmd ∈ q.pending, cmd.action ≠ .stop)
    (hres : ∀ r, restored = some r → r.Resumable)
    (h : Enters env.recorded (.start rounds restored) ⟨{ settings, commands }, ⟨w, []⟩⟩ p t) :
    t.InTurn contents admits ((restored.map (Run.visits σ)).getD []) [] none p := by
  cases restored with
  | none =>
    have hregular := (Session.Regular.initial (w := (⟨w, []⟩ : Recorded σ)) hsize hcommands).enter h
      (by rintro rounds r ⟨⟩) nofun
    cases h with
    | fresh version accepted positions =>
      obtain ⟨v₁, -, rfl⟩ := recorded_version_eq_ok.1 version
      obtain ⟨v₂, -, rfl⟩ := recorded_positions_eq_ok.1 positions
      exact ⟨hregular, .between rfl rfl rfl nofun, rfl, List.nil_prefix⟩
  | some r =>
    refine restored hsize hcommands (hres r rfl) (fun now c => stands_visits now (hres r rfl)) ?_
      List.nil_prefix h
    exact r.allReads_visits.symm

private theorem inTurn_start {settings : Settings} {commands : Option CommandQueue} {w : σ}
    {rounds : Nat} {restored : Option Run} {s : Session (Recorded σ)} {u : Unit}
    (honest : env.Honest contents admits) (hsize : settings.chunkSize ≠ 0)
    (hcommands : ∀ q, commands = some q → ∀ cmd ∈ q.pending, cmd.action ≠ .stop)
    (hres : ∀ r, restored = some r → r.Resumable)
    (h : (Stage.start rounds restored).perform env.recorded ⟨{ settings, commands }, ⟨w, []⟩⟩ =
      .ok u s) :
    s.InTurn contents admits ((restored.map (Run.visits σ)).getD []) [] none .idle := by
  obtain ⟨p, t, henter, hmoves⟩ := perform_enters h
  exact hmoves.keeps (I := fun p t => t.InTurn contents admits _ [] none p)
    (Session.InTurn.move honest) (Session.InTurn.started hsize hcommands hres henter)

/-- Each queued table is visited once, in order, and read well in its visit. -/
structure Session.ReadsOnce (contents : σ → Table → Contents) (admits : String → Row → Prop)
    (seed : List (Visit σ)) (s : Session (Recorded σ)) : Prop where
  wellRead : ∀ v ∈ s.visits seed, v.WellRead contents admits
  ended : ∀ v ∈ (s.visits seed).tail, v.ended = true
  current : ∀ v, (s.visits seed).head? = some v → v.ended = false →
    s.coordinator.currentTable = some v.table
  reads : s.emitted.filter Emission.isRead = Visit.allReads (s.visits seed)

/-- Whatever is asked of a coordinator after it was started, as long as nothing is stopped: the tables
that were queued are read once, one after the other. -/
theorem performAll_readsOnce {settings : Settings} {commands : Option CommandQueue} {w : σ}
    {rounds : Nat} {restored : Option Run} {reqs : List Request} {s' : Session (Recorded σ)}
    (honest : env.Honest contents admits) (hsize : settings.chunkSize ≠ 0)
    (hcommands : ∀ q, commands = some q → ∀ cmd ∈ q.pending, cmd.action ≠ .stop)
    (hres : ∀ r, restored = some r → r.Resumable) (hreqs : ∀ req ∈ reqs, req.Continues)
    (h : Request.performAll env.recorded (.start rounds restored :: reqs)
      ⟨{ settings, commands }, ⟨w, []⟩⟩ = .ok () s') :
    s'.ReadsOnce contents admits ((restored.map (Run.visits σ)).getD []) ∧
    ∀ before after s, reqs = before ++ after →
      Request.performAll env.recorded (.start rounds restored :: before)
        ⟨{ settings, commands }, ⟨w, []⟩⟩ = .ok () s →
      s.line ((restored.map (Run.visits σ)).getD []) <+:
        s'.line ((restored.map (Run.visits σ)).getD []) := by
  obtain ⟨s₀, hstart, hrest⟩ := each_cons_eq_ok.1 h
  have hs₀ := inTurn_start honest hsize hcommands hres hstart
  have hs' := hs₀.requests honest hrest hreqs
  refine ⟨⟨hs'.stands.wellRead, hs'.stands.ended, fun v => hs'.stands.current, hs'.reads⟩, ?_⟩
  rintro before after s rfl hbefore
  obtain ⟨t, hbegin, hbefore⟩ := each_cons_eq_ok.1 hbefore
  obtain rfl := eq_of_eq_ok hstart hbegin
  obtain ⟨t, hfirst, hafter⟩ := each_append_eq_ok.1 hrest
  obtain rfl := eq_of_eq_ok hbefore hfirst
  have hs := hs₀.requests honest hfirst fun req hreq => hreqs req (List.mem_append_left _ hreq)
  have hline : s.InTurn contents admits _ (s.line _) none .idle :=
    ⟨hs.regular, hs.stands, hs.reads, List.prefix_rfl⟩
  exact (hline.requests honest hafter fun req hreq => hreqs req (List.mem_append_right _ hreq)).line

namespace Rehearsal

def shelf (rows : Table → List Row) : Environment (List PositionSet) where
  serverVersion w := (.ok "8.0.34-log", w)
  executedPositions w := (.ok (w.headD .empty), w.tail)
  beginRead w := (.ok (), w)
  commit w := (.ok (), w)
  maximumKey t w := (.ok ((rows t).getLast?.map Row.key), w)
  rangeQuery q w := (.ok (((rows q.table).filter fun r => q.within r.key).take q.limit), w)
  emit _ w := (.ok (), w)
  isInterrupted _ := false
  now _ := 0
  freshToken _ := "shelf"

theorem shelf_honest {rows : Table → List Row}
    (h : ∀ t, (rows t).Pairwise fun a b => a.key < b.key) :
    (shelf rows).Honest (fun _ t => ChunkQuery.contentsOf (rows t)) fun _ _ => True := by
  rintro q found w w' hquery
  obtain ⟨hfound, -⟩ := Prod.mk.inj hquery
  obtain rfl := Except.ok.inj hfound
  exact ChunkQuery.firstRows_take (h q.table) fun _ _ _ => trivial

def shelves (t : Table) : List Row :=
  if t.name = "a" then [⟨⟨[.int 1]⟩, .null⟩, ⟨⟨[.int 2]⟩, .null⟩] else [⟨⟨[.int 3]⟩, .null⟩]

theorem shelves_ascending (t : Table) : (shelves t).Pairwise fun a b => a.key < b.key := by
  unfold shelves
  split
  · decide
  · decide

/-- A chunk whose high watermark spans two sources is read again, and the rows are sent once. -/
theorem shelves_readsOnce : ∃ s',
    Request.performAll (shelf shelves).recorded [.start 9 none,
      .add 9 [⟨"d", "a"⟩, ⟨"d", "b"⟩] .empty, .process 9 ⟨⟨"p"⟩, ⟨none, false⟩, .heartbeat⟩]
      ⟨{ settings := { chunkSize := 1 } }, ⟨[.empty, .empty, (upTo 5).insert ⟨"t", 1⟩], []⟩⟩ =
        .ok () s' ∧
    s'.emitted.map (fun e => e.record.key) = [⟨[.int 1]⟩, ⟨[.int 2]⟩, ⟨[.int 3]⟩] ∧
    s'.ReadsOnce (fun _ t => ChunkQuery.contentsOf (shelves t)) (fun _ _ => True) [] := by
  obtain ⟨s', h, hkeys⟩ := exists_of_endsIn
    (x := Request.performAll (shelf shelves).recorded [.start 9 none,
      .add 9 [⟨"d", "a"⟩, ⟨"d", "b"⟩] .empty, .process 9 ⟨⟨"p"⟩, ⟨none, false⟩, .heartbeat⟩])
    (s := ⟨{ settings := { chunkSize := 1 } }, ⟨[.empty, .empty, (upTo 5).insert ⟨"t", 1⟩], []⟩⟩)
    (p := fun s => s.emitted.map (fun e => e.record.key) = [⟨[.int 1]⟩, ⟨[.int 2]⟩, ⟨[.int 3]⟩])
    (by decide +kernel)
  refine ⟨s', h, by simpa using hkeys, ?_⟩
  exact (performAll_readsOnce (shelf_honest shelves_ascending) (by decide)
    (fun _ h => absurd h (by simp)) (fun _ h => absurd h (by simp)) (by simp [Request.Continues]) h).1

end Rehearsal
end Backfill
