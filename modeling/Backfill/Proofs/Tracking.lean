import Backfill.Proofs.Failing
import Backfill.Proofs.ReadOnce

/-! What becomes of one row of a table that stays as it is. The row was told of once the next chunk
begins after its key; this is what a restart relies on, and it holds as well if an operation fails. -/
namespace Backfill
open Procedure Session Environment
variable {σ : Type} {env : Environment σ}

/-- Whether a store answers from tables that stay as they are. -/
structure Environment.HasTables (env : Environment σ) (contents : Table → Contents)
    (admits : String → Row → Prop) : Prop where
  maximum : ∀ {t k w w'}, env.maximumKey t w = (.ok k, w') → (contents t).HasLargest k
  query : ∀ {q rows w w'}, env.rangeQuery q w = (.ok rows, w') →
    q.FirstRows admits (contents q.table) rows

def Visit.LetsPass (admits : String → Row → Prop) (row : Row) (v : Visit σ) : Prop :=
  ∀ w q rows, .query w q rows ∈ v.answers → ∀ f, q.filter = some f → admits f row

structure Coordinator.Drops (c : Coordinator) (t : Table) (row : Row) (e : Event) : Prop where
  current : c.currentTable = some t
  held : row ∈ c.buffer.rows
  dropped : row ∉ (c.moveTo e).buffer.rows

theorem Coordinator.Drops.change {c : Coordinator} {t : Table} {row : Row} {e : Event}
    (h : c.Drops t row e) : ∃ change, e.kind = .change change ∧ change.table = t ∧
      change.key = row.key := by
  obtain ⟨keep, hkeep, hnamed⟩ := c.moveTo_rows e
  have hrow : keep row = false := by
    by_contra hkept
    refine h.dropped (hkeep ▸ List.mem_filter.2 ⟨h.held, by simpa using hkept⟩)
  have hname := hnamed row hrow t h.current
  cases hk : e.kind with
  | change change =>
    simp only [Event.named, hk, Option.some.injEq, Prod.mk.injEq] at hname
    exact ⟨change, rfl, hname.1, hname.2⟩
  | _ => simp [Event.named, hk] at hname

def Command.Spares (t : Table) (cmd : Command) : Prop :=
  cmd.action = .stop → cmd.tables ≠ [] ∧ t ∉ cmd.tables

/-- A row of a table that is watched. -/
structure Watched where
  table : Table
  row : Row
  /-- Whether a record passes on a change that has dropped the row from the buffer. -/
  supersedes : Emission → Prop
  /-- Whether the row was told of before. -/
  before : Prop
  /-- Whether the table is to be read to its end. -/
  wanted : Prop

namespace Watched
variable (g : Watched)

/-- Whether a sink was told of the row, or of a change that superseded it. -/
def Told (es : List Emission) : Prop :=
  g.before ∨ ∃ e ∈ es, e.table = g.table ∧
    (e.isRead = true ∧ e.record = g.row.record ∨ g.supersedes e)

/-- What was read of the table in a visit. The rows `unsent` are still to be sent. If the watched row
is `lost`, it was dropped by a change that is still to be passed on. -/
structure Read (admits : String → Row → Prop) (lost : Prop) (unsent : List Row)
    (chunk : ChunkProgress) (v : Visit σ) (es : List Emission) : Prop where
  table : v.table = g.table
  within : ∀ m, chunk.maximum = some m → g.row.key ≤ m
  begun : v.LetsPass admits g.row → Reaches chunk.start g.row.key → g.Told es
  reached : v.LetsPass admits g.row → Reaches chunk.stop g.row.key →
    g.Told es ∨ g.row ∈ unsent ∨ lost

def LetsCommand (cmd : Command) : Prop := g.wanted → cmd.Spares g.table

variable {g}

theorem Told.mono {es es' : List Emission} (h : g.Told es) (hes : es ⊆ es') : g.Told es' :=
  h.imp_right fun ⟨e, he, htold⟩ => ⟨e, hes he, htold⟩

namespace Read
variable {admits : String → Row → Prop} {lost lost' : Prop} {unsent unsent' : List Row}
  {chunk chunk' : ChunkProgress} {v v' : Visit σ} {es es' : List Emission}

theorem mono (h : g.Read admits lost unsent chunk v es) (hv : v'.table = v.table)
    (ha : ∀ a ∈ v.answers, a ∈ v'.answers) (hes : es ⊆ es') :
    g.Read admits lost unsent chunk v' es' := by
  have hpass (hp : v'.LetsPass admits g.row) : v.LetsPass admits g.row :=
    fun w q rows hq => hp w q rows (ha _ hq)
  exact ⟨hv.trans h.table, h.within, fun hp hb => (h.begun (hpass hp) hb).mono hes,
    fun hp hs => (h.reached (hpass hp) hs).imp_left (·.mono hes)⟩

/-- Rows may go if the watched one is not among them, or is lost. -/
theorem of_eq (h : g.Read admits lost unsent chunk v es) (hm : chunk'.maximum = chunk.maximum)
    (hstart : chunk'.start = chunk.start) (hstop : chunk'.stop = chunk.stop)
    (hrows : g.row ∈ unsent ∨ lost → g.Told es ∨ g.row ∈ unsent' ∨ lost') :
    g.Read admits lost' unsent' chunk' v es :=
  ⟨h.table, hm ▸ h.within, hstart ▸ h.begun,
    fun hp hs => (h.reached hp (hstop ▸ hs)).elim .inl hrows⟩

theorem next (h : g.Read admits False [] chunk v es) (hm : chunk'.maximum = chunk.maximum)
    (hstart : chunk'.start = chunk.stop) (hstop : chunk'.stop = chunk.stop) :
    g.Read admits False [] chunk' v es := by
  have hreached (hp : v.LetsPass admits g.row) (hs : Reaches chunk.stop g.row.key) : g.Told es :=
    (h.reached hp hs).resolve_right (by simp)
  exact ⟨h.table, hm ▸ h.within, fun hp hb => hreached hp (hstart ▸ hb),
    fun hp hs => .inl (hreached hp (hstop ▸ hs))⟩

theorem reverted (h : g.Read admits lost unsent chunk v es) (hm : chunk'.maximum = chunk.maximum)
    (hstart : chunk'.start = chunk.start) (hstop : chunk'.stop = chunk.start) :
    g.Read admits lost' unsent' chunk' v es :=
  ⟨h.table, hm ▸ h.within, hstart ▸ h.begun, fun hp hs => .inl (h.begun hp (hstop ▸ hs))⟩

end Read
end Watched

def Answer.begins : Answer σ → Bool
  | .maximum .. => true
  | _ => false

namespace Visit
variable {vs : List (Visit σ)} {v : Visit σ} {a : Answer σ} {admits : String → Row → Prop}
  {t : Table} {row : Row}

/-- Unless another table is begun, the last visit goes on. -/
theorem exists_head_follow (h : vs.head? = some v) (ha : a.begins = false) :
    ∃ v', (follow vs a).head? = some v' ∧ v'.table = v.table ∧ v'.answers = v.answers ++ [a] := by
  obtain ⟨rest, rfl⟩ := List.head?_eq_some_iff.1 h
  cases a with
  | maximum w t k => exact Bool.noConfusion ha
  | _ => exact ⟨_, rfl, rfl, rfl⟩

theorem letsPass_of_follow (h : ∀ v ∈ follow vs a, v.table = t → v.LetsPass admits row) :
    ∀ v ∈ vs, v.table = t → v.LetsPass admits row := by
  intro v hv ht
  cases vs with
  | nil => exact absurd hv List.not_mem_nil
  | cons u us =>
    have hkept (hmem : v ∈ follow (u :: us) a) : v.LetsPass admits row := h v hmem ht
    have hnoted (ended : Bool) (hmem : { u.note a with ended } ∈ follow (u :: us) a) (hvu : v = u) :
        v.LetsPass admits row := by
      subst hvu
      exact fun w q rows hq => h _ hmem ht w q rows (List.mem_append_left _ hq)
    cases a with
    | maximum w t k => exact hkept (List.mem_cons_of_mem _ hv)
    | query w q rows =>
      rcases List.mem_cons.1 hv with hvu | hv
      · exact hnoted rows.isEmpty List.mem_cons_self hvu
      · exact hkept (List.mem_cons_of_mem _ hv)
    | _ =>
      rcases List.mem_cons.1 hv with hvu | hv
      · exact hnoted u.ended List.mem_cons_self hvu
      · exact hkept (List.mem_cons_of_mem _ hv)

end Visit

/-- Whether rows that are sent are of the current table, read for the snapshot. -/
def Phase.sendsCurrent (p : Phase) (c : Coordinator) : Prop :=
  match p with
  | .sending _ t o _ _ => c.currentTable = some t ∧ o.fromSnapshot = true
  | _ => True

theorem Session.emitted_subset {c c' : Coordinator} {w : Recorded σ} {v : σ} {new : List (Answer σ)} :
    Session.emitted ⟨c, w⟩ ⊆ Session.emitted ⟨c', ⟨v, w.journal ++ new⟩⟩ := by
  intro e he
  exact (List.filterMap_append ▸ List.mem_append_left _ he :)

/-- What holds in a phase of a session in which a row is watched. -/
structure Session.Tracks (g : Watched) (admits : String → Row → Prop) (seed : List (Visit σ))
    (lost : Prop) (p : Phase) (s : Session (Recorded σ)) : Prop where
  regular : s.Regular g.LetsCommand p
  sends : p.sendsCurrent s.coordinator
  read : ∀ r, s.coordinator.run = some r → r.currentTable = some g.table → r.chunk.maximum.isSome →
    ∃ v, (s.visits seed).head? = some v ∧
      g.Read admits lost (p.unsent s.coordinator) r.chunk v s.emitted
  wanted : g.wanted → (∀ v ∈ s.visits seed, v.table = g.table → v.LetsPass admits g.row) →
    g.table ∈ s.coordinator.queue ∨ g.Told s.emitted

/-- What a session leaves behind, so that another one can take up its run. -/
structure Session.Leaves (g : Watched) (admits : String → Row → Prop) (seed : List (Visit σ))
    (s : Session (Recorded σ)) : Prop where
  resumable : s.coordinator.Resumable
  read : ∀ r, s.coordinator.run = some r → r.currentTable = some g.table → r.chunk.maximum.isSome →
    ∃ v, (s.visits seed).head? = some v ∧ v.table = g.table ∧
      (∀ m, r.chunk.maximum = some m → g.row.key ≤ m) ∧
      (v.LetsPass admits g.row → Reaches r.chunk.start g.row.key → g.Told s.emitted)

namespace Session.Tracks
variable {g : Watched} {contents : Table → Contents} {admits : String → Row → Prop}
  {seed : List (Visit σ)} {lost lost' : Prop} {p q : Phase} {c c' : Coordinator}
  {w w' : Recorded σ} {s s' : Session (Recorded σ)}

theorem leaves (h : s.Tracks g admits seed lost p) : s.Leaves g admits seed := by
  refine ⟨h.regular.resumable, fun r hr hcur hm => ?_⟩
  obtain ⟨v, hv, hread⟩ := h.read r hr hcur hm
  exact ⟨v, hv, hread.table, hread.within, hread.begun⟩

theorem mono (h : s.Tracks g admits seed lost p) (hlost : lost → lost') :
    s.Tracks g admits seed lost' p := by
  refine ⟨h.regular, h.sends, fun r hr hcur hm => ?_, h.wanted⟩
  obtain ⟨v, hv, hread⟩ := h.read r hr hcur hm
  exact ⟨v, hv, hread.of_eq rfl rfl rfl fun hrest => .inr (hrest.imp_right hlost)⟩

theorem of_journal (h : (⟨c, w⟩ : Session _).Tracks g admits seed lost p)
    (hj : w'.journal = w.journal) : (⟨c, w'⟩ : Session _).Tracks g admits seed lost p := by
  obtain ⟨v, j⟩ := w'
  obtain rfl : j = w.journal := hj
  exact ⟨⟨h.regular.chunkSize, h.regular.commands, h.regular.consistent, h.regular.resumable⟩,
    h.sends, h.read, h.wanted⟩

theorem note {v : σ} {a : Answer σ} (h : (⟨c, w⟩ : Session _).Tracks g admits seed lost p)
    (ha : a.begins = false) :
    (⟨c, ⟨v, w.journal ++ [a]⟩⟩ : Session _).Tracks g admits seed lost p := by
  refine ⟨⟨h.regular.chunkSize, h.regular.commands, h.regular.consistent, h.regular.resumable⟩,
    h.sends, fun r hr hcur hm => ?_, fun hwanted hpass => ?_⟩
  · obtain ⟨u, hu, hread⟩ := h.read r hr hcur hm
    obtain ⟨u', hu', htable, hanswers⟩ := Visit.exists_head_follow hu ha
    refine ⟨u', ?_, hread.mono htable (fun b hb => ?_) emitted_subset⟩
    · rw [Session.visits, Session.journal, ofJournal_snoc]
      exact hu'
    · rw [hanswers]
      exact List.mem_append_left _ hb
  · rw [Session.visits, Session.journal, ofJournal_snoc] at hpass
    exact (h.wanted hwanted (Visit.letsPass_of_follow hpass)).imp_right (·.mono emitted_subset)

theorem of_run (h : (⟨c, w⟩ : Session _).Tracks g admits seed lost p) (f : Run → Run)
    (hregular : (⟨c', w⟩ : Session _).Regular g.LetsCommand q) (hrun : c'.run = c.run.map f)
    (hsends : q.sendsCurrent c')
    (hcur : ∀ r, c.run = some r → (f r).currentTable = some g.table → (f r).chunk.maximum.isSome →
      r.currentTable = some g.table ∧ r.chunk.maximum.isSome)
    (hread : ∀ r, c.run = some r → r.currentTable = some g.table → (f r).chunk.maximum.isSome →
      ∀ v : Visit σ, g.Read admits lost (p.unsent c) r.chunk v (Session.emitted ⟨c, w⟩) →
        g.Read admits lost' (q.unsent c') (f r).chunk v (Session.emitted ⟨c, w⟩))
    (hqueue : g.wanted → g.table ∈ c.queue → g.table ∈ c'.queue) :
    (⟨c', w⟩ : Session _).Tracks g admits seed lost' q := by
  refine ⟨hregular, hsends, fun r' hr' ht hm => ?_, fun hwanted hpass => ?_⟩
  · change c'.run = some r' at hr'
    rw [hrun] at hr'
    obtain ⟨r, hr, rfl⟩ := Option.map_eq_some_iff.1 hr'
    obtain ⟨ht, hknown⟩ := hcur r hr ht hm
    obtain ⟨v, hv, hrow⟩ := h.read r hr ht hknown
    exact ⟨v, hv, hread r hr ht hm v hrow⟩
  · exact (h.wanted hwanted hpass).imp_left (hqueue hwanted)

theorem of_kept (h : (⟨c, w⟩ : Session _).Tracks g admits seed lost p) (f : Run → Run)
    (hregular : (⟨c', w⟩ : Session _).Regular g.LetsCommand q) (hrun : c'.run = c.run.map f)
    (htables : ∀ r, (f r).tables = r.tables)
    (hchunk : ∀ r, (f r).chunk.maximum = r.chunk.maximum ∧ (f r).chunk.start = r.chunk.start ∧
      (f r).chunk.stop = r.chunk.stop)
    (hsends : q.sendsCurrent c')
    (hrows : c.currentTable = some g.table → g.row ∈ p.unsent c ∨ lost →
      g.Told (Session.emitted ⟨c, w⟩) ∨ g.row ∈ q.unsent c' ∨ lost') :
    (⟨c', w⟩ : Session _).Tracks g admits seed lost' q := by
  refine h.of_run f hregular hrun hsends (fun r _ ht hm => ?_) (fun r hr ht _ v hread => ?_)
    fun _ => ?_
  · exact ⟨by rwa [Run.currentTable, htables] at ht, (hchunk r).1 ▸ hm⟩
  · refine hread.of_eq (hchunk r).1 (hchunk r).2.1 (hchunk r).2.2 (hrows ?_)
    rw [Coordinator.currentTable, hr]
    exact ht
  · rw [Coordinator.queue_of_run f hrun htables]
    exact id

theorem of_same_run (h : (⟨c, w⟩ : Session _).Tracks g admits seed lost p)
    (hregular : (⟨c', w⟩ : Session _).Regular g.LetsCommand q) (hrun : c'.run = c.run)
    (hsends : q.sendsCurrent c')
    (hunsent : q.unsent c' = p.unsent c) : (⟨c', w⟩ : Session _).Tracks g admits seed lost q :=
  h.of_kept id hregular (hrun.trans (congrFun Option.map_id _).symm) (fun _ => rfl)
    (fun _ => ⟨rfl, rfl, rfl⟩) hsends fun _ hrows => .inr (hunsent ▸ hrows)

private theorem sent {pt : Partition} {t : Table} {o : Offset} {n : Nat} {row : Row}
    {rows : List Row} {v : σ}
    (h : (⟨c, w⟩ : Session _).Tracks g admits seed False (.sending pt t o n (row :: rows)))
    (hregular : (⟨c.updateRun fun r => r.recordSent row.key,
      ⟨v, w.journal ++ [.sent ⟨pt, t, row.record, o⟩]⟩⟩ : Session (Recorded σ)).Regular g.LetsCommand
        (.sending pt t o n rows)) :
    (⟨c.updateRun fun r => r.recordSent row.key,
      ⟨v, w.journal ++ [.sent ⟨pt, t, row.record, o⟩]⟩⟩ : Session (Recorded σ)).Tracks g admits seed False
        (.sending pt t o n rows) := by
  obtain ⟨hcur, hflag⟩ : c.currentTable = some t ∧ o.fromSnapshot = true := h.sends
  refine (h.note (v := v) rfl).of_kept (fun r => r.recordSent row.key) hregular rfl (fun _ => rfl)
    (fun _ => ⟨rfl, rfl, rfl⟩) ?_ fun ht hrows => ?_
  · refine ⟨Eq.trans (Coordinator.currentTable_updateRun ?_) hcur, hflag⟩
    exact fun _ => rfl
  · rcases hrows with hmem | hlost
    · rcases List.mem_cons.1 hmem with heq | hmem
      · refine .inl (.inr ⟨⟨pt, t, row.record, o⟩, ?_, Option.some.inj (hcur.symm.trans ht), ?_⟩)
        · simp [Session.emitted, Session.journal, Answer.sent?]
        · exact .inl ⟨by simp [Emission.isRead, Row.record, hflag], heq ▸ rfl⟩
      · exact .inr (.inl hmem)
    · exact hlost.elim

theorem startChunk (now : Int64) (h : (⟨c, w⟩ : Session _).Tracks g admits seed False .due) :
    (⟨c.updateRun fun r => r.startChunk now, w⟩ : Session _).Tracks g admits seed False .due := by
  have hempty : c.buffer.rows = [] := h.regular.consistent.rows
  have hregular : (⟨c.updateRun fun r => r.startChunk now, w⟩ : Session _).Regular g.LetsCommand
      .due := by
    refine ⟨h.regular.chunkSize, h.regular.commands, ⟨fun r hr => ?_, hempty⟩, ?_⟩
    · obtain ⟨r', hr', rfl⟩ := Option.map_eq_some_iff.1 hr
      exact h.regular.consistent.marks r' hr'
    · exact Coordinator.Resumable.updateRun (c := c) h.regular.resumable
        fun r _ hr => hr.startChunk now
  refine h.of_run (fun r => r.startChunk now) hregular rfl trivial (fun r _ ht hm => ⟨ht, hm⟩)
    (fun r _ _ _ v hread => ?_) fun _ => ?_
  · rw [show Phase.due.unsent c = [] from hempty] at hread
    rw [show Phase.due.unsent (c.updateRun fun r => r.startChunk now) = [] from hempty]
    exact hread.next rfl rfl rfl
  · have hqueue : (c.updateRun fun r => r.startChunk now).queue = c.queue :=
      Coordinator.queue_of_run _ rfl fun _ => rfl
    exact hqueue ▸ id

private theorem measured {v x : σ} {r : Run} {t : Table} {ts : List Table} {k : Key}
    (h : (⟨c, w⟩ : Session _).Tracks g admits seed lost .filling)
    (hregular : (⟨c.updateRun fun r => r.setMaximum k,
      ⟨v, w.journal ++ [.maximum x t (some k)]⟩⟩ : Session (Recorded σ)).Regular g.LetsCommand .filling)
    (hstored : contents g.table g.row.key = some g.row.data)
    (hlargest : (contents t).HasLargest (some k)) (hr : c.run = some r)
    (ht : r.tables = t :: ts) (hm : r.chunk.maximum = none) :
    (⟨c.updateRun fun r => r.setMaximum k,
      ⟨v, w.journal ++ [.maximum x t (some k)]⟩⟩ : Session _).Tracks g admits seed lost .filling := by
  obtain ⟨hstart, hstop⟩ := (h.regular.resumable r hr).unread hm
  have hnone (l : Key) : ¬ Reaches none l := by
    rintro ⟨b, hb, -⟩
    exact absurd hb (by simp)
  refine ⟨hregular, trivial, fun r' hr' hcur _ => ?_, fun hwanted hpass => ?_⟩
  · obtain ⟨r₀, hr₀, rfl⟩ := Option.map_eq_some_iff.1 hr'
    obtain rfl : r = r₀ := Option.some.inj (hr.symm.trans hr₀)
    have htable : t = g.table := by
      simpa [Run.currentTable, Run.setMaximum, ht] using hcur
    refine ⟨⟨t, none, some k, [], false⟩, ?_, htable, ?_, fun _ hb => ?_, fun _ hs => ?_⟩
    · rw [Session.visits, Session.journal, ofJournal_snoc]
      rfl
    · rintro m ⟨⟩
      exact hlargest.2 g.row.key (by rw [htable, hstored]; simp)
    · exact absurd (hstart ▸ hb) (hnone _)
    · exact absurd (hstop ▸ hs) (hnone _)
  · rw [Session.visits, Session.journal, ofJournal_snoc] at hpass
    refine (h.wanted hwanted (Visit.letsPass_of_follow hpass)).imp (fun hmem => ?_)
      (·.mono emitted_subset)
    have hqueue : (c.updateRun fun r => r.setMaximum k).queue = c.queue :=
      Coordinator.queue_of_run _ rfl fun _ => rfl
    exact hqueue ▸ hmem

/-- The current table is over. If it is the watched one, the row was told of. -/
private theorem finished {v : σ} {a : Answer σ} {r : Run} {t : Table} {ts : List Table} (now : Int64)
    (h : (⟨c, w⟩ : Session _).Tracks g admits seed lost .filling)
    (hregular : (⟨(c.updateRun fun r => r.nextTable now).count .tableCompleted,
      ⟨v, w.journal ++ [a]⟩⟩ : Session (Recorded σ)).Regular g.LetsCommand .filling)
    (hr : c.run = some r) (ht : r.tables = t :: ts)
    (htold : t = g.table →
      (∀ u ∈ Visit.follow (Session.visits seed ⟨c, w⟩) a, u.table = g.table →
        u.LetsPass admits g.row) → g.Told (Session.emitted ⟨c, w⟩)) :
    (⟨(c.updateRun fun r => r.nextTable now).count .tableCompleted,
      ⟨v, w.journal ++ [a]⟩⟩ : Session _).Tracks g admits seed lost .filling := by
  refine ⟨hregular, trivial, fun r' hr' _ hm => ?_, fun hwanted hpass => ?_⟩
  · obtain ⟨r₀, -, rfl⟩ := Option.map_eq_some_iff.1 hr'
    exact absurd hm Bool.false_ne_true
  · rw [Session.visits, Session.journal, ofJournal_snoc] at hpass
    rcases h.wanted hwanted (Visit.letsPass_of_follow hpass) with hmem | hsaid
    · simp only [Coordinator.queue, hr, ht, Option.map_some, Option.getD_some, List.mem_cons] at hmem
      rcases hmem with heq | hmem
      · exact .inr ((htold heq.symm hpass).mono emitted_subset)
      · refine .inl ?_
        simpa [Coordinator.queue, Coordinator.updateRun, Coordinator.count, hr, Run.nextTable,
          Run.touch, ht] using hmem
    · exact .inr (hsaid.mono emitted_subset)

/-- A query for the next chunk that returns no row shows that the row was told of. -/
private theorem told_of_exhausted {x : σ} {r : Run} {t : Table} {ts : List Table}
    (h : (⟨c, w⟩ : Session _).Tracks g admits seed False .filling)
    (hstored : contents g.table g.row.key = some g.row.data)
    (hrows : (c.chunkQuery t).FirstRows admits (contents t) []) (hr : c.run = some r)
    (ht : r.tables = t :: ts) (hm : r.chunk.maximum.isSome) (htable : t = g.table)
    (hpass : ∀ u ∈ Visit.follow (Session.visits seed ⟨c, w⟩) (.query x (c.chunkQuery t) []),
      u.table = g.table → u.LetsPass admits g.row) : g.Told (Session.emitted ⟨c, w⟩) := by
  obtain ⟨hcur, hafter, hupTo, -⟩ := Coordinator.chunkQuery_of_run hr ht
  obtain ⟨v, hv, hread⟩ := h.read r hr (htable ▸ hcur) hm
  by_contra hnot
  have hunreached : ¬ Reaches r.chunk.stop g.row.key := by
    intro hs
    have hp := Visit.letsPass_of_follow hpass v (List.mem_of_mem_head? hv) hread.table
    have hempty : Phase.filling.unsent c = [] := h.regular.consistent.rows
    rcases hread.reached hp hs with htold | hmem | hlost
    · exact hnot htold
    · exact absurd (hempty ▸ hmem :) List.not_mem_nil
    · exact hlost
  obtain ⟨v', hv', htable', hanswers⟩ :=
    Visit.exists_head_follow (a := .query x (c.chunkQuery t) []) hv rfl
  refine hrows.not_asked (h.regular.limit_pos t) (htable ▸ hstored) ⟨fun b hb => ?_, fun m hb => ?_, ?_⟩
  · exact lt_of_not_reaches hunreached (hafter ▸ hb)
  · exact hread.within m (hupTo ▸ hb)
  · refine hpass v' (List.mem_of_mem_head? hv') (htable'.trans hread.table) x _ [] ?_
    rw [hanswers]
    exact List.mem_append_right _ List.mem_cons_self

private theorem buffered {v x : σ} {r : Run} {t : Table} {ts : List Table} {rows : List Row}
    (h : (⟨c, w⟩ : Session _).Tracks g admits seed False .filling)
    (hregular : (⟨c.bufferRows t rows, ⟨v, w.journal ++ [.query x (c.chunkQuery t) rows]⟩⟩ :
      Session (Recorded σ)).Regular g.LetsCommand .filled)
    (hstored : contents g.table g.row.key = some g.row.data)
    (hrows : (c.chunkQuery t).FirstRows admits (contents t) rows) (hr : c.run = some r)
    (ht : r.tables = t :: ts) (hfound : rows ≠ []) :
    (⟨c.bufferRows t rows, ⟨v, w.journal ++ [.query x (c.chunkQuery t) rows]⟩⟩ :
      Session _).Tracks g admits seed False .filled := by
  have hempty : c.buffer.rows = [] := h.regular.consistent.rows
  obtain ⟨last, hlast⟩ : ∃ last, rows.getLast? = some last :=
    ⟨_, List.getLast?_eq_some_getLast hfound⟩
  obtain ⟨hbuffer, hrun⟩ := Standing.bufferRows_of_nodup (t := t) hempty hrows.nodup hlast
  refine ⟨hregular, trivial, fun r' hr' hcur hm => ?_, fun hwanted hpass => ?_⟩
  · obtain ⟨r₀, hr₀, rfl⟩ := Option.map_eq_some_iff.1 (hrun ▸ hr' :)
    obtain rfl : r = r₀ := Option.some.inj (hr.symm.trans hr₀)
    obtain ⟨hcurrent, hafter, hupTo, -⟩ := Coordinator.chunkQuery_of_run hr ht
    have htable : t = g.table := Option.some.inj (hcurrent.symm.trans hcur)
    obtain ⟨u, hu, hread⟩ := h.read r hr hcur hm
    obtain ⟨u', hu', htable', hanswers⟩ :=
      Visit.exists_head_follow (a := .query x (c.chunkQuery t) rows) hu rfl
    refine ⟨u', ?_, ?_⟩
    · rw [Session.visits, Session.journal, ofJournal_snoc]
      exact hu'
    have hsent : Session.emitted ⟨c, w⟩ ⊆ Session.emitted ⟨c.bufferRows t rows,
        ⟨v, w.journal ++ [.query x (c.chunkQuery t) rows]⟩⟩ := emitted_subset
    have hkept := hread.mono htable' (fun b hb => hanswers ▸ List.mem_append_left _ hb) hsent
    refine ⟨hkept.table, hkept.within, hkept.begun, fun hp hreached => ?_⟩
    obtain ⟨b, hb, hle⟩ := hreached
    rw [show Phase.filled.unsent (c.bufferRows t rows) = rows from hbuffer]
    obtain rfl : last.key = b := Option.some.inj hb
    by_cases hs : Reaches r.chunk.stop g.row.key
    · exact .inl ((hkept.reached hp hs).resolve_right (by simp [Phase.unsent, hempty]))
    · refine .inr (.inl (hrows.mem_of_le (htable ▸ hstored) ⟨fun b hb => ?_, fun m hb => ?_, ?_⟩
        (List.mem_of_getLast? hlast) hle))
      · exact lt_of_not_reaches hs (hafter ▸ hb)
      · exact hread.within m (hupTo ▸ hb)
      · refine hp x _ rows ?_
        rw [hanswers]
        exact List.mem_append_right _ List.mem_cons_self
  · rw [show (c.bufferRows t rows).queue = c.queue from c.queue_bufferRows t rows]
    exact (h.note (v := v) rfl).wanted hwanted hpass

theorem move (tables : env.HasTables contents admits)
    (hstored : contents g.table g.row.key = some g.row.data) (h : Move env.recorded p s q s')
    (hs : s.Tracks g admits seed False p) : s'.Tracks g admits seed False q := by
  have hregular := hs.regular.move h
  cases h with
  | sent emit =>
    obtain ⟨v, -, rfl⟩ := recorded_emit_eq_ok.1 emit
    exact hs.sent hregular
  | @allSent p t o n c w =>
    refine hs.of_same_run hregular rfl trivial ?_
    exact hregular.consistent.rows
  | declined stays => exact hs.of_same_run hregular rfl trivial rfl
  | @began c w w₁ w₂ w₃ w₄ low reads commit positions commit' begins =>
    obtain ⟨v₁, v₂, rfl, rfl⟩ := recorded_opening commit positions commit' begins
    have hnoted := (((hs.note (v := v₁) (a := .committed) rfl).note (v := v₁)
      (a := .positions low) rfl).note (v := v₁) (a := .committed) rfl).note (v := v₂) (a := .began) rfl
    refine (hnoted.startChunk (env.now v₁)).of_kept (fun r => r.setLow low) hregular rfl
      (fun _ => rfl) (fun _ => ⟨rfl, rfl, rfl⟩) trivial fun _ => ?_
    exact .inr
  | measured run htables unknown maximum =>
    obtain ⟨v, hmax, rfl⟩ := recorded_maximum_eq_ok.1 maximum
    exact hs.measured hregular hstored (tables.maximum hmax) run htables unknown
  | vacant run htables unknown maximum =>
    obtain ⟨v, hmax, rfl⟩ := recorded_maximum_eq_ok.1 maximum
    refine hs.finished _ hregular run htables fun htable _ => ?_
    have hnone : contents g.table g.row.key = none := htable ▸ tables.maximum hmax g.row.key
    exact absurd (hstored.symm.trans hnone) (by simp)
  | exhausted run htables known query =>
    obtain ⟨v, hquery, rfl⟩ := recorded_query_eq_ok.1 query
    exact hs.finished _ hregular run htables
      (hs.told_of_exhausted hstored (tables.query hquery) run htables known)
  | buffered run htables known found query =>
    obtain ⟨v, hquery, rfl⟩ := recorded_query_eq_ok.1 query
    exact hs.buffered hregular hstored (tables.query hquery) run htables found
  | served run htables => exact hs.of_same_run hregular rfl trivial rfl
  | @kept c w w' executed running positions clear =>
    obtain ⟨v, -, rfl⟩ := recorded_positions_eq_ok.1 positions
    exact (hs.note (v := v) (a := .positions executed) rfl).of_kept (fun r => r.setHigh executed)
      hregular rfl (fun _ => rfl) (fun _ => ⟨rfl, rfl, rfl⟩) trivial fun _ => .inr
  | @reverted c w w' executed running positions ambiguous held =>
    obtain ⟨v, -, rfl⟩ := recorded_positions_eq_ok.1 positions
    have hrun : ((((c.updateRun fun r => r.setHigh executed).dropRows).updateRun
        Run.revertChunk).count .chunkReread).run =
          c.run.map fun r => (r.setHigh executed).revertChunk := Option.map_map ..
    refine (hs.note (v := v) (a := .positions executed) rfl).of_run _ hregular hrun trivial
      (fun r _ ht hm => ⟨ht, hm⟩) (fun r _ _ _ u hread => hread.reverted rfl rfl rfl) fun _ => ?_
    rw [Coordinator.queue_of_run _ hrun fun _ => rfl]
    exact id
  | @completed c w ended =>
    exact hs.of_kept (fun r => r.closeWindow (env.now w.world)) hregular rfl (fun _ => rfl)
      (fun _ => ⟨rfl, rfl, rfl⟩) trivial fun _ => .inr

theorem moves (tables : env.HasTables contents admits)
    (hstored : contents g.table g.row.key = some g.row.data) (h : Moves env.recorded p s q s')
    (hs : s.Tracks g admits seed False p) : s'.Tracks g admits seed False q :=
  h.keeps (I := fun p s => s.Tracks g admits seed False p) (move tables hstored) hs

theorem breaks {f : Failure} (h : Breaks env.recorded p s f s')
    (hs : s.Tracks g admits seed False p) : s'.Leaves g admits seed := by
  cases h with
  | unsent emit =>
    simp only [recorded] at emit
    exact (hs.of_journal (recording_eq_error emit)).leaves
  | stayed asked | stopped asked => exact hs.leaves
  | uncommitted reads commit =>
    simp only [recorded] at commit
    exact (hs.of_journal (recording_eq_error commit)).leaves
  | unopened reads commit opens =>
    obtain ⟨v, -, rfl⟩ := recorded_commit_eq_ok.1 commit
    have hnoted := (hs.note (v := v) (a := .committed) rfl).startChunk (env.now v)
    cases opens with
    | positions positions =>
      simp only [recorded] at positions
      exact (hnoted.of_journal (recording_eq_error positions)).leaves
    | @commit low _ _ _ positions commit =>
      obtain ⟨v₁, -, rfl⟩ := recorded_positions_eq_ok.1 positions
      have hnoted := hnoted.note (v := v₁) (a := .positions low) rfl
      simp only [recorded] at commit
      exact (hnoted.of_journal (recording_eq_error commit)).leaves
    | @begin low _ _ _ _ positions commit begins =>
      obtain ⟨v₁, -, rfl⟩ := recorded_positions_eq_ok.1 positions
      obtain ⟨v₂, -, rfl⟩ := recorded_commit_eq_ok.1 commit
      have hnoted := (hnoted.note (v := v₁) (a := .positions low) rfl).note (v := v₂)
        (a := .committed) rfl
      simp only [recorded] at begins
      exact (hnoted.of_journal (recording_eq_error begins)).leaves
  | unmeasured run htables unknown maximum =>
    simp only [recorded] at maximum
    exact (hs.of_journal (recording_eq_error maximum)).leaves
  | unanswered run htables known query =>
    simp only [recorded] at query
    exact (hs.of_journal (recording_eq_error query)).leaves
  | uncaptured running positions =>
    simp only [recorded] at positions
    exact (hs.of_journal (recording_eq_error positions)).leaves

theorem breaksOff {f : Failure} (tables : env.HasTables contents admits)
    (hstored : contents g.table g.row.key = some g.row.data) (h : BreaksOff env.recorded p s f s')
    (hs : s.Tracks g admits seed False p) : s'.Leaves g admits seed := by
  obtain ⟨q, t, hmoves, hbreaks⟩ := h
  exact breaks hbreaks (moves tables hstored hmoves hs)

end Session.Tracks
end Backfill
