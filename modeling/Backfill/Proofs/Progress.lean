import Backfill.Proofs.Buffer
import Backfill.Proofs.FlushedRows
import Backfill.Proofs.Resumption
import Backfill.Proofs.Visit

/-! How the visits of a journal stand with the coordinator: at most the last one is not over, and it
is to the first queued table. What it has read of the table goes up to where the next chunk begins,
apart from the rows that wait to be sent. -/
namespace Backfill
open Procedure Session Environment
variable {σ : Type} {env : Environment σ}

/-- Whether a call neither asks for rows of a table nor sends one. -/
def Answer.isPlain : Answer σ → Bool
  | .positions _ | .began | .committed => true
  | .sent e => !e.isRead
  | .maximum .. | .query .. => false

namespace Visit
variable {contents : σ → Table → Contents} {admits : String → Row → Prop} {v : Visit σ}
  {vs : List (Visit σ)} {a : Answer σ} {x : Option (Table × Key)} {r : Run} {rows : List Row}

theorem follow_of_isPlain (ha : a.isPlain = true) : follow vs a = vs.modifyHead (note · a) := by
  cases vs <;> cases a <;> first | rfl | exact absurd ha Bool.false_ne_true

theorem isRead_of_isPlain (ha : a.isPlain = true) (e : Emission) (he : a.sent? = some e) :
    e.isRead = false := by
  cases a with
  | sent e' =>
    obtain rfl := Option.some.inj he
    simpa [Answer.isPlain] using ha
  | _ => exact absurd he (by simp [Answer.sent?])

def served (vs : List (Visit σ)) : List Table := ((vs.filter ended).map table).reverse

theorem served_cons (v : Visit σ) (vs : List (Visit σ)) :
    served (v :: vs) = served vs ++ if v.ended then [v.table] else [] := by
  cases hv : v.ended <;> simp [served, hv]

/-- Only an answer about the rows of a table may end a visit. -/
theorem served_modifyHead (vs : List (Visit σ)) (a : Answer σ) :
    served (vs.modifyHead (note · a)) = served vs := by
  cases vs with
  | nil => rfl
  | cons v vs => rw [List.modifyHead_cons, served_cons, served_cons, note]

theorem served_follow_of_isPlain (ha : a.isPlain = true) : served (follow vs a) = served vs :=
  follow_of_isPlain ha ▸ served_modifyHead vs a

theorem served_follow_sent (vs : List (Visit σ)) (e : Emission) :
    served (follow vs (.sent e)) = served vs := by
  cases vs with
  | nil => rfl
  | cons v vs => exact served_modifyHead (v :: vs) _

def allReads (vs : List (Visit σ)) : List Emission := vs.reverse.flatMap reads

theorem allReads_cons (v : Visit σ) (vs : List (Visit σ)) :
    allReads (v :: vs) = allReads vs ++ v.reads := by
  simp [allReads]

theorem allReads_follow (h : vs ≠ [] ∨ a.isPlain = true ∨ a.sent? = none) :
    allReads (follow vs a) = allReads vs ++ a.sent?.toList.filter Emission.isRead := by
  have hnote (v : Visit σ) (us : List (Visit σ)) (ended : Bool) :
      allReads ({ v.note a with ended } :: us) =
        allReads (v :: us) ++ a.sent?.toList.filter Emission.isRead := by
    rw [allReads_cons, allReads_cons, List.append_assoc, ← reads_note]
    rfl
  cases vs with
  | nil =>
    cases a with
    | maximum w t k => rfl
    | sent e =>
      have he : e.isRead = false := by
        rcases h with h | h | h
        · exact absurd rfl h
        · simpa [Answer.isPlain] using h
        · simp [Answer.sent?] at h
      simp [follow, Answer.sent?, he]
    | _ => rfl
  | cons v us =>
    cases a with
    | maximum w t k => simp [follow, allReads_cons, reads, Answer.sent?]
    | query w q rows => exact hnote v us rows.isEmpty
    | _ => exact hnote v us v.ended

/-- A visit that is over and was read well. -/
structure Finished (contents : σ → Table → Contents) (admits : String → Row → Prop)
    (v : Visit σ) : Prop where
  wellRead : v.WellRead contents admits
  ended : v.ended = true

theorem Finished.note (h : v.Finished contents admits) (ha : a.isPlain = true) :
    (v.note a).Finished contents admits := by
  have hreads : (v.note a).reads = v.reads := reads_note_of_none (isRead_of_isPlain ha)
  have hkeys : (v.note a).keys = v.keys := keys_note_of_none (isRead_of_isPlain ha)
  obtain ⟨hw, hover⟩ := h
  refine ⟨⟨fun w q rows hmem => ?_, ?_, hkeys ▸ hw.ascending, ?_, fun _ row hrow => ?_⟩, hover⟩
  · rcases List.mem_append.1 hmem with hmem | hmem
    · exact hw.queries w q rows hmem
    · rw [← List.mem_singleton.1 hmem] at ha
      exact absurd ha Bool.false_ne_true
  · exact fun e he => hw.table e (hreads ▸ he)
  · intro k hk
    have hcovered := hw.covered k (hkeys ▸ hk)
    exact ⟨hcovered.after, hcovered.upTo⟩
  · rw [hreads]
    exact hw.once hover row hrow.of_note

/-- A table without rows is read at once. -/
theorem Finished.vacant (t : Table) :
    (⟨t, none, none, [], true⟩ : Visit σ).Finished contents admits := by
  refine ⟨⟨nofun, nofun, .nil, nofun, fun _ row hrow => ?_⟩, rfl⟩
  obtain ⟨m, hm, -⟩ := hrow.covered.upTo
  exact absurd hm (by simp)

/-- A visit to the first queued table of a run. Its rows have been read up to where the next chunk
begins; `rows` of them are still to be sent. -/
structure Underway (contents : σ → Table → Contents) (admits : String → Row → Prop)
    (x : Option (Table × Key)) (v : Visit σ) (r : Run) (rows : List Row) : Prop where
  continues : v.ended = false
  current : r.currentTable = some v.table
  maximum : r.chunk.maximum = v.maximum
  known : v.maximum.isSome
  queries : ∀ w q rows, .query w q rows ∈ v.answers → q.table = v.table ∧ q.upTo = v.maximum
  reads : ∀ e ∈ v.reads, e.table = v.table
  readUpTo : v.ReadUpTo contents admits x r.chunk.stop rows

namespace Underway

theorem wellRead (h : v.Underway contents admits x r rows) : v.WellRead contents admits where
  queries := h.queries
  table := h.reads
  ascending := (List.pairwise_append.1 h.readUpTo.ascending).1
  covered k hk := h.readUpTo.covered k (List.mem_append_left _ hk)
  once hover := absurd (h.continues.symm.trans hover) Bool.false_ne_true

theorem of_eq {r' : Run} (h : v.Underway contents admits x r rows)
    (ht : r'.currentTable = r.currentTable) (hm : r'.chunk.maximum = r.chunk.maximum)
    (hs : r'.chunk.stop = r.chunk.stop) : v.Underway contents admits x r' rows :=
  ⟨h.continues, ht.trans h.current, hm.trans h.maximum, h.known, h.queries, h.reads,
    hs ▸ h.readUpTo⟩

theorem note (h : v.Underway contents admits x r rows) (ha : a.isPlain = true) :
    (v.note a).Underway contents admits x r rows := by
  have hreads : (v.note a).reads = v.reads := reads_note_of_none (isRead_of_isPlain ha)
  refine ⟨h.continues, h.current, h.maximum, h.known, fun w q rows hmem => ?_, ?_,
    h.readUpTo.note (isRead_of_isPlain ha)⟩
  · rcases List.mem_append.1 hmem with hmem | hmem
    · exact h.queries w q rows hmem
    · rw [← List.mem_singleton.1 hmem] at ha
      exact absurd ha Bool.false_ne_true
  · exact fun e he => h.reads e (hreads ▸ he)

theorem send {row : Row} {e : Emission} (h : v.Underway contents admits x r (row :: rows))
    (he : e.record = row.record) (ho : e.offset.fromSnapshot = true) (ht : e.table = v.table) :
    (v.note (.sent e)).Underway contents admits x r rows := by
  refine ⟨h.continues, h.current, h.maximum, h.known, fun w q rows hmem => ?_, fun e' he' => ?_,
    h.readUpTo.send he ho⟩
  · rcases List.mem_append.1 hmem with hmem | hmem
    · exact h.queries w q rows hmem
    · simp at hmem
  · rw [reads_note, List.mem_append] at he'
    rcases he' with he' | he'
    · exact h.reads e' he'
    · simp only [Answer.sent?, Option.toList_some, List.mem_filter, List.mem_singleton] at he'
      exact he'.1 ▸ ht

theorem query {w : σ} {q : ChunkQuery} {last : Row} (h : v.Underway contents admits x r [])
    (hrows : q.FirstRows admits (contents w q.table) rows) (hafter : q.after = r.chunk.stop)
    (hupTo : q.upTo = r.chunk.maximum) (htable : q.table = v.table)
    (hlast : rows.getLast? = some last) :
    (v.note (.query w q rows)).Underway contents admits x (r.chunkEndsAt last.key) rows := by
  have hmaximum : q.upTo = v.maximum := hupTo.trans h.maximum
  have hreads : (v.note (.query w q rows)).reads = v.reads := reads_note_of_none nofun
  refine ⟨h.continues, h.current, h.maximum, h.known, fun w' q' rows' hmem => ?_, ?_,
    h.readUpTo.query hrows hafter hmaximum h.known hlast⟩
  · rcases List.mem_append.1 hmem with hmem | hmem
    · exact h.queries w' q' rows' hmem
    · obtain ⟨rfl, rfl, rfl⟩ := Answer.query.inj (List.mem_singleton.1 hmem)
      exact ⟨htable, hmaximum⟩
  · exact fun e he => h.reads e (hreads ▸ he)

end Underway
end Visit

def Event.named (e : Event) : Option (Table × Key) :=
  match e.kind with
  | .change change => some (change.table, change.key)
  | _ => none

theorem Coordinator.moveTo_rows (c : Coordinator) (e : Event) : ∃ keep : Row → Bool,
    (c.moveTo e).buffer.rows = c.buffer.rows.filter keep ∧ ∀ row, keep row = false →
      ∀ t, c.currentTable = some t → e.named = some (t, row.key) := by
  have hall : c.buffer.rows = c.buffer.rows.filter fun _ => true := by simp
  cases hk : e.kind with
  | change change =>
    rw [moveTo_rows_of_change hk]
    split
    · rename_i hd
      refine ⟨fun row => row.key ≠ change.key, rfl, fun row hrow t ht => ?_⟩
      obtain rfl := Option.some.inj (hd.2.symm.trans ht)
      simp only [ne_eq, decide_not, Bool.not_eq_false', decide_eq_true_eq] at hrow
      simp [Event.named, hk, hrow]
    · exact ⟨_, hall, nofun⟩
  | _ =>
    rw [moveTo_rows_of_not_change (by simp [hk])]
    exact ⟨_, hall, nofun⟩

/-- The rows of the chunk in progress that are still to be sent. -/
def Phase.unsent (p : Phase) (c : Coordinator) : List Row :=
  match p with
  | .sending _ _ _ _ rows => rows
  | _ => c.buffer.rows

section Standing
variable (contents : σ → Table → Contents) (admits : String → Row → Prop)
  (x : Option (Table × Key))

/-- What is known of the visit under way in a phase. A chunk may still have to be read again until
its high watermark is captured. -/
def Phase.suits (p : Phase) (v : Visit σ) (r : Run) : Prop :=
  match p with
  | .sending _ t o _ _ => t = v.table ∧ o.fromSnapshot = true
  | .filling => r.chunk.start = r.chunk.stop
  | .filled => v.ReadUpTo contents admits x r.chunk.start []
  | _ => True

/-- How the visits, last first, stand with a coordinator. -/
inductive Standing (p : Phase) : List (Visit σ) → Coordinator → Prop
  | between {vs c r} (run : c.run = some r) (unknown : r.chunk.maximum = none)
      (unsent : p.unsent c = []) (finished : ∀ v ∈ vs, v.Finished contents admits) :
      Standing p vs c
  | reading {v vs c r} (run : c.run = some r) (finished : ∀ u ∈ vs, u.Finished contents admits)
      (underway : v.Underway contents admits x r (p.unsent c))
      (suits : p.suits contents admits x v r) : Standing p (v :: vs) c

end Standing

namespace Standing
variable {contents : σ → Table → Contents} {admits : String → Row → Prop}
  {x : Option (Table × Key)} {p q : Phase} {v : Visit σ} {vs : List (Visit σ)} {a : Answer σ}
  {c c' : Coordinator} {r : Run}

/-- What leaves the progress of the chunk and the current table alone leaves the visits as they
stand. -/
theorem of_run (h : Standing contents admits x p vs c) (f : Run → Run)
    (hrun : c'.run = c.run.map f) (hchunk : ∀ r, c.run = some r → (f r).chunk.maximum =
      r.chunk.maximum ∧ (f r).chunk.stop = r.chunk.stop)
    (hcurrent : ∀ r t, c.run = some r → r.currentTable = some t → (f r).currentTable = some t)
    (hunsent : q.unsent c' = p.unsent c)
    (hsuits : ∀ v r, c.run = some r → v.Underway contents admits x r (p.unsent c) →
      p.suits contents admits x v r → q.suits contents admits x v (f r)) :
    Standing contents admits x q vs c' := by
  cases h with
  | between run unknown unsent finished =>
    exact .between (by rw [hrun, run]; rfl) ((hchunk _ run).1.trans unknown)
      (hunsent.trans unsent) finished
  | reading run finished underway suits =>
    obtain ⟨hm, hs⟩ := hchunk _ run
    refine .reading (by rw [hrun, run]; rfl) finished ?_ (hsuits _ _ run underway suits)
    rw [hunsent]
    refine underway.of_eq ?_ hm hs
    exact (hcurrent _ _ run underway.current).trans underway.current.symm

theorem of_plain (h : Standing contents admits x p vs c) (ha : a.isPlain = true) :
    Standing contents admits x p (Visit.follow vs a) c := by
  rw [Visit.follow_of_isPlain ha]
  cases h with
  | between run unknown unsent finished =>
    refine .between run unknown unsent ?_
    cases vs with
    | nil => exact finished
    | cons v vs =>
      rw [List.modifyHead_cons, List.forall_mem_cons]
      obtain ⟨hv, hvs⟩ := List.forall_mem_cons.1 finished
      exact ⟨hv.note ha, hvs⟩
  | reading run finished underway suits =>
    refine .reading run finished (underway.note ha) ?_
    cases p with
    | filled => exact Visit.ReadUpTo.note suits (Visit.isRead_of_isPlain ha)
    | _ => exact suits

theorem exists_run (h : Standing contents admits x p vs c) : ∃ r, c.run = some r := by
  cases h with
  | between run unknown unsent finished => exact ⟨_, run⟩
  | reading run finished underway suits => exact ⟨_, run⟩

theorem ne_nil (h : Standing contents admits x p vs c) (hunsent : p.unsent c ≠ []) : vs ≠ [] := by
  cases h with
  | between run unknown unsent finished => exact absurd unsent hunsent
  | reading run finished underway suits => exact List.cons_ne_nil _ _

/-- Before the largest key of the current table is known, no visit is under way. -/
theorem finished_of_unknown (h : Standing contents admits x p vs c) (hr : c.run = some r)
    (hm : r.chunk.maximum = none) : p.unsent c = [] ∧ ∀ v ∈ vs, v.Finished contents admits := by
  cases h with
  | between run unknown unsent finished => exact ⟨unsent, finished⟩
  | reading run finished underway suits =>
    obtain rfl := Option.some.inj (hr.symm.trans run)
    have hknown := underway.known
    rw [← underway.maximum, hm] at hknown
    exact absurd hknown Bool.false_ne_true

/-- Once it is known, the last visit is under way. -/
theorem underway_of_known (h : Standing contents admits x p vs c) (hr : c.run = some r)
    (hm : r.chunk.maximum.isSome) : ∃ v rest, vs = v :: rest ∧
      (∀ u ∈ rest, u.Finished contents admits) ∧
      v.Underway contents admits x r (p.unsent c) ∧ p.suits contents admits x v r := by
  cases h with
  | between run unknown unsent finished =>
    obtain rfl := Option.some.inj (hr.symm.trans run)
    simp [unknown] at hm
  | reading run finished underway suits =>
    obtain rfl := Option.some.inj (hr.symm.trans run)
    exact ⟨_, _, rfl, finished, underway, suits⟩

theorem of_same_run (h : Standing contents admits x p vs c) (hrun : c'.run = c.run)
    (hunsent : q.unsent c' = p.unsent c)
    (hsuits : ∀ v r, p.suits contents admits x v r → q.suits contents admits x v r) :
    Standing contents admits x q vs c' :=
  h.of_run id (hrun.trans (congrFun Option.map_id _).symm) (fun _ _ => ⟨rfl, rfl⟩)
    (fun _ _ _ h => h) hunsent fun v r _ _ hv => hsuits v r hv

theorem began (h : Standing contents admits x .due vs c) (now : Int64) (low : PositionSet) :
    Standing contents admits x .filling vs
      (((c.updateRun fun r => r.startChunk now).updateRun fun r => r.setLow low).count
        .windowOpened) := by
  refine h.of_run (fun r => (r.startChunk now).setLow low) ?_ (fun _ _ => ⟨rfl, rfl⟩)
    (fun _ _ _ h => h) rfl fun _ _ _ _ _ => rfl
  exact Option.map_map ..

theorem sent {pt : Partition} {t : Table} {o : Offset} {n : Nat} {row : Row} {rows : List Row}
    (h : Standing contents admits x (.sending pt t o n (row :: rows)) vs c) :
    Standing contents admits x (.sending pt t o n rows)
      (Visit.follow vs (.sent ⟨pt, t, row.record, o⟩))
      (c.updateRun fun r => r.recordSent row.key) := by
  cases h with
  | between run unknown unsent finished => exact absurd unsent (List.cons_ne_nil _ _)
  | reading run finished underway suits =>
    refine .reading (congrArg (Option.map _) run) finished ?_ suits
    have hsent := underway.send (e := ⟨pt, t, row.record, o⟩) rfl suits.2 suits.1
    exact hsent.of_eq rfl rfl rfl

theorem measured {t : Table} {ts : List Table} {w : σ} (k : Key)
    (h : Standing contents admits x .filling vs c) (hr : c.run = some r) (ht : r.tables = t :: ts)
    (hm : r.chunk.maximum = none) (hres : r.Resumable) :
    Standing contents admits x .filling (Visit.follow vs (.maximum w t (some k)))
      (c.updateRun fun r => r.setMaximum k) := by
  obtain ⟨hunsent, hfinished⟩ := h.finished_of_unknown hr hm
  obtain ⟨hstart, hstop⟩ := hres.unread hm
  refine .reading (congrArg (Option.map _) hr) hfinished ?_ (hstart.trans hstop.symm)
  refine ⟨rfl, congrArg List.head? ht, rfl, rfl, nofun, nofun, ?_⟩
  have hnone : Phase.filling.unsent (c.updateRun fun r => r.setMaximum k) = [] := hunsent
  have hreach (l : Key) : ¬ Reaches (r.setMaximum k).chunk.stop l := by
    rintro ⟨b, hb, -⟩
    exact absurd (hstop.symm.trans hb) (by simp)
  rw [hnone]
  exact ⟨.nil, nofun, nofun, nofun, fun row _ _ hreached => absurd hreached (hreach _)⟩

theorem vacant {t : Table} {w : σ} (now : Int64) (h : Standing contents admits x .filling vs c)
    (hr : c.run = some r) (hm : r.chunk.maximum = none) :
    Standing contents admits x .filling (Visit.follow vs (.maximum w t none))
      ((c.updateRun fun r => r.nextTable now).count .tableCompleted) := by
  obtain ⟨hunsent, hfinished⟩ := h.finished_of_unknown hr hm
  refine .between (congrArg (Option.map _) hr) rfl hunsent ?_
  exact List.forall_mem_cons.2 ⟨.vacant t, hfinished⟩

theorem exhausted {q : ChunkQuery} {w : σ} (now : Int64)
    (h : Standing contents admits x .filling vs c) (hx : x = none) (hr : c.run = some r)
    (hm : r.chunk.maximum.isSome) (hrows : q.FirstRows admits (contents w q.table) [])
    (hlimit : 0 < q.limit) (hafter : q.after = r.chunk.stop) (hupTo : q.upTo = r.chunk.maximum)
    (htable : r.currentTable = some q.table) (hempty : c.buffer.rows = []) :
    Standing contents admits x .filling (Visit.follow vs (.query w q []))
      ((c.updateRun fun r => r.nextTable now).count .tableCompleted) := by
  obtain ⟨v, rest, rfl, hfinished, underway, -⟩ := h.underway_of_known hr hm
  obtain rfl := hx
  have hreadUpTo := underway.readUpTo
  rw [show Phase.filling.unsent c = [] from hempty] at hreadUpTo
  have hsame : q.table = v.table := Option.some.inj (htable.symm.trans underway.current)
  refine .between (congrArg (Option.map _) hr) rfl hempty ?_
  refine List.forall_mem_cons.2 ⟨⟨?_, rfl⟩, hfinished⟩
  exact hreadUpTo.wellRead hrows hlimit hafter (hupTo.trans underway.maximum) hsame
    underway.queries underway.reads

theorem bufferRows_of_nodup {t : Table} {rows : List Row} {last : Row}
    (hbuffer : c.buffer.rows = []) (hnodup : (rows.map Row.key).Nodup)
    (hlast : rows.getLast? = some last) :
    (c.bufferRows t rows).buffer.rows = rows ∧
      (c.bufferRows t rows).run = c.run.map fun r => r.chunkEndsAt last.key := by
  have hempty : c.buffer = RowBuffer.empty := congrArg RowBuffer.mk hbuffer
  have hrows : (c.buffer.insertAll rows).rows = rows := hempty ▸ RowBuffer.insertAll_empty hnodup
  have hkey : (c.buffer.insertAll rows).lastKey? = some last.key := by
    rw [RowBuffer.lastKey?, hrows, hlast]
    rfl
  refine ⟨hrows, ?_⟩
  simp only [Coordinator.bufferRows, hkey]

theorem buffered {q : ChunkQuery} {w : σ} {rows : List Row}
    (h : Standing contents admits x .filling vs c) (hr : c.run = some r)
    (hm : r.chunk.maximum.isSome) (hrows : q.FirstRows admits (contents w q.table) rows)
    (hfound : rows ≠ []) (hafter : q.after = r.chunk.stop) (hupTo : q.upTo = r.chunk.maximum)
    (htable : r.currentTable = some q.table) (hempty : c.buffer.rows = []) :
    Standing contents admits x .filled (Visit.follow vs (.query w q rows))
      (c.bufferRows q.table rows) := by
  obtain ⟨v, rest, rfl, hfinished, underway, suits⟩ := h.underway_of_known hr hm
  obtain ⟨last, hlast⟩ : ∃ last, rows.getLast? = some last :=
    ⟨_, List.getLast?_eq_some_getLast hfound⟩
  obtain ⟨hbuffer, hrun⟩ := bufferRows_of_nodup (t := q.table) hempty hrows.nodup hlast
  have hstill : ({ v.note (.query w q rows) with ended := rows.isEmpty } : Visit σ) =
      v.note (.query w q rows) := by
    have hover : rows.isEmpty = v.ended := by simp [hfound, underway.continues]
    rw [hover]
    rfl
  have hsame : q.table = v.table := Option.some.inj (htable.symm.trans underway.current)
  rw [show Phase.filling.unsent c = [] from hempty] at underway
  have hread := underway.query hrows hafter hupTo hsame hlast
  have hstart : v.ReadUpTo contents admits x r.chunk.start [] := by
    rw [show r.chunk.start = r.chunk.stop from suits]
    exact underway.readUpTo
  rw [Visit.follow, hstill]
  refine .reading (r := r.chunkEndsAt last.key) (by rw [hrun, hr]; rfl) hfinished ?_
    (hstart.note nofun)
  rw [show Phase.filled.unsent (c.bufferRows q.table rows) = rows from hbuffer]
  exact hread

theorem kept (h : Standing contents admits x .filled vs c) (executed : PositionSet) :
    Standing contents admits x .idle vs (c.updateRun fun r => r.setHigh executed) :=
  h.of_run (fun r => r.setHigh executed) rfl (fun _ _ => ⟨rfl, rfl⟩) (fun _ _ _ h => h) rfl
    fun _ _ _ _ _ => trivial

theorem completed (h : Standing contents admits x .filled vs c) (now : Int64) :
    Standing contents admits x .idle vs (c.updateRun fun r => r.closeWindow now) :=
  h.of_run (fun r => r.closeWindow now) rfl (fun _ _ => ⟨rfl, rfl⟩) (fun _ _ _ h => h) rfl
    fun _ _ _ _ _ => trivial

theorem reverted (h : Standing contents admits x .filled vs c) (executed : PositionSet) :
    Standing contents admits x .due vs (((c.updateRun fun r => r.setHigh executed).dropRows.updateRun
      Run.revertChunk).count .chunkReread) := by
  cases h with
  | between run unknown unsent finished =>
    exact .between (congrArg (Option.map Run.revertChunk ∘ Option.map _) run) unknown rfl finished
  | reading run finished underway suits =>
    refine .reading (congrArg (Option.map Run.revertChunk ∘ Option.map _) run) finished ?_ trivial
    exact ⟨underway.continues, underway.current, underway.maximum, underway.known,
      underway.queries, underway.reads, suits⟩

theorem added (h : Standing contents admits x .idle vs c) (hr : c.run = some r) (now : Int64)
    (tables : List Table) (filters : TextMap String)
    (hunsent : q.unsent c = Phase.idle.unsent c)
    (hsuits : ∀ v r, q.suits contents admits x v r) :
    Standing contents admits x q vs { c with run := some (r.addTables now tables filters) } := by
  refine h.of_run (fun r => r.addTables now tables filters) (by rw [hr]; rfl) (fun r _ => ?_)
    (fun r t _ ht => ?_) hunsent fun v r _ _ _ => hsuits v _
  · obtain ⟨new, filters', heq⟩ := r.addTables_eq now tables filters
    rw [heq]
    exact ⟨rfl, rfl⟩
  · obtain ⟨new, filters', heq⟩ := r.addTables_eq now tables filters
    rw [heq, Run.currentTable]
    rw [List.head?_append, show r.tables.head? = some t from ht, Option.some_or]

theorem flushed (h : Standing contents admits x .idle vs c) (hc : c.Consistent .idle) (now : Int64)
    (pt : Partition) (o : Offset) : Standing contents admits x
      ((c.closeWindow now).flushing pt o).1 vs ((c.closeWindow now).flushing pt o).2 := by
  rw [Coordinator.flushing_coordinator]
  have hrun : (c.closeWindow now).dropRows.run = c.run.map fun r => r.closeWindow now := rfl
  rcases hc.flushing now pt o with ⟨hempty, hp⟩ | ⟨t, ht, hp⟩
  · rw [hp]
    exact h.of_run _ hrun (fun _ _ => ⟨rfl, rfl⟩) (fun _ _ _ h => h) hempty.symm
      fun _ _ _ _ _ => trivial
  · rw [hp]
    refine h.of_run _ hrun (fun _ _ => ⟨rfl, rfl⟩) (fun _ _ _ h => h) rfl fun v r hr hv _ => ?_
    have hcurrent : c.currentTable = some v.table := by
      rw [Coordinator.currentTable, hr]
      exact hv.current
    exact ⟨Option.some.inj (ht.symm.trans hcurrent), rfl⟩

/-- The window moves to the position of a unit. A row that is dropped is named by its change. -/
theorem placed (h : Standing contents admits none .idle vs c) (e : Event) :
    Standing contents admits e.named .idle vs (c.moveTo e) := by
  obtain ⟨keep, hkeep, hdropped⟩ := c.moveTo_rows e
  have hrun (r : Run) (hr : c.run = some r) :
      (c.moveTo e).run = some { r with mode := (r.transition e.position).mode } := by
    rw [Coordinator.moveTo_run, hr]
    rfl
  cases h with
  | between run unknown unsent finished =>
    refine .between (hrun _ run) unknown ?_ finished
    have hempty : c.buffer.rows = [] := unsent
    rw [show Phase.idle.unsent (c.moveTo e) = _ from hkeep, hempty, List.filter_nil]
  | @reading v _ _ r run finished underway suits =>
    refine .reading (hrun _ run) finished ?_ trivial
    rw [show Phase.idle.unsent (c.moveTo e) = _ from hkeep]
    refine ⟨underway.continues, underway.current, underway.maximum, underway.known,
      underway.queries, underway.reads, underway.readUpTo.mono.filter keep fun row hrow => ?_⟩
    refine hdropped row hrow v.table ?_
    rw [Coordinator.currentTable, run]
    exact underway.current

/-- The change is passed on, and its row does not stay as it is. -/
theorem passed {e : Emission} (h : Standing contents admits x .idle vs c)
    (hx : x = some (e.table, e.record.key)) (he : e.isRead = false) :
    Standing contents admits none .idle (Visit.follow vs (.sent e)) c := by
  have hplain : (Answer.sent e : Answer σ).isPlain = true := by simp [Answer.isPlain, he]
  cases h with
  | between run unknown unsent finished =>
    exact (Standing.between run unknown unsent finished).of_plain hplain
  | reading run finished underway suits =>
    obtain ⟨hcontinues, hcurrent, hmaximum, hknown, hqueries, hreads, -⟩ := underway.note hplain
    exact .reading run finished ⟨hcontinues, hcurrent, hmaximum, hknown, hqueries, hreads,
      underway.readUpTo.pass hx he⟩ trivial

/-- What is known when a row is left out is known when none is. -/
theorem mono (h : Standing contents admits none .idle vs c) :
    Standing contents admits x .idle vs c := by
  cases h with
  | between run unknown unsent finished => exact .between run unknown unsent finished
  | reading run finished underway suits =>
    exact .reading run finished ⟨underway.continues, underway.current, underway.maximum,
      underway.known, underway.queries, underway.reads, underway.readUpTo.mono⟩ trivial

theorem wellRead (h : Standing contents admits x p vs c) : ∀ v ∈ vs, v.WellRead contents admits := by
  cases h with
  | between run unknown unsent finished => exact fun v hv => (finished v hv).wellRead
  | reading run finished underway suits =>
    exact List.forall_mem_cons.2 ⟨underway.wellRead, fun v hv => (finished v hv).wellRead⟩

theorem ended (h : Standing contents admits x p vs c) : ∀ v ∈ vs.tail, v.ended = true := by
  cases h with
  | between run unknown unsent finished =>
    exact fun v hv => (finished v (List.mem_of_mem_tail hv)).ended
  | reading run finished underway suits => exact fun v hv => (finished v hv).ended

theorem current (h : Standing contents admits x p vs c) (hv : vs.head? = some v)
    (hover : v.ended = false) : c.currentTable = some v.table := by
  cases h with
  | between run unknown unsent finished =>
    have hfinished := (finished v (List.mem_of_mem_head? hv)).ended
    exact absurd (hfinished.symm.trans hover) (by simp)
  | reading run finished underway suits =>
    obtain rfl := Option.some.inj hv
    rw [Coordinator.currentTable, run]
    exact underway.current

end Standing
end Backfill
