import Backfill.Proofs.Served
import Mathlib.Data.List.Induction

/-! What the sequence number of a chunk counts. It is set to zero when a table becomes current and
goes up with each chunk that is started. A chunk is started before it is known which table will give
its rows. So if the current table was reached while a chunk was read, since the tables before it had
no rows left, the chunk that reached it was counted for one of these tables. -/
namespace Backfill
open Procedure Session Environment
variable {σ : Type} {env : Environment σ}

def Answer.table? : Answer σ → Option Table
  | .maximum _ t _ => some t
  | .query _ q _ => some q.table
  | _ => none

def chunksOf (t : Table) (answers : List (Answer σ)) : Nat :=
  answers.countP fun a => a.query?.any fun q => q.1.table = t

def asksOthers (t : Table) (answers : List (Answer σ)) : Bool :=
  answers.any fun a => a.table?.any fun u => u ≠ t

section Answers
variable {t u : Table} {a : Answer σ} {as bs : List (Answer σ)}

theorem chunksOf_append : chunksOf t (as ++ bs) = chunksOf t as + chunksOf t bs :=
  List.countP_append

theorem asksOthers_append : asksOthers t (as ++ bs) = (asksOthers t as || asksOthers t bs) :=
  List.any_append

theorem Answer.table?_of_query {q : ChunkQuery × List Row} (h : a.query? = some q) :
    a.table? = some q.1.table := by
  cases a with
  | query before q' rows =>
    obtain rfl := Option.some.inj h
    rfl
  | _ => cases h

theorem chunksOf_eq_zero (h : ∀ a ∈ as, a.table? ≠ some t) : chunksOf t as = 0 := by
  refine List.countP_eq_zero.2 fun a ha hany => ?_
  obtain ⟨q, hq, htable⟩ := (Option.any_eq_true _ _).1 hany
  exact h a ha (of_decide_eq_true htable ▸ Answer.table?_of_query hq)

theorem asksOthers_eq_false (h : ∀ a ∈ as, ∀ u, a.table? = some u → u = t) :
    asksOthers t as = false := by
  refine List.any_eq_false.2 fun a ha hany => ?_
  obtain ⟨u, hu, hne⟩ := (Option.any_eq_true _ _).1 hany
  exact of_decide_eq_true hne (h a ha u hu)

end Answers

def Coordinator.sequence (c : Coordinator) : UInt64 := (c.run.map fun r => r.chunk.sequence).getD 0

theorem Coordinator.head?_queue (c : Coordinator) : c.queue.head? = c.currentTable := by
  cases hr : c.run <;> simp [queue, currentTable, Run.currentTable, hr]

theorem Coordinator.sequence_of_run {c c' : Coordinator} (f : Run → Run)
    (hrun : c'.run = c.run.map f) (h : ∀ r, (f r).chunk.sequence = r.chunk.sequence) :
    c'.sequence = c.sequence := by
  rw [sequence, hrun, Option.map_map]
  exact congrArg (fun f => (c.run.map f).getD 0) (funext h)

theorem Coordinator.sequence_bufferRows (c : Coordinator) (t : Table) (rows : List Row) :
    (c.bufferRows t rows).sequence = c.sequence := by
  simp only [bufferRows]
  cases (c.buffer.insertAll rows).lastKey? with
  | none => rfl
  | some k => exact sequence_of_run (fun r => r.chunkEndsAt k) rfl fun _ => rfl

/-- Whether a chunk was started for which no query has found rows yet. -/
def Phase.isFilling : Phase → Bool
  | .filling => true
  | _ => false

/-- How the sequence number stands to what the store was asked since the table `front` was current
with the number `start`. It goes up for the tables that were current all the time. For a table that
became current it has left out one chunk, if the store was asked about other tables before. -/
structure StayAccount (front : Option Table) (start : UInt64) (p : Phase)
    (answers : List (Answer σ)) (c : Coordinator) : Prop where
  once : c.queue.Nodup
  ended : c.queue = [] → c.sequence = 0
  waiting : ∀ u ∈ c.queue.tail, front ≠ some u ∧ ∀ a ∈ answers, a.table? ≠ some u
  stayed : ∀ t, c.queue.head? = some t → front = some t →
    c.sequence = start + .ofNat (chunksOf t answers) + if p.isFilling then 1 else 0
  came : ∀ t, c.queue.head? = some t → front ≠ some t →
    c.sequence + (if asksOthers t answers then 1 else 0) =
      .ofNat (chunksOf t answers) + if p.isFilling then 1 else 0

namespace StayAccount
variable {front : Option Table} {start : UInt64} {p q : Phase} {as bs : List (Answer σ)}
  {c c' : Coordinator} {t : Table} {ts : List Table} {a : Answer σ}

theorem of_eq (h : StayAccount front start p as c) (hphase : q.isFilling = p.isFilling)
    (hqueue : c'.queue = c.queue) (hsequence : c'.sequence = c.sequence)
    (hbs : ∀ a ∈ bs, a.table? = none) : StayAccount front start q (as ++ bs) c' := by
  have hchunks (t : Table) : chunksOf t (as ++ bs) = chunksOf t as := by
    have hnone : chunksOf t bs = 0 := chunksOf_eq_zero fun a ha => by simp [hbs a ha]
    rw [chunksOf_append, hnone, Nat.add_zero]
  have hothers (t : Table) : asksOthers t (as ++ bs) = asksOthers t as := by
    have hnone : asksOthers t bs = false := asksOthers_eq_false fun a ha => by simp [hbs a ha]
    rw [asksOthers_append, hnone, Bool.or_false]
  constructor
  · exact hqueue ▸ h.once
  · exact fun hnil => hsequence.trans (h.ended (hqueue ▸ hnil))
  · intro u hu
    obtain ⟨hfront, hasked⟩ := h.waiting u (hqueue ▸ hu)
    refine ⟨hfront, fun a ha => ?_⟩
    rcases List.mem_append.1 ha with ha | ha
    · exact hasked a ha
    · simp [hbs a ha]
  · intro t ht
    rw [hsequence, hchunks, hphase]
    exact h.stayed t (hqueue ▸ ht)
  · intro t ht
    rw [hsequence, hchunks, hothers, hphase]
    exact h.came t (hqueue ▸ ht)

theorem answered (h : StayAccount front start p ([] : List (Answer σ)) c) (ha : a.table? = none) :
    StayAccount front start p [a] c :=
  h.of_eq rfl rfl rfl (List.forall_mem_singleton.2 ha)

theorem of_run (h : StayAccount front start p as c) (f : Run → Run) (hrun : c'.run = c.run.map f)
    (htables : ∀ r, (f r).tables = r.tables)
    (hsequence : ∀ r, (f r).chunk.sequence = r.chunk.sequence)
    (hphase : q.isFilling = p.isFilling) (hbs : ∀ a ∈ bs, a.table? = none) :
    StayAccount front start q (as ++ bs) c' :=
  h.of_eq hphase (Coordinator.queue_of_run f hrun htables)
    (Coordinator.sequence_of_run f hrun hsequence) hbs

theorem began (h : StayAccount front start .due as c) (hne : c.queue ≠ [])
    (hqueue : c'.queue = c.queue) (hsequence : c'.sequence = c.sequence + 1) :
    StayAccount front start .filling as c' := by
  constructor
  · exact hqueue ▸ h.once
  · exact fun hnil => absurd (hqueue ▸ hnil) hne
  · exact fun u hu => h.waiting u (hqueue ▸ hu)
  · intro t ht hfront
    have hstayed := h.stayed t (hqueue ▸ ht) hfront
    simp only [Phase.isFilling, Bool.false_eq_true, if_false, if_true] at hstayed ⊢
    rw [hsequence, hstayed, UInt64.add_zero]
  · intro t ht hfront
    have hcame := h.came t (hqueue ▸ ht) hfront
    simp only [Phase.isFilling, Bool.false_eq_true, if_false, if_true] at hcame ⊢
    rw [hsequence, UInt64.add_assoc, UInt64.add_comm 1, ← UInt64.add_assoc, hcame, UInt64.add_zero]

/-- The store was not asked about the tables behind the current one, nor is it by asking about that
one. -/
theorem waiting_of_asked (h : StayAccount front start p as c) (htables : c.queue = t :: ts)
    (ha : a.table? = some t) : ∀ u ∈ ts, front ≠ some u ∧ ∀ b ∈ as ++ [a], b.table? ≠ some u := by
  intro u hu
  obtain ⟨hfront, hasked⟩ := h.waiting u (by rw [htables]; exact hu)
  refine ⟨hfront, fun b hb => ?_⟩
  rcases List.mem_append.1 hb with hb | hb
  · exact hasked b hb
  · obtain rfl := List.mem_singleton.1 hb
    rw [ha]
    rintro ⟨⟩
    exact (List.nodup_cons.1 (htables ▸ h.once)).1 hu

/-- The store is asked about the current table. A query that finds rows makes the chunk that was
started one of its own. -/
theorem asked (h : StayAccount front start p as c) (htables : c.queue = t :: ts)
    (ha : a.table? = some t) (hqueue : c'.queue = c.queue) (hsequence : c'.sequence = c.sequence)
    (hcount : (if p.isFilling then 1 else 0 : UInt64) =
      .ofNat (chunksOf t [a]) + if q.isFilling then 1 else 0) :
    StayAccount front start q (as ++ [a]) c' := by
  have hhead {u : Table} (hu : c'.queue.head? = some u) : t = u := by
    rw [hqueue, htables] at hu
    exact Option.some.inj hu
  constructor
  · exact hqueue ▸ h.once
  · exact fun hnil => absurd (htables.symm.trans (hqueue ▸ hnil)) (List.cons_ne_nil t ts)
  · intro u hu
    rw [hqueue, htables] at hu
    exact h.waiting_of_asked htables ha u hu
  · intro u hu hfront
    obtain rfl := hhead hu
    rw [hsequence, h.stayed t (hqueue ▸ hu) hfront, hcount, chunksOf_append, UInt64.ofNat_add]
    ac_rfl
  · intro u hu hfront
    obtain rfl := hhead hu
    have hothers : asksOthers t [a] = false := asksOthers_eq_false fun b hb u hu => by
      obtain rfl := List.mem_singleton.1 hb
      exact Option.some.inj (hu.symm.trans ha)
    rw [hsequence, asksOthers_append, hothers, Bool.or_false, h.came t (hqueue ▸ hu) hfront, hcount,
      chunksOf_append, UInt64.ofNat_add, UInt64.add_assoc]

/-- The current table has no rows left. The chunk that was started for it is not counted for the
table that comes next, which the store was not asked about so far. -/
theorem finished (h : StayAccount front start .filling as c) (htables : c.queue = t :: ts)
    (ha : a.table? = some t) (hqueue : c'.queue = ts) (hsequence : c'.sequence = 0) :
    StayAccount front start .filling (as ++ [a]) c' := by
  have hnodup := List.nodup_cons.1 (htables ▸ h.once)
  have hwaiting := h.waiting_of_asked htables ha
  constructor
  · exact hqueue ▸ hnodup.2
  · exact fun _ => hsequence
  · exact fun u hu => hwaiting u (List.mem_of_mem_tail (hqueue ▸ hu))
  · intro u hu hfront
    exact absurd hfront (hwaiting u (List.mem_of_mem_head? (hqueue ▸ hu))).1
  · intro u hu _
    have hmem : u ∈ ts := List.mem_of_mem_head? (hqueue ▸ hu)
    have hne : t ≠ u := fun heq => hnodup.1 (heq ▸ hmem)
    have hothers : asksOthers u (as ++ [a]) = true := by
      rw [asksOthers_append, Bool.or_eq_true]
      exact .inr (by simp [asksOthers, ha, hne])
    rw [hothers, chunksOf_eq_zero (hwaiting u hmem).2, hsequence]
    rfl

theorem served (h : StayAccount front start .filling as c) (hqueue : c.queue = []) :
    StayAccount front start .filled as c := by
  refine ⟨h.once, h.ended, h.waiting, fun t ht => ?_, fun t ht => ?_⟩
  · exact absurd ht (by simp [hqueue])
  · exact absurd ht (by simp [hqueue])

theorem move {s s' : Session (Recorded σ)} (h : Move env.recorded p s q s')
    (hs : StayAccount front start p as s.coordinator) :
    ∃ bs, s'.journal = s.journal ++ bs ∧ StayAccount front start q (as ++ bs) s'.coordinator := by
  have hqueue {c : Coordinator} {r : Run} (hr : c.run = some r) : c.queue = r.tables := by
    rw [Coordinator.queue, hr]
    rfl
  have hfinished (now : Int64) {c : Coordinator} {r : Run} {t : Table} {ts : List Table}
      (hr : c.run = some r) (ht : r.tables = t :: ts) :
      ((c.updateRun fun r => r.nextTable now).count .tableCompleted).queue = ts ∧
        ((c.updateRun fun r => r.nextTable now).count .tableCompleted).sequence = 0 := by
    simp [Coordinator.queue, Coordinator.sequence, Coordinator.updateRun, Coordinator.count, hr,
      Run.nextTable, Run.touch, ht]
  -- What is neither a question about a table nor the start of a chunk.
  have hplain (f : Run → Run) (bs : List (Answer σ)) (hjournal : s'.journal = s.journal ++ bs)
      (hrun : s'.coordinator.run = s.coordinator.run.map f)
      (htables : ∀ r, (f r).tables = r.tables)
      (hsequence : ∀ r, (f r).chunk.sequence = r.chunk.sequence)
      (hphase : q.isFilling = p.isFilling) (hbs : ∀ a ∈ bs, a.table? = none) :
      ∃ bs, s'.journal = s.journal ++ bs ∧ StayAccount front start q (as ++ bs) s'.coordinator :=
    ⟨bs, hjournal, hs.of_run f hrun htables hsequence hphase hbs⟩
  cases h with
  | sent emit =>
    obtain ⟨v, -, rfl⟩ := recorded_emit_eq_ok.1 emit
    exact hplain (fun r => r.recordSent _) _ rfl rfl (fun _ => rfl) (fun _ => rfl) rfl
      (List.forall_mem_singleton.2 rfl)
  | allSent | declined stays =>
    exact hplain id [] (List.append_nil _).symm (congrFun Option.map_id _).symm (fun _ => rfl)
      (fun _ => rfl) rfl (List.forall_mem_nil _)
  | @began c w w₁ w₂ w₃ w₄ low reads commit positions commit' begins =>
    obtain ⟨v₁, v₂, rfl, rfl⟩ := recorded_opening commit positions commit' begins
    obtain ⟨r, hr, hreads⟩ := (Option.any_eq_true _ _).1 reads
    have hne : c.queue ≠ [] := by
      rw [hqueue hr]
      simpa [Run.isRunning] using (Bool.and_eq_true_iff.1 hreads).1
    refine ⟨[.committed, .positions low, .committed, .began], by simp [Session.journal],
      (hs.began hne ?_ ?_).of_eq rfl rfl rfl (by simp [Answer.table?])⟩
    · exact Coordinator.queue_of_run (fun r => (r.startChunk _).setLow low) (Option.map_map ..)
        fun _ => rfl
    · simp [Coordinator.sequence, Coordinator.updateRun, Coordinator.count, hr, Run.startChunk,
        Run.setLow, Run.touch]
  | @measured c w w' r t ts k run tables unknown maximum =>
    obtain ⟨v, -, rfl⟩ := recorded_maximum_eq_ok.1 maximum
    refine ⟨_, rfl, hs.asked ((hqueue run).trans tables) rfl ?_ ?_ rfl⟩
    · exact Coordinator.queue_of_run (fun r => r.setMaximum k) rfl fun _ => rfl
    · exact Coordinator.sequence_of_run (fun r => r.setMaximum k) rfl fun _ => rfl
  | @vacant c w w' r t ts run tables unknown maximum =>
    obtain ⟨v, -, rfl⟩ := recorded_maximum_eq_ok.1 maximum
    obtain ⟨hnext, hsequence⟩ := hfinished (env.now v) run tables
    exact ⟨_, rfl, hs.finished ((hqueue run).trans tables) rfl hnext hsequence⟩
  | @exhausted c w w' r t ts run tables known query =>
    obtain ⟨v, -, rfl⟩ := recorded_query_eq_ok.1 query
    obtain ⟨hnext, hsequence⟩ := hfinished (env.now v) run tables
    exact ⟨_, rfl, hs.finished ((hqueue run).trans tables) rfl hnext hsequence⟩
  | @buffered c w w' r t ts rows run tables known found query =>
    obtain ⟨v, -, rfl⟩ := recorded_query_eq_ok.1 query
    refine ⟨_, rfl, hs.asked ((hqueue run).trans tables) rfl (c.queue_bufferRows t rows)
      (c.sequence_bufferRows t rows) ?_⟩
    simp [Phase.isFilling, chunksOf, Answer.query?, Coordinator.chunkQuery]
  | served run tables =>
    exact ⟨[], (List.append_nil _).symm, by
      rw [List.append_nil]
      exact hs.served ((hqueue run).trans tables)⟩
  | kept running positions clear =>
    obtain ⟨v, -, rfl⟩ := recorded_positions_eq_ok.1 positions
    exact hplain (fun r => r.setHigh _) _ rfl rfl (fun _ => rfl) (fun _ => rfl) rfl
      (List.forall_mem_singleton.2 rfl)
  | reverted running positions ambiguous held =>
    obtain ⟨v, -, rfl⟩ := recorded_positions_eq_ok.1 positions
    exact hplain (fun r => (r.setHigh _).revertChunk) _ rfl (Option.map_map ..) (fun _ => rfl)
      (fun _ => rfl) rfl (List.forall_mem_singleton.2 rfl)
  | @completed c w ended =>
    exact hplain (fun r => r.closeWindow _) [] (List.append_nil _).symm rfl (fun _ => rfl)
      (fun _ => rfl) rfl (List.forall_mem_nil _)

theorem moves {s s' : Session (Recorded σ)} (h : Moves env.recorded p s q s')
    (hs : StayAccount front start p as s.coordinator) :
    ∃ bs, s'.journal = s.journal ++ bs ∧ StayAccount front start q (as ++ bs) s'.coordinator := by
  induction h generalizing as with
  | refl => exact ⟨[], (List.append_nil _).symm, (List.append_nil as).symm ▸ hs⟩
  | step first _ ih =>
    obtain ⟨bs, hbs, hs⟩ := move first hs
    obtain ⟨cs, hcs, hs⟩ := ih hs
    exact ⟨bs ++ cs, by rw [hcs, hbs, List.append_assoc], List.append_assoc as bs cs ▸ hs⟩

/-- Another table became current, and no chunk of it was started. -/
theorem anew (hphase : p.isFilling = false) (honce : c.queue.Nodup) (hsequence : c.sequence = 0)
    (hfront : ∀ t ∈ c.queue, front ≠ some t) :
    StayAccount front start p ([] : List (Answer σ)) c := by
  refine ⟨honce, fun _ => hsequence, fun u hu => ⟨hfront u (List.mem_of_mem_tail hu),
    List.forall_mem_nil _⟩, fun t ht heq => ?_, fun t _ _ => ?_⟩
  · exact absurd heq (hfront t (List.mem_of_mem_head? ht))
  · simp [hphase, chunksOf, asksOthers, hsequence]

end StayAccount

/-- What holds of the queue and of the sequence number when nothing is being done. -/
structure Coordinator.Resets (c : Coordinator) : Prop where
  once : c.queue.Nodup
  ended : c.queue = [] → c.sequence = 0

namespace Coordinator.Resets
variable {c c' : Coordinator}

/-- The current table is the one it was, and no chunk is being read. -/
theorem kept {p : Phase} (hs : c.Resets) (hphase : p.isFilling = false) (honce : c'.queue.Nodup)
    (hhead : c'.queue.head? = c.queue.head?) (hsequence : c'.sequence = c.sequence) :
    StayAccount c.queue.head? c.sequence p ([] : List (Answer σ)) c' := by
  refine ⟨honce, fun hnil => ?_, fun u hu => ⟨?_, List.forall_mem_nil _⟩, fun t _ _ => ?_,
    fun t ht hne => ?_⟩
  · have hnone : c.queue.head? = none := by rw [← hhead, hnil]; rfl
    exact hsequence.trans (hs.ended (List.head?_eq_none_iff.1 hnone))
  · rw [← hhead]
    cases hqueue : c'.queue with
    | nil => exact absurd hu (by simp [hqueue])
    | cons t ts =>
      rintro ⟨⟩
      rw [hqueue] at hu honce
      exact (List.nodup_cons.1 honce).1 hu
  · simp [hphase, chunksOf, hsequence]
  · exact absurd (hhead ▸ ht) hne

theorem stopTables (hs : c.Resets) (now : Int64) (tables : List Table) :
    StayAccount c.queue.head? c.sequence .idle ([] : List (Answer σ)) (c.stopTables now tables) := by
  have honce := c.nodup_stopTables hs.once now tables
  rcases c.stopTables_cases now tables with ⟨heq, -⟩ | ⟨r, hr, -, ⟨-, heq⟩ | ⟨-, hcur, heq⟩ |
    ⟨-, hcur, heq⟩⟩ <;> rw [heq] at honce ⊢
  · exact hs.kept rfl honce rfl rfl
  · exact .anew rfl honce rfl (List.forall_mem_nil _)
  · have hchunk : (r.removeTables now tables).chunk = {} := by
      simp [Run.removeTables, Run.touch, hcur]
    refine .anew rfl honce (congrArg ChunkProgress.sequence hchunk) fun t ht hfront => ?_
    obtain ⟨u, hu, hmem⟩ := (Option.any_eq_true _ _).1 hcur
    have hcurrent : r.currentTable = some t := by
      rw [head?_queue, currentTable, hr] at hfront
      exact hfront
    obtain rfl := Option.some.inj (hu.symm.trans hcurrent)
    have hleft := (List.mem_filter.1 ht).2
    simp only [decide_eq_true_eq] at hmem hleft
    exact hleft hmem
  · obtain ⟨hchunk, hcurrent⟩ := Run.removeTables_of_stays hcur now
    refine hs.kept rfl honce ?_ ?_
    · rw [head?_queue, head?_queue, currentTable, currentTable, hr]
      exact hcurrent
    · rw [sequence, sequence, hr]
      exact congrArg ChunkProgress.sequence hchunk

end Coordinator.Resets

theorem Enters.stayAccount {st : Stage} {p : Phase} {s s' : Session (Recorded σ)}
    (h : Enters env.recorded st s p s') (hstart : ∀ rounds r, st ≠ .start rounds (some r))
    (hs : s.coordinator.Resets) : ∃ bs, s'.journal = s.journal ++ bs ∧
      StayAccount s.coordinator.queue.head? s.coordinator.sequence p bs s'.coordinator := by
  have honce := h.nodup_queue (fun rounds r heq => absurd heq (hstart rounds r)) hs.once
  have hkept (f : Run → Run) (hphase : p.isFilling = false) (hjournal : s'.journal = s.journal)
      (hrun : s'.coordinator.run = s.coordinator.run.map f) (htables : ∀ r, (f r).tables = r.tables)
      (hsequence : ∀ r, (f r).chunk.sequence = r.chunk.sequence) :
      ∃ bs, s'.journal = s.journal ++ bs ∧
        StayAccount s.coordinator.queue.head? s.coordinator.sequence p bs s'.coordinator :=
    ⟨[], by rw [hjournal, List.append_nil], hs.kept hphase honce
      (congrArg List.head? (Coordinator.queue_of_run f hrun htables))
      (Coordinator.sequence_of_run f hrun hsequence)⟩
  cases h with
  | fresh version accepted positions =>
    obtain ⟨x, -, rfl⟩ := recorded_version_eq_ok.1 version
    obtain ⟨y, -, rfl⟩ := recorded_positions_eq_ok.1 positions
    exact ⟨_, rfl, .answered (.anew rfl honce rfl (List.forall_mem_nil _)) rfl⟩
  | @restored rounds _ _ _ _ _ _ r => exact absurd rfl (hstart rounds r)
  | enqueued | taken | unpaused stays | unreached stays =>
    exact hkept id rfl rfl (congrFun Option.map_id _).symm (fun _ => rfl) fun _ => rfl
  | @added rounds tables filters c w r run running =>
    obtain ⟨new, filters', heq⟩ := r.addTables_eq (env.recorded.now w) tables filters
    have hne : r.tables ≠ [] := by simpa [Run.isRunning] using running
    obtain ⟨t, ts, htables⟩ := List.exists_cons_of_ne_nil hne
    refine ⟨[], (List.append_nil _).symm, hs.kept rfl honce ?_ ?_⟩
    · simp [Coordinator.queue, run, heq, htables]
    · simp [Coordinator.sequence, run, heq]
  | @begun rounds tables filters c w r run ended =>
    obtain ⟨new, filters', heq⟩ := r.addTables_eq (env.recorded.now w) tables filters
    have hqueue : c.queue = [] := c.queue_of_not_running (by simp [Coordinator.isRunning, run, ended])
    have hsequence : r.chunk.sequence = 0 := by
      have hended := hs.ended hqueue
      rwa [Coordinator.sequence, run] at hended
    refine ⟨[], (List.append_nil _).symm, .anew rfl honce ?_ fun t _ => ?_⟩
    · simpa [Coordinator.sequence, heq] using hsequence
    · simp [hqueue]
  | stopped => exact ⟨[], (List.append_nil _).symm, hs.stopTables _ _⟩
  | paused => exact hkept (fun r => { r with paused := true }) rfl rfl rfl (fun _ => rfl) fun _ => rfl
  | pending run pending | resumed run free =>
    refine hkept (fun r => { r with paused := false }) rfl rfl ?_ (fun _ => rfl) fun _ => rfl
    simp only [run, Option.map_some]
  | @noted cmd c w =>
    exact hkept (fun r => { r with commandOffset := some cmd.offset }) rfl rfl rfl (fun _ => rfl)
      fun _ => rfl
  | @placed rounds e c w stays =>
    exact hkept _ rfl rfl (c.moveTo_run e) (fun _ => rfl) fun _ => rfl
  | @closed rounds e c w closes | @reached rounds e c w reached =>
    have hphase : ((c.closeWindow (env.recorded.now w)).flushing e.partition e.offset).1.isFilling =
        false := by
      rcases (c.closeWindow (env.recorded.now w)).flushing_phase e.partition e.offset with
        hp | ⟨t, -, hp⟩ <;> rw [hp] <;> rfl
    refine hkept (fun r => r.closeWindow (env.recorded.now w)) hphase rfl ?_ (fun _ => rfl) fun _ => rfl
    rw [Coordinator.flushing_coordinator]
    rfl
  | @passed e change c w w' emit =>
    obtain ⟨v, -, rfl⟩ := recorded_emit_eq_ok.1 emit
    exact ⟨_, rfl, .answered (hs.kept rfl hs.once rfl rfl) rfl⟩

/-- A stage counts the chunks of the table that is current after it: those of the whole stage if the
table was current before, and otherwise those since it became current, apart from one that was started
for another table. -/
theorem countsChunks_of_perform {st : Stage} {s s' : Session (Recorded σ)} {u : Unit}
    (h : st.perform env.recorded s = .ok u s') (hstart : ∀ rounds r, st ≠ .start rounds (some r))
    (hs : s.coordinator.Resets) : s'.coordinator.Resets ∧ ∃ answers,
      s'.journal = s.journal ++ answers ∧ ∀ t, s'.coordinator.currentTable = some t →
        (s.coordinator.currentTable = some t →
          s'.coordinator.sequence = s.coordinator.sequence + .ofNat (chunksOf t answers)) ∧
        (s.coordinator.currentTable ≠ some t →
          s'.coordinator.sequence + (if asksOthers t answers then 1 else 0) =
            .ofNat (chunksOf t answers)) := by
  obtain ⟨p, s₁, henter, hmoves⟩ := perform_enters h
  obtain ⟨as, has, hentered⟩ := henter.stayAccount hstart hs
  obtain ⟨bs, hbs, hfinal⟩ := hentered.moves hmoves
  refine ⟨⟨hfinal.once, hfinal.ended⟩, as ++ bs, by rw [hbs, has, List.append_assoc], fun t ht => ?_⟩
  rw [← Coordinator.head?_queue] at ht ⊢
  have hstayed := hfinal.stayed t ht
  have hcame := hfinal.came t ht
  simp only [Phase.isFilling, Bool.false_eq_true, if_false, UInt64.add_zero] at hstayed hcame
  exact ⟨hstayed, hcame⟩

/-- How long a table has been current: since the stage that led from the session `u` to the session
`v` and until now. -/
inductive Stay (env : Environment σ) (t : Table) (s : Session σ) :
    List Stage → Session σ → Session σ → Session σ → Prop
  | came {sts : List Stage} {st : Stage} {u v : Session σ}
      (before : Stage.performAll env sts s = .ok () u) (stage : st.perform env u = .ok () v)
      (absent : u.coordinator.currentTable ≠ some t)
      (present : v.coordinator.currentTable = some t) : Stay env t s (sts ++ [st]) u v v
  | stayed {sts : List Stage} {st : Stage} {u v x y : Session σ} (stay : Stay env t s sts u v x)
      (stage : st.perform env x = .ok () y)
      (present : y.coordinator.currentTable = some t) : Stay env t s (sts ++ [st]) u v y

/-- What the sequence number of the current table counts. During the stay of the table, the store was
asked for so many of its chunks; one of them is left out if the store was asked about other tables in
the stage in which the table became current. -/
def CountsChunks (env : Environment σ) (s : Session (Recorded σ)) (sts : List Stage)
    (s' : Session (Recorded σ)) : Prop :=
  ∀ t, s'.coordinator.currentTable = some t → ∃ u v coming later,
    Stay env.recorded t s sts u v s' ∧ v.journal = u.journal ++ coming ∧
      s'.journal = v.journal ++ later ∧
      s'.coordinator.sequence + (if asksOthers t coming then 1 else 0) =
        .ofNat (chunksOf t (coming ++ later))

theorem countsChunks_of_performAll {sts : List Stage} {s s' : Session (Recorded σ)}
    (h : Stage.performAll env.recorded sts s = .ok () s') (hrun : s.coordinator.run = none)
    (hstart : ∀ st ∈ sts, ∀ rounds r, st ≠ .start rounds (some r)) :
    s'.coordinator.Resets ∧ CountsChunks env s sts s' := by
  induction sts using List.reverseRecOn generalizing s' with
  | nil =>
    obtain rfl := each_nil_eq_ok.1 h
    have hqueue : s.coordinator.queue = [] := by simp [Coordinator.queue, hrun]
    have hsequence : s.coordinator.sequence = 0 := by simp [Coordinator.sequence, hrun]
    refine ⟨⟨by simp [hqueue], fun _ => hsequence⟩, fun t ht => ?_⟩
    rw [← Coordinator.head?_queue, hqueue] at ht
    cases ht
  | append_singleton sts st ih =>
    obtain ⟨x, hbefore, hlast⟩ := each_append_eq_ok.1 h
    obtain ⟨y, hst, hnil⟩ := each_cons_eq_ok.1 hlast
    obtain rfl := each_nil_eq_ok.1 hnil
    obtain ⟨hx, hcounts⟩ := ih hbefore fun st' hst' => hstart st' (List.mem_append_left _ hst')
    obtain ⟨hy, answers, hanswers, hcount⟩ :=
      countsChunks_of_perform hst (hstart st (by simp)) hx
    refine ⟨hy, fun t ht => ?_⟩
    obtain ⟨hstayed, hcame⟩ := hcount t ht
    by_cases hcurrent : x.coordinator.currentTable = some t
    · obtain ⟨u, v, coming, later, hstay, hcoming, hlater, hsequence⟩ := hcounts t hcurrent
      refine ⟨u, v, coming, later ++ answers, .stayed hstay hst ht, hcoming,
        by rw [hanswers, hlater, List.append_assoc], ?_⟩
      rw [hstayed hcurrent, ← List.append_assoc, chunksOf_append, UInt64.ofNat_add, ← hsequence]
      ac_rfl
    · refine ⟨x, y, answers, [], .came hbefore hst hcurrent ht, hanswers,
        (List.append_nil _).symm, ?_⟩
      rw [List.append_nil]
      exact hcame hcurrent

theorem Unfolds.starts_anew {reqs : List Request} {sts : List Stage} {s s' : Session σ}
    (h : Unfolds env s reqs sts s') (anew : ∀ req ∈ reqs, ∀ rounds r, req ≠ .start rounds (some r)) :
    ∀ st ∈ sts, ∀ rounds r, st ≠ .start rounds (some r) := by
  induction h with
  | nil => exact fun _ hst => absurd hst List.not_mem_nil
  | @cons s t u req reqs sts windows req_ok done rest ih =>
    intro st hst rounds r heq
    rcases List.mem_append.1 hst with hst | hst
    · exact anew req List.mem_cons_self rounds r (Request.of_start_mem_stages (heq ▸ hst))
    · exact ih (fun req hreq => anew req (List.mem_cons_of_mem _ hreq)) st hst rounds r heq

/-- The sequence number of the current table after requests to a new coordinator that all end well
and take up no run. Rows in the buffer are those of the current table. Since the table became current,
the store was asked for as many of its chunks as the number says; but if the table was reached while a
chunk was read, since tables before it had no rows left, then the number is smaller by one. -/
theorem performAll_countsChunks {settings : Settings} {commands : Option CommandQueue}
    {w : Recorded σ} {reqs : List Request} {s' : Session (Recorded σ)}
    (h : Request.performAll env.recorded reqs ⟨{ settings, commands }, w⟩ = .ok () s')
    (anew : ∀ req ∈ reqs, ∀ rounds r, req ≠ .start rounds (some r)) :
    (s'.coordinator.buffer.rows ≠ [] → ∃ t, s'.coordinator.currentTable = some t ∧
      s'.coordinator.bufferTable = some t) ∧
    ∃ sts, Unfolds env.recorded ⟨{ settings, commands }, w⟩ reqs sts s' ∧
      CountsChunks env ⟨{ settings, commands }, w⟩ sts s' := by
  constructor
  · intro hheld
    have hserved : Served env.recorded (fun _ => True) s' :=
      (Served.fresh settings commands w).performAll (fun _ _ _ _ _ => trivial) h
    obtain ⟨⟨r, t, ts, hr, htables, htable⟩, -⟩ := hserved.consistent.rows hheld
    exact ⟨t, by simp [Coordinator.currentTable, Run.currentTable, hr, htables], htable⟩
  · obtain ⟨sts, hunfolds⟩ := performAll_unfolds h
    exact ⟨sts, hunfolds,
      (countsChunks_of_performAll hunfolds.performs rfl (hunfolds.starts_anew anew)).2⟩

namespace Rehearsal

theorem twoTables_countsChunks : ∃ s',
    Request.performAll environment.recorded
      [.start 9 none, .add 9 [⟨"d", "a"⟩, ⟨"d", "b"⟩] .empty] (twoTables [upTo 5]) = .ok () s' ∧
    s'.coordinator.buffer.rows ≠ [] ∧ s'.coordinator.sequence = 1 ∧
    ∃ sts, Unfolds environment.recorded (twoTables [upTo 5])
        [.start 9 none, .add 9 [⟨"d", "a"⟩, ⟨"d", "b"⟩] .empty] sts s' ∧
      CountsChunks environment (twoTables [upTo 5]) sts s' := by
  obtain ⟨s', h, hends⟩ := exists_of_endsIn
    (x := Request.performAll environment.recorded
      [.start 9 none, .add 9 [⟨"d", "a"⟩, ⟨"d", "b"⟩] .empty])
    (s := twoTables [upTo 5])
    (p := fun s => !s.coordinator.buffer.rows.isEmpty && s.coordinator.sequence = 1)
    (by decide +kernel)
  simp only [Bool.and_eq_true, Bool.not_eq_true', decide_eq_true_eq] at hends
  exact ⟨s', h, by simpa using hends.1, hends.2, (performAll_countsChunks h (by simp)).2⟩

/-- A unit past the watermarks closes the window of the first table, which has no rows left. The second
table is reached in the same chunk. Its row is held, and one query was made for it, but its number is
zero. -/
theorem twoTables_undercounted : ∃ s',
    Request.performAll environment.recorded
      [.start 9 none, .add 9 [⟨"d", "a"⟩, ⟨"d", "b"⟩] .empty,
        .process 9 (unit 6 .begin)] (twoTables [upTo 5]) = .ok () s' ∧
    s'.coordinator.buffer.rows ≠ [] ∧ s'.coordinator.currentTable = some ⟨"d", "b"⟩ ∧
    chunksOf ⟨"d", "b"⟩ s'.journal = 1 ∧ s'.coordinator.sequence = 0 := by
  obtain ⟨s', h, hends⟩ := exists_of_endsIn
    (x := Request.performAll environment.recorded
      [.start 9 none, .add 9 [⟨"d", "a"⟩, ⟨"d", "b"⟩] .empty,
        .process 9 (unit 6 .begin)])
    (s := twoTables [upTo 5])
    (p := fun s => !s.coordinator.buffer.rows.isEmpty &&
      s.coordinator.currentTable = some ⟨"d", "b"⟩ && chunksOf ⟨"d", "b"⟩ s.journal = 1 &&
      s.coordinator.sequence = 0)
    (by decide +kernel)
  simp only [Bool.and_eq_true, Bool.not_eq_true', decide_eq_true_eq] at hends
  obtain ⟨⟨⟨hheld, hcurrent⟩, hchunks⟩, hsequence⟩ := hends
  exact ⟨s', h, by simpa using hheld, hcurrent, hchunks, hsequence⟩

end Rehearsal
end Backfill
