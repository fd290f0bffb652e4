import Backfill.Proofs.Procedure

/-! Sending the rows of a closed window and reading the next chunk, as a walk through a few phases.
A move is one call of the world or one decision, and the moves listed here are all that can happen:
`flushAndAdvance_moves` and `readChunk_moves` lead every reading that ends well back to them. What
a reading keeps is then shown move by move. -/
namespace Backfill
open Procedure Session
variable {σ : Type} {env : Environment σ}

/-- How far a reading has come. -/
inductive Phase where
  /-- No rows are being sent and no chunk is being read. -/
  | idle
  /-- Of the `size` rows of a closed window, `rows` are still to be sent. -/
  | sending (p : Partition) (t : Table) (o : Offset) (size : Nat) (rows : List Row)
  /-- The next chunk is read if the run goes on. -/
  | due
  /-- The low watermark is captured, and the rows are looked for. -/
  | filling
  /-- The rows are in the buffer, or no table is left. -/
  | filled

/-- One move of a reading. -/
inductive Move (env : Environment σ) : Phase → Session σ → Phase → Session σ → Prop
  | sent {p t o n row rows c w w'} (emit : env.emit ⟨p, t, row.record, o⟩ w = (.ok (), w')) :
      Move env (.sending p t o n (row :: rows)) ⟨c, w⟩
        (.sending p t o n rows) ⟨c.updateRun fun r => r.recordSent row.key, w'⟩
  | allSent {p t o n c w} :
      Move env (.sending p t o n []) ⟨c, w⟩ .due ⟨c.count fun s => s.rowsSent (UInt64.ofNat n), w⟩
  | declined {s} (stays : s.coordinator.mayRead = false) : Move env .due s .idle s
  | began {c w w₁ w₂ w₃ w₄ low} (reads : c.mayRead = true)
      (commit : env.commit w = (.ok (), w₁))
      (positions : env.executedPositions w₁ = (.ok low, w₂))
      (commit' : env.commit w₂ = (.ok (), w₃)) (begins : env.beginRead w₃ = (.ok (), w₄)) :
      Move env .due ⟨c, w⟩ .filling
        ⟨((c.updateRun fun r => r.startChunk (env.now w₁)).updateRun fun r => r.setLow low).count
          .windowOpened, w₄⟩
  | measured {c w w' r t ts k} (run : c.run = some r) (tables : r.tables = t :: ts)
      (unknown : r.chunk.maximum = none) (maximum : env.maximumKey t w = (.ok (some k), w')) :
      Move env .filling ⟨c, w⟩ .filling ⟨c.updateRun fun r => r.setMaximum k, w'⟩
  | vacant {c w w' r t ts} (run : c.run = some r) (tables : r.tables = t :: ts)
      (unknown : r.chunk.maximum = none) (maximum : env.maximumKey t w = (.ok none, w')) :
      Move env .filling ⟨c, w⟩ .filling
        ⟨(c.updateRun fun r => r.nextTable (env.now w')).count .tableCompleted, w'⟩
  | exhausted {c w w' r t ts} (run : c.run = some r) (tables : r.tables = t :: ts)
      (known : r.chunk.maximum.isSome) (query : env.rangeQuery (c.chunkQuery t) w = (.ok [], w')) :
      Move env .filling ⟨c, w⟩ .filling
        ⟨(c.updateRun fun r => r.nextTable (env.now w')).count .tableCompleted, w'⟩
  | buffered {c w w' r t ts rows} (run : c.run = some r) (tables : r.tables = t :: ts)
      (known : r.chunk.maximum.isSome) (found : rows ≠ [])
      (query : env.rangeQuery (c.chunkQuery t) w = (.ok rows, w')) :
      Move env .filling ⟨c, w⟩ .filled ⟨c.bufferRows t rows, w'⟩
  | served {s r} (run : s.coordinator.run = some r) (tables : r.tables = []) :
      Move env .filling s .filled s
  | kept {c w w' executed} (running : c.isRunning = true)
      (positions : env.executedPositions w = (.ok executed, w'))
      (clear : ((c.updateRun fun r => r.setHigh executed).run.any fun r => r.watermarks.isAmbiguous)
        = true → c.buffer.isEmpty = true) :
      Move env .filled ⟨c, w⟩ .idle ⟨c.updateRun fun r => r.setHigh executed, w'⟩
  | reverted {c w w' executed} (running : c.isRunning = true)
      (positions : env.executedPositions w = (.ok executed, w'))
      (ambiguous : ((c.updateRun fun r => r.setHigh executed).run.any
        fun r => r.watermarks.isAmbiguous) = true) (held : c.buffer.isEmpty = false) :
      Move env .filled ⟨c, w⟩ .due
        ⟨(((c.updateRun fun r => r.setHigh executed).dropRows).updateRun Run.revertChunk).count
          .chunkReread, w'⟩
  | completed {c w} (ended : c.isRunning = false) :
      Move env .filled ⟨c, w⟩ .idle ⟨c.updateRun fun r => r.closeWindow (env.now w), w⟩

inductive Moves (env : Environment σ) : Phase → Session σ → Phase → Session σ → Prop
  | refl {p s} : Moves env p s p s
  | step {p s q t r u} (first : Move env p s q t) (rest : Moves env q t r u) : Moves env p s r u

namespace Moves

theorem trans {p q r : Phase} {s t u : Session σ} (h : Moves env p s q t) (h' : Moves env q t r u) :
    Moves env p s r u := by
  induction h with
  | refl => exact h'
  | step first _ ih => exact .step first (ih h')

theorem one {p q : Phase} {s t : Session σ} (h : Move env p s q t) : Moves env p s q t :=
  .step h .refl

theorem keeps {I : Phase → Session σ → Prop}
    (hstep : ∀ {p s q t}, Move env p s q t → I p s → I q t)
    {p q : Phase} {s t : Session σ} (h : Moves env p s q t) (hi : I p s) : I q t := by
  induction h with
  | refl => exact hi
  | step first _ ih => exact ih (hstep first hi)

end Moves

theorem emitRows_moves {p : Partition} {t : Table} {o : Offset} {n : Nat} {rows : List Row}
    {s s' : Session σ} {u : Unit} (h : emitRows env p t o rows s = .ok u s') :
    Moves env (.sending p t o n rows) s (.sending p t o n []) s' := by
  induction rows generalizing s with
  | nil =>
    rw [emitRows, pure_eq_ok] at h
    exact h.2 ▸ .refl
  | cons row rows ih =>
    simp only [emitRows, bind_eq_ok, call_eq_ok, updateRun_eq_ok] at h
    obtain ⟨_, _, ⟨w, hw, rfl⟩, _, _, rfl, h⟩ := h
    exact .step (.sent hw) (ih h)

def Coordinator.flushing (c : Coordinator) (p : Partition) (o : Offset) : Phase × Coordinator :=
  if c.buffer.isEmpty then (.due, c)
  else match c.tableOfBuffer with
    | none => (.due, c.dropRows)
    | some t => (.sending p t o.forSnapshot c.buffer.size c.buffer.rows, c.dropRows)

theorem sendBuffer_moves {p : Partition} {o : Offset} {s s' : Session σ} {u : Unit}
    (h : sendBuffer env p o s = .ok u s') :
    Moves env (s.coordinator.flushing p o).1 ⟨(s.coordinator.flushing p o).2, s.world⟩ .due s' := by
  simp only [sendBuffer, bind_eq_ok, checkInterrupted_eq_ok, current_eq_ok] at h
  obtain ⟨_, _, ⟨_, rfl⟩, _, _, ⟨rfl, rfl⟩, h⟩ := h
  unfold Coordinator.flushing
  split at h
  · rename_i he
    rw [pure_eq_ok] at h
    simpa [he] using h.2 ▸ Moves.refl
  · rename_i he
    simp only [bind_eq_ok, update_eq_ok] at h
    obtain ⟨_, _, rfl, h⟩ := h
    cases ht : s.coordinator.tableOfBuffer with
    | none =>
      simp only [ht, pure_eq_ok] at h
      simpa [he, ht] using h.2 ▸ Moves.refl
    | some t =>
      simp only [ht, bind_eq_ok, count_eq_ok] at h
      obtain ⟨_, _, hrows, rfl⟩ := h
      simpa [he, ht] using (emitRows_moves hrows).trans (.one .allSent)

/-- Finding out the largest key of the current table is one move, if it was unknown. If the table
has one, it is known afterwards. -/
theorem findMaximum_moves {s s' : Session σ} {r : Run} {t : Table} {ts : List Table} {b : Bool}
    (hr : s.coordinator.run = some r) (ht : r.tables = t :: ts)
    (h : findMaximum env t s = .ok b s') :
    (b = true ∧ ∃ r', s'.coordinator.run = some r' ∧ r'.tables = t :: ts ∧
      r'.chunk.maximum.isSome ∧ Moves env .filling s .filling s') ∨
    (b = false ∧ r.chunk.maximum = none ∧ s'.coordinator = s.coordinator ∧
      env.maximumKey t s.world = (.ok none, s'.world)) := by
  simp only [findMaximum, bind_eq_ok, current_eq_ok] at h
  obtain ⟨_, _, ⟨rfl, rfl⟩, h⟩ := h
  split at h
  · rename_i hm
    rw [pure_eq_ok] at h
    obtain ⟨rfl, rfl⟩ := h
    exact .inl ⟨rfl, r, hr, ht, by simpa [hr] using hm, .refl⟩
  · rename_i hm
    have hnone : r.chunk.maximum = none := by simpa [hr] using hm
    simp only [bind_eq_ok, call_eq_ok] at h
    obtain ⟨k, _, ⟨w, hw, rfl⟩, h⟩ := h
    cases k with
    | none =>
      simp only [pure_eq_ok] at h
      obtain ⟨rfl, rfl⟩ := h
      exact .inr ⟨rfl, hnone, rfl, hw⟩
    | some k =>
      simp only [bind_eq_ok, updateRun_eq_ok, pure_eq_ok] at h
      obtain ⟨_, _, rfl, rfl, rfl⟩ := h
      refine .inl ⟨rfl, r.setMaximum k, by simp [Coordinator.updateRun, hr], ht, rfl, ?_⟩
      exact .one (.measured hr ht hnone hw)

theorem finishTable_eq_ok {s s' : Session σ} {u : Unit} :
    finishTable env s = .ok u s' ↔
      s' = ⟨(s.coordinator.updateRun fun r => r.nextTable (env.now s.world)).count .tableCompleted,
        s.world⟩ := by
  simp only [finishTable, bind_eq_ok, now_eq_ok, updateRun_eq_ok, count_eq_ok]
  constructor
  · rintro ⟨_, _, ⟨rfl, rfl⟩, _, _, rfl, rfl⟩
    rfl
  · rintro rfl
    exact ⟨_, _, ⟨rfl, rfl⟩, (), _, rfl, rfl⟩

theorem fillFrom_moves {ts : List Table} {s s' : Session σ} {r : Run} {u : Unit}
    (hr : s.coordinator.run = some r) (ht : r.tables = ts) (h : fillFrom env ts s = .ok u s') :
    Moves env .filling s .filled s' := by
  induction ts generalizing s r with
  | nil =>
    rw [fillFrom, checkInterrupted_eq_ok] at h
    exact h.2 ▸ .one (.served hr ht)
  | cons t ts ih =>
    simp only [fillFrom, bind_eq_ok, checkInterrupted_eq_ok] at h
    obtain ⟨_, _, ⟨_, rfl⟩, b, s₁, hmax, h⟩ := h
    -- once the table is found to be over, the rest of the queue is the rest of the list
    have next {c : Coordinator} {w : σ} {r' : Run} (hr' : c.run = some r')
        (ht' : r'.tables = t :: ts)
        (hfill : fillFrom env ts
          ⟨(c.updateRun fun r => r.nextTable (env.now w)).count .tableCompleted, w⟩ = .ok u s') :
        Moves env .filling
          ⟨(c.updateRun fun r => r.nextTable (env.now w)).count .tableCompleted, w⟩ .filled s' := by
      refine ih (r := r'.nextTable (env.now w)) ?_ ?_ hfill
      · simp [Coordinator.updateRun, Coordinator.count, hr']
      · simp [Run.nextTable, Run.touch, ht']
    rcases findMaximum_moves hr ht hmax with ⟨rfl, r', hr', ht', hm, hmoves⟩ | ⟨rfl, hm, hc, hw⟩
    · simp only [if_true, bind_eq_ok, current_eq_ok, call_eq_ok] at h
      obtain ⟨_, _, ⟨rfl, rfl⟩, rows, _, ⟨w, hw, rfl⟩, h⟩ := h
      refine hmoves.trans ?_
      cases rows with
      | nil =>
        simp only [bind_eq_ok, finishTable_eq_ok] at h
        obtain ⟨_, _, rfl, h⟩ := h
        exact .step (.exhausted hr' ht' hm hw) (next hr' ht' h)
      | cons row rows =>
        simp only [update_eq_ok] at h
        subst h
        exact .one (.buffered hr' ht' hm (by simp) hw)
    · simp only [Bool.false_eq_true, if_false, bind_eq_ok, finishTable_eq_ok] at h
      obtain ⟨_, _, rfl, h⟩ := h
      rw [hc] at h
      exact .step (.vacant hr ht hm hw) (next hr ht h)

/-- The low watermark is captured first. A chunk that is read is then kept, which ends the reading,
or has to be read again. -/
theorem readOnce_began {s s' : Session σ} {b : Bool} (hread : s.coordinator.mayRead = true)
    (h : readOnce env s = .ok b s') : ∃ t, Move env .due s .filling t ∧
      Moves env .filling t (if b then .due else .idle) s' := by
  simp only [readOnce, openWindow, bind_eq_ok, call_eq_ok, now_eq_ok, updateRun_eq_ok,
    count_eq_ok] at h
  obtain ⟨_, _, ⟨w₁, h₁, rfl⟩, _, _, ⟨rfl, rfl⟩, _, _, rfl, _, s₁,
    ⟨low, _, ⟨w₂, h₂, rfl⟩, _, _, ⟨w₃, h₃, rfl⟩, _, _, ⟨w₄, h₄, rfl⟩, _, _, rfl, rfl⟩, h⟩ := h
  refine ⟨_, .began hread h₁ h₂ h₃ h₄, ?_⟩
  obtain ⟨r, hr, -⟩ := (Option.any_eq_true _ _).1 hread
  obtain ⟨_, s₂, hfill, hclose⟩ := h
  simp only [fillBuffer, bind_eq_ok, current_eq_ok] at hfill
  obtain ⟨_, _, ⟨rfl, rfl⟩, hfill⟩ := hfill
  refine (fillFrom_moves (r := (r.startChunk (env.now w₁)).setLow low) ?_ ?_ hfill).trans ?_
  · simp [Coordinator.updateRun, Coordinator.count, hr]
  · simp [Coordinator.updateRun, Coordinator.count, hr]
  · simp only [closeChunk, bind_eq_ok, current_eq_ok] at hclose
    obtain ⟨_, _, ⟨rfl, rfl⟩, hclose⟩ := hclose
    split at hclose
    · rename_i hrun
      simp only [bind_eq_ok, call_eq_ok, updateRun_eq_ok, current_eq_ok] at hclose
      obtain ⟨executed, _, ⟨w, hw, rfl⟩, _, _, rfl, _, _, ⟨rfl, rfl⟩, hclose⟩ := hclose
      split at hclose
      · rename_i hamb
        simp only [bind_eq_ok, update_eq_ok, pure_eq_ok] at hclose
        obtain ⟨_, _, rfl, rfl, rfl⟩ := hclose
        simp only [Bool.and_eq_true, Bool.not_eq_true'] at hamb
        exact .one (.reverted hrun hw hamb.1 hamb.2)
      · rename_i hamb
        simp only [pure_eq_ok] at hclose
        obtain ⟨rfl, rfl⟩ := hclose
        refine .one (.kept hrun hw fun ha => ?_)
        simp only [ha, Bool.true_and, Bool.not_eq_true', Bool.not_eq_false] at hamb
        exact hamb
    · rename_i hrun
      simp only [bind_eq_ok, now_eq_ok, updateRun_eq_ok, pure_eq_ok] at hclose
      obtain ⟨_, _, ⟨rfl, rfl⟩, _, _, rfl, rfl, rfl⟩ := hclose
      exact .one (.completed (by simpa using hrun))

theorem readOnce_moves {s s' : Session σ} {b : Bool} (hread : s.coordinator.mayRead = true)
    (h : readOnce env s = .ok b s') :
    Moves env .due s (if b then .due else .idle) s' := by
  obtain ⟨t, hfirst, hrest⟩ := readOnce_began hread h
  exact .step hfirst hrest

theorem readChunk_moves {rounds : Nat} {s s' : Session σ} {u : Unit}
    (h : readChunk env rounds s = .ok u s') : Moves env .due s .idle s' := by
  induction rounds generalizing s with
  | zero =>
    simp only [readChunk, bind_eq_ok, checkInterrupted_eq_ok, current_eq_ok] at h
    obtain ⟨_, _, ⟨_, rfl⟩, _, _, ⟨rfl, rfl⟩, h⟩ := h
    split at h
    · exact absurd h throw_ne_ok
    · rename_i hread
      exact (pure_eq_ok.1 h).2 ▸ .one (.declined (by simpa using hread))
  | succ rounds ih =>
    simp only [readChunk, bind_eq_ok, checkInterrupted_eq_ok, current_eq_ok] at h
    obtain ⟨_, _, ⟨_, rfl⟩, _, _, ⟨rfl, rfl⟩, h⟩ := h
    split at h
    · rename_i hread
      simp only [bind_eq_ok] at h
      obtain ⟨b, s₁, honce, h⟩ := h
      have hmoves := readOnce_moves hread honce
      cases b with
      | true => exact hmoves.trans (ih h)
      | false => exact (pure_eq_ok.1 h).2 ▸ hmoves
    · rename_i hread
      exact (pure_eq_ok.1 h).2 ▸ .one (.declined (by simpa using hread))

theorem flushAndAdvance_moves {rounds : Nat} {p : Partition} {o : Offset} {s s' : Session σ}
    {u : Unit} (h : flushAndAdvance env rounds p o s = .ok u s') :
    Moves env (s.coordinator.flushing p o).1 ⟨(s.coordinator.flushing p o).2, s.world⟩ .idle s' := by
  simp only [flushAndAdvance, bind_eq_ok] at h
  obtain ⟨_, _, hsend, hread⟩ := h
  exact (sendBuffer_moves hsend).trans (readChunk_moves hread)

end Backfill
