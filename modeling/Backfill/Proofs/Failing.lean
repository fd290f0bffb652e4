import Backfill.Proofs.Request

/-! How an operation fails. It fails at a call of the world, or because it is asked to stop, and
everything up to there is done: the stages before, the beginning of the stage in which it fails, and
a walk of moves. `Breaks` lists the points at which a reading can end in this way, and `Fails` those
at which a stage can. -/
namespace Backfill
open Procedure Session
variable {σ : Type} {env : Environment σ}

/-- Whether the low watermark is not captured, or the transaction for the reading not begun. -/
inductive Environment.FailsOpening (env : Environment σ) : σ → Failure → σ → Prop
  | positions {w f w'} (positions : env.executedPositions w = (.error f, w')) :
      FailsOpening env w f w'
  | commit {w low w₁ f w'} (positions : env.executedPositions w = (.ok low, w₁))
      (commit : env.commit w₁ = (.error f, w')) : FailsOpening env w f w'
  | begin {w low w₁ w₂ f w'} (positions : env.executedPositions w = (.ok low, w₁))
      (commit : env.commit w₁ = (.ok (), w₂)) (begins : env.beginRead w₂ = (.error f, w')) :
      FailsOpening env w f w'

/-- A move of a reading that is not made, and what is left of the session. -/
inductive Breaks (env : Environment σ) : Phase → Session σ → Failure → Session σ → Prop
  | unsent {p t o n row rows c w f w'} (emit : env.emit ⟨p, t, row.record, o⟩ w = (.error f, w')) :
      Breaks env (.sending p t o n (row :: rows)) ⟨c, w⟩ f ⟨c, w'⟩
  | stayed {s} (asked : env.isInterrupted s.world = true) : Breaks env .due s .interrupted s
  | uncommitted {c w f w'} (reads : c.mayRead = true) (commit : env.commit w = (.error f, w')) :
      Breaks env .due ⟨c, w⟩ f ⟨c, w'⟩
  | unopened {c w w₁ f w'} (reads : c.mayRead = true) (commit : env.commit w = (.ok (), w₁))
      (opens : env.FailsOpening w₁ f w') :
      Breaks env .due ⟨c, w⟩ f ⟨c.updateRun fun r => r.startChunk (env.now w₁), w'⟩
  | stopped {s} (asked : env.isInterrupted s.world = true) : Breaks env .filling s .interrupted s
  | unmeasured {c w f w' r t ts} (run : c.run = some r) (tables : r.tables = t :: ts)
      (unknown : r.chunk.maximum = none) (maximum : env.maximumKey t w = (.error f, w')) :
      Breaks env .filling ⟨c, w⟩ f ⟨c, w'⟩
  | unanswered {c w f w' r t ts} (run : c.run = some r) (tables : r.tables = t :: ts)
      (known : r.chunk.maximum.isSome) (query : env.rangeQuery (c.chunkQuery t) w = (.error f, w')) :
      Breaks env .filling ⟨c, w⟩ f ⟨c, w'⟩
  | uncaptured {c w f w'} (running : c.isRunning = true)
      (positions : env.executedPositions w = (.error f, w')) : Breaks env .filled ⟨c, w⟩ f ⟨c, w'⟩

def BreaksOff (env : Environment σ) (p : Phase) (s : Session σ) (f : Failure) (s' : Session σ) :
    Prop :=
  ∃ q t, Moves env p s q t ∧ Breaks env q t f s'

namespace BreaksOff
variable {p q : Phase} {s t s' : Session σ} {f : Failure}

theorem of_breaks (h : Breaks env p s f s') : BreaksOff env p s f s' := ⟨p, s, .refl, h⟩

theorem of_moves (h : Moves env p s q t) (h' : BreaksOff env q t f s') : BreaksOff env p s f s' := by
  obtain ⟨q', t', hmoves, hbreaks⟩ := h'
  exact ⟨q', t', h.trans hmoves, hbreaks⟩

end BreaksOff

theorem emitRows_breaks {p : Partition} {t : Table} {o : Offset} {n : Nat} {rows : List Row}
    {s s' : Session σ} {f : Failure} (h : emitRows env p t o rows s = .error (.failed f) s') :
    BreaksOff env (.sending p t o n rows) s f s' := by
  induction rows generalizing s with
  | nil => exact absurd h pure_ne_error
  | cons row rows ih =>
    simp only [emitRows, bind_eq_error, call_eq_error, call_eq_ok, updateRun_ne_error,
      updateRun_eq_ok, false_or, Stop.failed.injEq] at h
    rcases h with ⟨g, w, hemit, rfl, rfl⟩ | ⟨_, _, ⟨w, hemit, rfl⟩, _, _, rfl, h⟩
    · exact .of_breaks (.unsent hemit)
    · exact .of_moves (.one (.sent hemit)) (ih h)

/-- The sending of a closed window's rows fails before it begins, or at one of the rows. -/
theorem sendBuffer_breaks {p : Partition} {o : Offset} {s s' : Session σ} {f : Failure}
    (h : sendBuffer env p o s = .error (.failed f) s') :
    (env.isInterrupted s.world = true ∧ f = .interrupted ∧ s' = s) ∨
      BreaksOff env (s.coordinator.flushing p o).1 ⟨(s.coordinator.flushing p o).2, s.world⟩ f s' := by
  simp only [sendBuffer, bind_eq_error, checkInterrupted_eq_error, checkInterrupted_eq_ok,
    current_ne_error, current_eq_ok, false_or, Stop.failed.injEq] at h
  rcases h with ⟨hasked, rfl, rfl⟩ | ⟨_, _, ⟨-, rfl⟩, _, _, ⟨rfl, rfl⟩, h⟩
  · exact .inl ⟨hasked, rfl, rfl⟩
  · refine .inr ?_
    unfold Coordinator.flushing
    split at h
    · exact absurd h pure_ne_error
    · rename_i he
      simp only [bind_eq_error, update_ne_error, update_eq_ok, false_or] at h
      obtain ⟨_, _, rfl, h⟩ := h
      cases ht : s.coordinator.tableOfBuffer with
      | none =>
        rw [ht] at h
        exact absurd h pure_ne_error
      | some t =>
        simp only [ht, bind_eq_error, count_ne_error, and_false, exists_false, or_false] at h
        simpa [he, ht] using emitRows_breaks h

theorem findMaximum_breaks {s s' : Session σ} {r : Run} {t : Table} {ts : List Table} {f : Failure}
    (hr : s.coordinator.run = some r) (ht : r.tables = t :: ts)
    (h : findMaximum env t s = .error (.failed f) s') : Breaks env .filling s f s' := by
  simp only [findMaximum, bind_eq_error, current_ne_error, current_eq_ok, false_or] at h
  obtain ⟨_, _, ⟨rfl, rfl⟩, h⟩ := h
  split at h
  · exact absurd h pure_ne_error
  · rename_i hm
    have hnone : r.chunk.maximum = none := by simpa [hr] using hm
    simp only [bind_eq_error, call_eq_error, call_eq_ok, Stop.failed.injEq] at h
    rcases h with ⟨g, w, hmax, rfl, rfl⟩ | ⟨k, _, ⟨w, hmax, rfl⟩, h⟩
    · exact .unmeasured hr ht hnone hmax
    · cases k with
      | none => exact absurd h pure_ne_error
      | some k =>
        simp only [bind_eq_error, updateRun_ne_error, pure_ne_error, and_false, exists_false,
          or_false] at h

theorem fillFrom_breaks {ts : List Table} {s s' : Session σ} {r : Run} {f : Failure}
    (hr : s.coordinator.run = some r) (ht : r.tables = ts)
    (h : fillFrom env ts s = .error (.failed f) s') : BreaksOff env .filling s f s' := by
  induction ts generalizing s r with
  | nil =>
    simp only [fillFrom, checkInterrupted_eq_error, Stop.failed.injEq] at h
    obtain ⟨hasked, rfl, rfl⟩ := h
    exact .of_breaks (.stopped hasked)
  | cons t ts ih =>
    -- once the table is found to be over, the rest of the queue is the rest of the list
    have next {c : Coordinator} {w : σ} {r' : Run} (hr' : c.run = some r')
        (ht' : r'.tables = t :: ts) (hfill : (do finishTable env; fillFrom env ts) ⟨c, w⟩ =
          .error (.failed f) s') : BreaksOff env .filling
          ⟨(c.updateRun fun r => r.nextTable (env.now w)).count .tableCompleted, w⟩ f s' := by
      simp only [finishTable, bind_eq_error, bind_eq_ok, now_ne_error, now_eq_ok,
        updateRun_ne_error, updateRun_eq_ok, count_ne_error, count_eq_ok, false_or, and_false,
        exists_false] at hfill
      obtain ⟨_, _, ⟨_, _, ⟨rfl, rfl⟩, _, _, rfl, rfl⟩, hfill⟩ := hfill
      refine ih (r := r'.nextTable (env.now w)) ?_ ?_ hfill
      · simp [Coordinator.updateRun, Coordinator.count, hr']
      · simp [Run.nextTable, Run.touch, ht']
    simp only [fillFrom, bind_eq_error, checkInterrupted_eq_error, checkInterrupted_eq_ok,
      Stop.failed.injEq] at h
    rcases h with ⟨hasked, rfl, rfl⟩ | ⟨_, _, ⟨-, rfl⟩, hmax | ⟨b, s₁, hmax, h⟩⟩
    · exact .of_breaks (.stopped hasked)
    · exact .of_breaks (findMaximum_breaks hr ht hmax)
    · rcases findMaximum_moves hr ht hmax with ⟨rfl, r', hr', ht', hm, hmoves⟩ | ⟨rfl, hm, hc, hw⟩
      · refine .of_moves hmoves ?_
        simp only [if_true, bind_eq_error, current_ne_error, current_eq_ok, call_eq_error,
          call_eq_ok, false_or, Stop.failed.injEq] at h
        obtain ⟨_, _, ⟨rfl, rfl⟩, ⟨g, w, hw, rfl, rfl⟩ | ⟨rows, _, ⟨w, hw, rfl⟩, h⟩⟩ := h
        · exact .of_breaks (.unanswered hr' ht' hm hw)
        · cases rows with
          | nil =>
            refine .of_moves (.one (.exhausted hr' ht' hm hw)) (next hr' ht' ?_)
            simpa only [bind_eq_error] using h
          | cons row rows => exact absurd h update_ne_error
      · simp only [Bool.false_eq_true, if_false] at h
        obtain ⟨c₁, w₁⟩ := s₁
        obtain rfl : c₁ = s.coordinator := hc
        exact .of_moves (.one (.vacant hr ht hm hw)) (next hr ht h)

theorem closeChunk_breaks {s s' : Session σ} {f : Failure}
    (h : closeChunk env s = .error (.failed f) s') : Breaks env .filled s f s' := by
  simp only [closeChunk, bind_eq_error, current_ne_error, current_eq_ok, false_or] at h
  obtain ⟨_, _, ⟨rfl, rfl⟩, h⟩ := h
  split at h
  · rename_i hrun
    simp only [bind_eq_error, call_eq_error, Stop.failed.injEq] at h
    rcases h with ⟨g, w, hw, rfl, rfl⟩ | ⟨executed, t, -, h⟩
    · exact .uncaptured hrun hw
    · simp only [updateRun_ne_error, current_ne_error, false_or] at h
      obtain ⟨_, _, -, _, _, -, h⟩ := h
      split at h
      · simp only [bind_eq_error, update_ne_error, pure_ne_error, and_false, exists_false,
          or_false] at h
      · exact absurd h pure_ne_error
  · simp only [bind_eq_error, now_ne_error, updateRun_ne_error, pure_ne_error, and_false,
      exists_false, or_false] at h

theorem readOnce_breaks {s s' : Session σ} {f : Failure} (hread : s.coordinator.mayRead = true)
    (h : readOnce env s = .error (.failed f) s') : BreaksOff env .due s f s' := by
  simp only [readOnce, bind_eq_error, call_eq_error, call_eq_ok, now_ne_error, now_eq_ok,
    updateRun_ne_error, updateRun_eq_ok, false_or, Stop.failed.injEq] at h
  rcases h with ⟨g, w, hw, rfl, rfl⟩ | ⟨_, _, ⟨w₁, h₁, rfl⟩, _, _, ⟨rfl, rfl⟩, _, _, rfl, h⟩
  · exact .of_breaks (.uncommitted hread hw)
  rcases h with hopen | ⟨_, s₁, hopen, h⟩
  · simp only [openWindow, bind_eq_error, call_eq_error, call_eq_ok, updateRun_ne_error,
      count_ne_error, and_false, exists_false, or_false, Stop.failed.injEq] at hopen
    rcases hopen with ⟨g, w, hw, rfl, rfl⟩ | ⟨low, _, ⟨w₂, h₂, rfl⟩, hopen⟩
    · exact .of_breaks (.unopened hread h₁ (.positions hw))
    rcases hopen with ⟨g, w, hw, rfl, rfl⟩ | ⟨_, _, ⟨w₃, h₃, rfl⟩, g, w, hw, rfl, rfl⟩
    · exact .of_breaks (.unopened hread h₁ (.commit h₂ hw))
    · exact .of_breaks (.unopened hread h₁ (.begin h₂ h₃ hw))
  simp only [openWindow, bind_eq_ok, call_eq_ok, updateRun_eq_ok, count_eq_ok] at hopen
  obtain ⟨low, _, ⟨w₂, h₂, rfl⟩, _, _, ⟨w₃, h₃, rfl⟩, _, _, ⟨w₄, h₄, rfl⟩, _, _, rfl, rfl⟩ := hopen
  refine .of_moves (.one (.began hread h₁ h₂ h₃ h₄)) ?_
  obtain ⟨r, hr, -⟩ := (Option.any_eq_true _ _).1 hread
  have hrun : (((s.coordinator.updateRun fun r => r.startChunk (env.now w₁)).updateRun
      fun r => r.setLow low).count .windowOpened).run =
        some ((r.startChunk (env.now w₁)).setLow low) := by
    simp [Coordinator.updateRun, Coordinator.count, hr]
  simp only [fillBuffer, bind_eq_error, bind_eq_ok, current_ne_error, current_eq_ok, false_or] at h
  rcases h with ⟨_, _, ⟨rfl, rfl⟩, hfill⟩ | ⟨_, s₂, ⟨_, _, ⟨rfl, rfl⟩, hfill⟩, hclose⟩
  · refine fillFrom_breaks hrun ?_ hfill
    simp [hrun]
  · refine .of_moves (fillFrom_moves hrun ?_ hfill) (.of_breaks (closeChunk_breaks hclose))
    simp [hrun]

theorem readChunk_breaks {rounds : Nat} {s s' : Session σ} {f : Failure}
    (h : readChunk env rounds s = .error (.failed f) s') : BreaksOff env .due s f s' := by
  induction rounds generalizing s with
  | zero =>
    simp only [readChunk, bind_eq_error, checkInterrupted_eq_error, checkInterrupted_eq_ok,
      current_ne_error, current_eq_ok, false_or, Stop.failed.injEq] at h
    rcases h with ⟨hasked, rfl, rfl⟩ | ⟨_, _, ⟨-, rfl⟩, _, _, ⟨rfl, rfl⟩, h⟩
    · exact .of_breaks (.stayed hasked)
    · split at h
      · simp [throw_eq_error] at h
      · exact absurd h pure_ne_error
  | succ rounds ih =>
    simp only [readChunk, bind_eq_error, checkInterrupted_eq_error, checkInterrupted_eq_ok,
      current_ne_error, current_eq_ok, false_or, Stop.failed.injEq] at h
    rcases h with ⟨hasked, rfl, rfl⟩ | ⟨_, _, ⟨-, rfl⟩, _, _, ⟨rfl, rfl⟩, h⟩
    · exact .of_breaks (.stayed hasked)
    · split at h
      · rename_i hread
        simp only [bind_eq_error] at h
        rcases h with honce | ⟨b, s₁, honce, h⟩
        · exact readOnce_breaks hread honce
        · cases b with
          | true => exact .of_moves (readOnce_moves hread honce) (ih h)
          | false => exact absurd h pure_ne_error
      · exact absurd h pure_ne_error

theorem flushAndAdvance_breaks {rounds : Nat} {p : Partition} {o : Offset} {s s' : Session σ}
    {f : Failure} (h : flushAndAdvance env rounds p o s = .error (.failed f) s') :
    (env.isInterrupted s.world = true ∧ f = .interrupted ∧ s' = s) ∨
      BreaksOff env (s.coordinator.flushing p o).1 ⟨(s.coordinator.flushing p o).2, s.world⟩ f s' := by
  simp only [flushAndAdvance, bind_eq_error] at h
  rcases h with hsend | ⟨_, s₁, hsend, hread⟩
  · exact sendBuffer_breaks hsend
  · exact .inr (.of_moves (sendBuffer_moves hsend) (readChunk_breaks hread))

/-- A stage that fails, and what is left of the session. -/
inductive Fails (env : Environment σ) : Stage → Session σ → Failure → Session σ → Prop
  | unknown {rounds restored c w f w'} (version : env.serverVersion w = (.error f, w')) :
      Fails env (.start rounds restored) ⟨c, w⟩ f ⟨c, w'⟩
  | unsupported {rounds restored c w v f w'} (version : env.serverVersion w = (.ok v, w'))
      (refused : c.settings.checkServerVersion v = .error f) :
      Fails env (.start rounds restored) ⟨c, w⟩ f ⟨c, w'⟩
  | unlisted {rounds restored c w v w₁ f w'} (version : env.serverVersion w = (.ok v, w₁))
      (accepted : c.settings.checkServerVersion v = .ok ())
      (positions : env.executedPositions w₁ = (.error f, w')) :
      Fails env (.start rounds restored) ⟨c, w⟩ f ⟨c, w'⟩
  | absent {rounds tables filters s} (run : s.coordinator.run = none) :
      Fails env (.add rounds tables filters) s
        (.invalidState "snapshot context not initialized") s
  | unpassed {e change c w f w'}
      (emit : env.emit ⟨e.partition, change.table, change.record, e.offset⟩ w = (.error f, w')) :
      Fails env (.pass e change) ⟨c, w⟩ f ⟨c, w'⟩
  | placed {rounds e c w} (closes : (c.transition e).closes = true)
      (asked : env.isInterrupted w = true) :
      Fails env (.place rounds e) ⟨c, w⟩ .interrupted ⟨c.closeWindow (env.now w), w⟩
  | reached {rounds e c w} (reached : c.isReachedBy e.position = true)
      (asked : env.isInterrupted w = true) :
      Fails env (.close rounds e) ⟨c, w⟩ .interrupted ⟨c.closeWindow (env.now w), w⟩
  | broken {st s p t f s'} (enters : Enters env st s p t) (breaks : BreaksOff env p t f s') :
      Fails env st s f s'

private theorem start_fails {rounds : Nat} {restored : Option Run} {s s' : Session σ} {f : Failure}
    (h : Session.start env rounds restored s = .error (.failed f) s') :
    Fails env (.start rounds restored) s f s' := by
  obtain ⟨c, w⟩ := s
  simp only [Session.start, bind_eq_error, call_eq_error, call_eq_ok, current_ne_error,
    current_eq_ok, false_or, Stop.failed.injEq] at h
  rcases h with ⟨g, w', hv, rfl, rfl⟩ | ⟨v, _, ⟨w₁, hv, rfl⟩, _, _, ⟨rfl, rfl⟩, h⟩
  · exact .unknown hv
  cases ha : c.settings.checkServerVersion v with
  | error g =>
    simp only [ha, fail_eq_error, Stop.failed.injEq] at h
    obtain ⟨rfl, rfl⟩ := h
    exact .unsupported hv ha
  | ok =>
    simp only [ha, bind_eq_error, call_eq_error, call_eq_ok, now_ne_error, now_eq_ok, get_ne_error,
      get_eq_ok, update_ne_error, update_eq_ok, false_or, Stop.failed.injEq] at h
    rcases h with ⟨g, w', he, rfl, rfl⟩ | ⟨executed, _, ⟨w₂, he, rfl⟩, _, _, ⟨rfl, rfl⟩, _, _,
      ⟨rfl, rfl⟩, _, _, rfl, h⟩
    · exact .unlisted hv ha he
    cases restored with
    | none => simp [pure_ne_error] at h
    | some r =>
      refine .broken (.restored hv ha he) ?_
      simp only [Option.isSome_some, Bool.true_and] at h
      split at h
      · simp only [bind_eq_error, pure_ne_error, and_false, exists_false, or_false] at h
        exact readChunk_breaks h
      · exact absurd h pure_ne_error

private theorem add_fails {rounds : Nat} {tables : List Table} {filters : TextMap String}
    {s s' : Session σ} {f : Failure}
    (h : addTables env rounds tables filters s = .error (.failed f) s') :
    Fails env (.add rounds tables filters) s f s' := by
  simp only [addTables, bind_eq_error, current_ne_error, current_eq_ok, false_or] at h
  obtain ⟨_, _, ⟨rfl, rfl⟩, h⟩ := h
  cases hr : s.coordinator.run with
  | none =>
    simp only [hr, fail_eq_error, Stop.failed.injEq] at h
    obtain ⟨rfl, rfl⟩ := h
    exact .absent hr
  | some r =>
    simp only [hr, bind_eq_error, now_ne_error, now_eq_ok, updateRun_ne_error, updateRun_eq_ok,
      false_or] at h
    obtain ⟨_, _, ⟨rfl, rfl⟩, _, _, rfl, h⟩ := h
    rw [Coordinator.updateRun_of_some hr] at h
    split at h
    · rename_i hread
      simp only [Bool.and_eq_true, Bool.not_eq_true'] at hread
      exact .broken (.begun hr hread.1) (readChunk_breaks h)
    · exact absurd h pure_ne_error

private theorem resume_fails {rounds : Nat} {s s' : Session σ} {f : Failure}
    (h : Session.resume env rounds s = .error (.failed f) s') :
    Fails env (.resume rounds) s f s' := by
  simp only [Session.resume, bind_eq_error, current_ne_error, current_eq_ok, false_or] at h
  obtain ⟨_, _, ⟨rfl, rfl⟩, h⟩ := h
  cases hr : s.coordinator.run with
  | none =>
    rw [hr] at h
    exact absurd h pure_ne_error
  | some r =>
    simp only [hr] at h
    split at h
    · simp only [bind_eq_error, updateRun_ne_error, updateRun_eq_ok,
        Coordinator.updateRun_of_some hr, false_or] at h
      obtain ⟨_, _, rfl, h⟩ := h
      split at h
      · rename_i hw
        exact .broken (.resumed hr (Option.isNone_iff_eq_none.1 hw)) (readChunk_breaks h)
      · exact absurd h pure_ne_error
    · exact absurd h pure_ne_error

private theorem updateWindow_fails {rounds : Nat} {e : Event} {s s' : Session σ} {f : Failure}
    (h : updateWindow env rounds e s = .error (.failed f) s') : Fails env (.place rounds e) s f s' := by
  obtain ⟨c, w⟩ := s
  simp only [updateWindow, bind_eq_error, current_ne_error, current_eq_ok, false_or] at h
  obtain ⟨_, _, ⟨rfl, rfl⟩, h⟩ := h
  cases hr : c.run with
  | none =>
    rw [hr] at h
    exact absurd h pure_ne_error
  | some r =>
    simp only [hr, bind_eq_error, now_ne_error, now_eq_ok, updateRun_ne_error, updateRun_eq_ok,
      false_or] at h
    obtain ⟨_, _, ⟨rfl, rfl⟩, _, _, rfl, h⟩ := h
    rw [Coordinator.updateRun_of_some hr] at h
    cases hc : (r.transition e.position).closes with
    | false =>
      simp only [hc, Bool.false_eq_true, if_false] at h
      exact absurd h pure_ne_error
    | true =>
      have hcloses : (c.transition e).closes = true := by
        simpa [Coordinator.transition, hr] using hc
      simp only [hc, if_true, bind_eq_error, count_ne_error, count_eq_ok, pure_ne_error, Run.advance,
        false_or, and_false, exists_false, or_false] at h
      obtain ⟨_, _, rfl, h⟩ := h
      have hflush : flushAndAdvance env rounds e.partition e.offset
          ⟨c.closeWindow (env.now w), w⟩ = .error (.failed f) s' := by
        rw [Coordinator.closeWindow, Coordinator.updateRun_of_some hr]
        exact h
      rcases flushAndAdvance_breaks hflush with ⟨hasked, rfl, rfl⟩ | hbreaks
      · exact .placed hcloses hasked
      · exact .broken (.closed hcloses) hbreaks

private theorem place_fails {rounds : Nat} {e : Event} {s s' : Session σ} {f : Failure}
    (h : (Stage.place rounds e).perform env s = .error (.failed f) s') :
    Fails env (.place rounds e) s f s' := by
  cases hk : e.kind with
  | change change =>
    simp only [Stage.perform, hk, windowChange, bind_eq_error] at h
    rcases h with h | ⟨t, s₁, -, h⟩
    · exact updateWindow_fails h
    · split at h
      · exact absurd h update_ne_error
      · exact absurd h pure_ne_error
  | _ =>
    simp only [Stage.perform, hk, discard_eq_error] at h
    exact updateWindow_fails h

private theorem close_fails {rounds : Nat} {e : Event} {s s' : Session σ} {f : Failure}
    (h : (Stage.close rounds e).perform env s = .error (.failed f) s') :
    Fails env (.close rounds e) s f s' := by
  simp only [Stage.perform, bind_eq_error, current_ne_error, current_eq_ok, false_or] at h
  obtain ⟨_, _, ⟨rfl, rfl⟩, h⟩ := h
  split at h
  · rename_i hr
    simp only [bind_eq_error, now_ne_error, now_eq_ok, update_ne_error, update_eq_ok, false_or] at h
    obtain ⟨_, _, ⟨rfl, rfl⟩, _, _, rfl, h⟩ := h
    rcases flushAndAdvance_breaks h with ⟨hasked, rfl, rfl⟩ | hbreaks
    · exact .reached hr hasked
    · exact .broken (.reached hr) hbreaks
  · exact absurd h pure_ne_error

/-- A stage that fails does so at one of the listed points. -/
theorem perform_fails {st : Stage} {s s' : Session σ} {f : Failure}
    (h : st.perform env s = .error (.failed f) s') : Fails env st s f s' := by
  cases st with
  | start rounds restored => exact start_fails (discard_eq_error.1 h)
  | enqueue cmd => exact absurd h (update_ne_error (f := fun c => c.enqueue cmd))
  | take => exact absurd h (update_ne_error (f := Coordinator.takeCommands))
  | note cmd => exact absurd h (update_ne_error (f := fun c => c.note cmd))
  | add rounds tables filters => exact add_fails h
  | stop tables =>
    simp only [Stage.perform, Session.stop, bind_eq_error, now_ne_error, update_ne_error, and_false,
      exists_false, or_false] at h
  | pause => exact absurd h (update_ne_error (f := fun c => c.updateRun _))
  | resume rounds => exact resume_fails h
  | place rounds e => exact place_fails h
  | close rounds e => exact close_fails h
  | pass e change =>
    obtain ⟨c, w⟩ := s
    simp only [Stage.perform, passOn, call_eq_error, Stop.failed.injEq] at h
    obtain ⟨g, w', hw, rfl, rfl⟩ := h
    exact .unpassed hw

section Rows
variable {α : Type} {g : α → Procedure σ Unit} {s s' : Session σ} {e : Stop}

theorem each_cons_eq_error {x : α} {xs : List α} : each g (x :: xs) s = .error e s' ↔
    g x s = .error e s' ∨ ∃ t, g x s = .ok () t ∧ each g xs t = .error e s' := by
  rw [each, bind_eq_error]
  refine or_congr Iff.rfl ⟨?_, ?_⟩
  · rintro ⟨_, t, h⟩
    exact ⟨t, h⟩
  · rintro ⟨t, h⟩
    exact ⟨(), t, h⟩

theorem each_append_eq_error {xs ys : List α} : each g (xs ++ ys) s = .error e s' ↔
    each g xs s = .error e s' ∨ ∃ t, each g xs s = .ok () t ∧ each g ys t = .error e s' := by
  induction xs generalizing s with
  | nil =>
    simp only [List.nil_append, each_nil_eq_ok, exists_eq_left']
    exact ⟨.inr, fun h => h.resolve_left pure_ne_error⟩
  | cons x xs ih =>
    simp only [List.cons_append, each_cons_eq_error, each_cons_eq_ok, ih]
    constructor
    · rintro (h | ⟨t, hx, h | ⟨v, hxs, hys⟩⟩)
      · exact .inl (.inl h)
      · exact .inl (.inr ⟨t, hx, h⟩)
      · exact .inr ⟨v, ⟨t, hx, hxs⟩, hys⟩
    · rintro ((h | ⟨t, hx, h⟩) | ⟨v, ⟨t, hx, hxs⟩, hys⟩)
      · exact .inl h
      · exact .inr ⟨t, hx, .inl h⟩
      · exact .inr ⟨t, hx, .inr ⟨v, hxs, hys⟩⟩

/-- What is done one after the other stops at one of the things to do. -/
theorem exists_of_each_eq_error {xs : List α} (h : each g xs s = .error e s') :
    ∃ before x after t, xs = before ++ x :: after ∧ each g before s = .ok () t ∧
      g x t = .error e s' := by
  induction xs generalizing s with
  | nil => exact absurd h pure_ne_error
  | cons x xs ih =>
    rcases each_cons_eq_error.1 h with hx | ⟨t, hx, h⟩
    · exact ⟨[], x, xs, s, rfl, each_nil_eq_ok.2 rfl, hx⟩
    · obtain ⟨before, y, after, u, rfl, hbefore, hy⟩ := ih h
      exact ⟨x :: before, y, after, u, rfl, each_cons_eq_ok.2 ⟨t, hx, hbefore⟩, hy⟩

end Rows

section Stages
variable {rounds : Nat} {s s' : Session σ} {f : Failure}

theorem apply_failed {cmd : Command} (h : Session.apply env rounds cmd s = .error (.failed f) s') :
    Stage.performAll env (cmd.stages rounds) s = .error (.failed f) s' := by
  rw [Command.stages]
  refine each_cons_eq_error.2 (.inl ?_)
  cases hact : cmd.action <;>
  · simp only [Session.apply, hact, bind_eq_error, updateRun_ne_error, count_ne_error, and_false,
      exists_false, or_false] at h
    exact h

theorem applyAll_failed {cmds : List Command} (h : applyAll env rounds cmds s = .error (.failed f) s') :
    Stage.performAll env (cmds.flatMap (Command.stages rounds)) s = .error (.failed f) s' := by
  induction cmds generalizing s with
  | nil => exact absurd h pure_ne_error
  | cons cmd cmds ih =>
    simp only [applyAll, bind_eq_error] at h
    rw [List.flatMap_cons]
    refine each_append_eq_error.2 ?_
    rcases h with h | ⟨_, t, hcmd, h⟩
    · exact .inl (apply_failed h)
    · exact .inr ⟨t, apply_stages hcmd, ih h⟩

theorem applyPending_failed (h : applyPending env rounds s = .error (.failed f) s') :
    Stage.performAll env (.take :: s.coordinator.pending.flatMap (Command.stages rounds)) s =
      .error (.failed f) s' := by
  rw [applyPending_eq] at h
  exact each_cons_eq_error.2
    (.inr ⟨⟨s.coordinator.takeCommands, s.world⟩, rfl, applyAll_failed h⟩)

theorem advance_failed {e : Event} {n : Nat} (h : advance env rounds e n s = .error (.failed f) s') :
    ∃ m, Stage.performAll env (List.replicate m (.close rounds e)) s = .error (.failed f) s' := by
  induction n generalizing s with
  | zero =>
    simp only [advance, bind_eq_error, current_ne_error, current_eq_ok, false_or] at h
    obtain ⟨_, _, ⟨rfl, rfl⟩, h⟩ := h
    split at h
    · simp [throw_eq_error] at h
    · exact absurd h pure_ne_error
  | succ n ih =>
    simp only [advance, bind_eq_error, current_ne_error, current_eq_ok, false_or] at h
    obtain ⟨_, _, ⟨rfl, rfl⟩, h⟩ := h
    split at h
    · rename_i hr
      simp only [bind_eq_error, now_ne_error, now_eq_ok, updateRun_ne_error, updateRun_eq_ok,
        count_ne_error, count_eq_ok, false_or] at h
      obtain ⟨_, _, ⟨rfl, rfl⟩, _, _, rfl, _, _, rfl, h⟩ := h
      -- the stage that closes this window goes on just as the loop does
      have hstage : (Stage.close rounds e).perform env s = flushAndAdvance env rounds e.partition
          e.offset ⟨s.coordinator.closeWindow (env.now s.world), s.world⟩ := by
        change ((do
          if s.coordinator.isReachedBy e.position then
            let now ← now env
            update fun c => c.closeWindow now
            flushAndAdvance env rounds e.partition e.offset) : Procedure σ Unit) s = _
        rw [if_pos hr]
        rfl
      rcases h with h | ⟨_, t, hflush, h⟩
      · exact ⟨1, each_cons_eq_error.2 (.inl (hstage.trans h))⟩
      · obtain ⟨m, hm⟩ := ih h
        exact ⟨m + 1, each_cons_eq_error.2 (.inr ⟨t, hstage.trans hflush, hm⟩)⟩
    · exact absurd h pure_ne_error

/-- A coordinator with a run fails while it applies the commands in line, or in one of the stages
in which the unit is then taken. -/
theorem process_failed_of_started {e : Event} (hrun : s.coordinator.run.isNone = false)
    (h : Session.process env rounds e s = .error (.failed f) s') :
    applyPending env rounds s = .error (.failed f) s' ∨
    ∃ t n, applyPending env rounds s = .ok () t ∧
      Stage.performAll env (.place rounds e :: e.closeStages rounds n ++ e.passStages) t =
        .error (.failed f) s' := by
  simp only [Session.process, bind_eq_error, current_ne_error, current_eq_ok, false_or] at h
  obtain ⟨_, _, ⟨rfl, rfl⟩, h⟩ := h
  simp only [hrun, Bool.false_eq_true, if_false, bind_eq_error] at h
  rcases h with h | ⟨_, t, hpending, h⟩
  · exact .inl h
  refine .inr ⟨t, ?_⟩
  cases hk : e.kind with
  | change change =>
    simp only [hk, bind_eq_error] at h
    refine ⟨0, hpending, each_cons_eq_error.2 ?_⟩
    rcases h with h | ⟨_, t₁, h₁, h⟩
    · exact .inl (by simpa only [Stage.perform, hk] using h)
    · refine .inr ⟨t₁, by simpa only [Stage.perform, hk] using h₁, ?_⟩
      simp only [Event.closeStages, Event.passStages, hk]
      exact each_cons_eq_error.2 (.inl h)
  | heartbeat | commit =>
    simp only [hk, bind_eq_error, discard_eq_error, discard_eq_ok] at h
    rcases h with h | ⟨_, t₁, h₁, h⟩
    · refine ⟨0, hpending, each_cons_eq_error.2 (.inl ?_)⟩
      simpa only [Stage.perform, hk, discard_eq_error] using h
    · obtain ⟨m, hm⟩ := advance_failed h
      refine ⟨m, hpending, each_cons_eq_error.2 (.inr ⟨t₁, ?_, ?_⟩)⟩
      · simpa only [Stage.perform, hk, discard_eq_ok] using h₁
      · simp only [Event.closeStages, Event.passStages, hk]
        exact each_append_eq_error.2 (.inl hm)
  | filtered _ | begin =>
    simp only [hk] at h
    refine ⟨0, hpending, each_cons_eq_error.2 (.inl ?_)⟩
    simpa only [Stage.perform, hk] using h

/-- Before there is a run, only passing a unit on can fail. -/
theorem process_failed_of_fresh {e : Event} (hrun : s.coordinator.run.isNone = true)
    (h : Session.process env rounds e s = .error (.failed f) s') :
    Stage.performAll env e.passStages s = .error (.failed f) s' := by
  simp only [Session.process, bind_eq_error, current_ne_error, current_eq_ok, false_or] at h
  obtain ⟨_, _, ⟨rfl, rfl⟩, h⟩ := h
  simp only [hrun, if_true] at h
  cases hk : e.kind with
  | change change =>
    simp only [hk] at h
    simp only [Event.passStages, hk]
    exact each_cons_eq_error.2 (.inl h)
  | _ =>
    rw [hk] at h
    exact absurd h pure_ne_error

private theorem process_failed {e : Event} (h : Session.process env rounds e s = .error (.failed f) s') :
    ∃ n, Stage.performAll env ((Request.process rounds e).stages s.coordinator n) s =
      .error (.failed f) s' := by
  cases hrun : s.coordinator.run.isNone with
  | true =>
    simp only [Request.stages, hrun, if_true]
    exact ⟨0, process_failed_of_fresh hrun h⟩
  | false =>
    simp only [Request.stages, hrun, Bool.false_eq_true, if_false]
    rcases process_failed_of_started hrun h with h | ⟨t, n, hpending, h⟩
    · exact ⟨0, each_append_eq_error.2 (.inl (applyPending_failed h))⟩
    · exact ⟨n, each_append_eq_error.2 (.inr ⟨t, applyPending_stages hpending, h⟩)⟩

theorem performAll_stages_of_failed {req : Request} (h : req.perform env s = .error (.failed f) s') :
    ∃ n, Stage.performAll env (req.stages s.coordinator n) s = .error (.failed f) s' := by
  cases req with
  | apply rounds cmd => exact ⟨0, apply_failed h⟩
  | process rounds e => exact process_failed h
  | _ => exact ⟨0, each_cons_eq_error.2 (.inl h)⟩

end Stages

end Backfill
