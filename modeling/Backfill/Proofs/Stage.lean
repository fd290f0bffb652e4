import Backfill.Proofs.Reading

/-! The operations of a coordinator, cut into stages. A stage makes one decision about the window,
the queue or a command; after it rows may be sent and a chunk may be read, and nothing else
happens before the next stage begins. `perform_enters` leads a stage back to how it begins, so that
what an operation keeps is shown for each beginning here and for each move of a reading. -/
namespace Backfill
open Procedure Session
variable {σ : Type} {env : Environment σ}

namespace Coordinator

def enqueue (c : Coordinator) (cmd : Command) : Coordinator :=
  { c with commands := c.commands.map fun q => (q.trySend cmd).toOption.getD q }

def takeCommands (c : Coordinator) : Coordinator :=
  { c with commands := c.commands.map CommandQueue.drained }

def note (c : Coordinator) (cmd : Command) : Coordinator :=
  (c.updateRun fun r => { r with commandOffset := some cmd.offset }).count .signalApplied

def closeWindow (c : Coordinator) (now : Int64) : Coordinator :=
  (c.updateRun fun r => r.closeWindow now).count .windowClosed

/-- What the position of a unit asks for. Before there is a run it asks for nothing. -/
def transition (c : Coordinator) (e : Event) : Transition :=
  (c.run.map fun r => r.transition e.position).getD ⟨.closed, []⟩

/-- The coordinator in the mode that the position of a unit leads to; a change that falls within
the window supersedes a buffered row. -/
def moveTo (c : Coordinator) (e : Event) : Coordinator :=
  let c' := c.updateRun fun r => { r with mode := (r.transition e.position).mode }
  match e.kind with
  | .change change => if (c.transition e).deduplicates then c'.deduplicate change else c'
  | _ => c'

end Coordinator

/-- A part of an operation. -/
inductive Stage where
  | start (rounds : Nat) (restored : Option Run)
  /-- A command is put in line. -/
  | enqueue (cmd : Command)
  /-- The commands in line are taken. -/
  | take
  | add (rounds : Nat) (tables : List Table) (filters : TextMap String)
  | stop (tables : List Table)
  | pause
  | resume (rounds : Nat)
  /-- The offset of an applied command is remembered. -/
  | note (cmd : Command)
  /-- The window moves to the position of a unit. -/
  | place (rounds : Nat) (e : Event)
  /-- A heartbeat or a commit closes a window whose end it has reached. -/
  | close (rounds : Nat) (e : Event)
  /-- A change is passed on. -/
  | pass (e : Event) (change : Change)

def Stage.perform (env : Environment σ) : Stage → Procedure σ Unit
  | .start rounds restored => discard (Session.start env rounds restored)
  | .enqueue cmd => update fun c => c.enqueue cmd
  | .take => update Coordinator.takeCommands
  | .add rounds tables filters => addTables env rounds tables filters
  | .stop tables => Session.stop env tables
  | .pause => Session.pause
  | .resume rounds => Session.resume env rounds
  | .note cmd => update fun c => c.note cmd
  | .place rounds e =>
    match e.kind with
    | .change change => windowChange env rounds e change
    | _ => discard (updateWindow env rounds e)
  | .close rounds e => do
    if (← current).isReachedBy e.position then
      let now ← now env
      update fun c => c.closeWindow now
      flushAndAdvance env rounds e.partition e.offset
  | .pass e change => passOn env e change

/-- How a stage begins, up to where rows are sent or a chunk is read. -/
inductive Enters (env : Environment σ) : Stage → Session σ → Phase → Session σ → Prop
  | fresh {rounds c w w₁ w₂ v executed} (version : env.serverVersion w = (.ok v, w₁))
      (accepted : c.settings.checkServerVersion v = .ok ())
      (positions : env.executedPositions w₁ = (.ok executed, w₂)) :
      Enters env (.start rounds none) ⟨c, w⟩ .idle
        ⟨{ c.dropWindow with run := some (Run.fresh (env.freshToken w₂) (env.now w₂)) }, w₂⟩
  | restored {rounds c w w₁ w₂ v executed r} (version : env.serverVersion w = (.ok v, w₁))
      (accepted : c.settings.checkServerVersion v = .ok ())
      (positions : env.executedPositions w₁ = (.ok executed, w₂)) :
      Enters env (.start rounds (some r)) ⟨c, w⟩ .due
        ⟨{ c.dropWindow with run := some (r.prepareResume (env.now w₂)) }, w₂⟩
  | enqueued {cmd c w} : Enters env (.enqueue cmd) ⟨c, w⟩ .idle ⟨c.enqueue cmd, w⟩
  | taken {c w} : Enters env .take ⟨c, w⟩ .idle ⟨c.takeCommands, w⟩
  | added {rounds tables filters c w r} (run : c.run = some r) (running : r.isRunning = true) :
      Enters env (.add rounds tables filters) ⟨c, w⟩ .idle
        ⟨{ c with run := some (r.addTables (env.now w) tables filters) }, w⟩
  | begun {rounds tables filters c w r} (run : c.run = some r) (ended : r.isRunning = false) :
      Enters env (.add rounds tables filters) ⟨c, w⟩ .due
        ⟨{ c with run := some (r.addTables (env.now w) tables filters) }, w⟩
  | stopped {tables c w} :
      Enters env (.stop tables) ⟨c, w⟩ .idle ⟨c.stopTables (env.now w) tables, w⟩
  | paused {c w} :
      Enters env .pause ⟨c, w⟩ .idle ⟨c.updateRun fun r => { r with paused := true }, w⟩
  | unpaused {rounds c w} (stays : c.run.any Run.paused = false) :
      Enters env (.resume rounds) ⟨c, w⟩ .idle ⟨c, w⟩
  | pending {rounds c w r} (run : c.run = some r) (pending : r.watermarks.high.isSome) :
      Enters env (.resume rounds) ⟨c, w⟩ .idle ⟨{ c with run := some { r with paused := false } }, w⟩
  | resumed {rounds c w r} (run : c.run = some r) (free : r.watermarks.high = none) :
      Enters env (.resume rounds) ⟨c, w⟩ .due ⟨{ c with run := some { r with paused := false } }, w⟩
  | noted {cmd c w} : Enters env (.note cmd) ⟨c, w⟩ .idle ⟨c.note cmd, w⟩
  | placed {rounds e c w} (stays : (c.transition e).closes = false) :
      Enters env (.place rounds e) ⟨c, w⟩ .idle ⟨c.moveTo e, w⟩
  | closed {rounds e c w} (closes : (c.transition e).closes = true) :
      Enters env (.place rounds e) ⟨c, w⟩
        ((c.closeWindow (env.now w)).flushing e.partition e.offset).1
        ⟨((c.closeWindow (env.now w)).flushing e.partition e.offset).2, w⟩
  | unreached {rounds e c w} (stays : c.isReachedBy e.position = false) :
      Enters env (.close rounds e) ⟨c, w⟩ .idle ⟨c, w⟩
  | reached {rounds e c w} (reached : c.isReachedBy e.position = true) :
      Enters env (.close rounds e) ⟨c, w⟩
        ((c.closeWindow (env.now w)).flushing e.partition e.offset).1
        ⟨((c.closeWindow (env.now w)).flushing e.partition e.offset).2, w⟩
  | passed {e change c w w'}
      (emit : env.emit ⟨e.partition, change.table, change.record, e.offset⟩ w = (.ok (), w')) :
      Enters env (.pass e change) ⟨c, w⟩ .idle ⟨c, w'⟩

private theorem start_enters {rounds : Nat} {restored : Option Run} {s s' : Session σ}
    {o : Option UInt64} (h : Session.start env rounds restored s = .ok o s') :
    ∃ p t, Enters env (.start rounds restored) s p t ∧ Moves env p t .idle s' := by
  simp only [Session.start, bind_eq_ok, call_eq_ok, current_eq_ok] at h
  obtain ⟨v, _, ⟨w₁, hv, rfl⟩, _, _, ⟨rfl, rfl⟩, h⟩ := h
  cases ha : s.coordinator.settings.checkServerVersion v with
  | error f =>
    rw [ha] at h
    exact absurd h throw_ne_ok
  | ok =>
    simp only [ha, bind_eq_ok, call_eq_ok, now_eq_ok, get_eq_ok, update_eq_ok] at h
    obtain ⟨executed, _, ⟨w₂, he, rfl⟩, _, _, ⟨rfl, rfl⟩, _, _, ⟨rfl, rfl⟩, _, _, rfl, h⟩ := h
    cases restored with
    | none =>
      simp only [Option.isSome_none, Bool.false_and, Bool.false_eq_true, if_false,
        pure_eq_ok] at h
      obtain ⟨-, rfl⟩ := h
      exact ⟨_, _, .fresh hv ha he, .refl⟩
    | some r =>
      refine ⟨_, _, .restored hv ha he, ?_⟩
      simp only [Option.isSome_some, Bool.true_and] at h
      split at h
      · simp only [bind_eq_ok, pure_eq_ok] at h
        obtain ⟨_, _, hread, -, rfl⟩ := h
        exact readChunk_moves hread
      · rename_i hread
        simp only [pure_eq_ok] at h
        obtain ⟨-, rfl⟩ := h
        exact .one (.declined (by simpa [Coordinator.mayRead] using hread))

private theorem add_enters {rounds : Nat} {tables : List Table} {filters : TextMap String}
    {s s' : Session σ} {u : Unit} (h : addTables env rounds tables filters s = .ok u s') :
    ∃ p t, Enters env (.add rounds tables filters) s p t ∧ Moves env p t .idle s' := by
  simp only [addTables, bind_eq_ok, current_eq_ok] at h
  obtain ⟨_, _, ⟨rfl, rfl⟩, h⟩ := h
  cases hr : s.coordinator.run with
  | none =>
    rw [hr] at h
    exact absurd h throw_ne_ok
  | some r =>
    simp only [hr, bind_eq_ok, now_eq_ok, updateRun_eq_ok] at h
    obtain ⟨_, _, ⟨rfl, rfl⟩, _, _, rfl, h⟩ := h
    rw [Coordinator.updateRun_of_some hr] at h
    cases hrun : r.isRunning with
    | true =>
      simp only [hrun, Bool.not_true, Bool.false_and, Bool.false_eq_true, if_false, pure_eq_ok] at h
      obtain ⟨-, rfl⟩ := h
      exact ⟨_, _, .added hr hrun, .refl⟩
    | false =>
      refine ⟨_, _, .begun hr hrun, ?_⟩
      split at h
      · exact readChunk_moves h
      · rename_i hread
        refine (pure_eq_ok.1 h).2 ▸ .one (.declined ?_)
        simp only [hrun, Bool.not_false, Bool.true_and, Bool.not_eq_true] at hread
        simp [Coordinator.mayRead, hread]

private theorem resume_enters {rounds : Nat} {s s' : Session σ} {u : Unit}
    (h : Session.resume env rounds s = .ok u s') :
    ∃ p t, Enters env (.resume rounds) s p t ∧ Moves env p t .idle s' := by
  simp only [Session.resume, bind_eq_ok, current_eq_ok] at h
  obtain ⟨_, _, ⟨rfl, rfl⟩, h⟩ := h
  cases hr : s.coordinator.run with
  | none =>
    simp only [hr, pure_eq_ok] at h
    exact ⟨_, _, .unpaused (by simp [hr]), h.2 ▸ .refl⟩
  | some r =>
    simp only [hr] at h
    split at h
    · simp only [bind_eq_ok, updateRun_eq_ok, Coordinator.updateRun_of_some hr] at h
      obtain ⟨_, _, rfl, h⟩ := h
      cases hw : r.watermarks.high with
      | none =>
        simp only [hw, Option.isNone_none, if_true] at h
        exact ⟨_, _, .resumed hr hw, readChunk_moves h⟩
      | some high =>
        simp only [hw, Option.isNone_some, Bool.false_eq_true, if_false, pure_eq_ok] at h
        exact ⟨_, _, .pending hr (by simp [hw]), h.2 ▸ .refl⟩
    · rename_i hp
      exact ⟨_, _, .unpaused (by simpa [hr] using hp), (pure_eq_ok.1 h).2 ▸ .refl⟩

theorem updateWindow_moves {rounds : Nat} {e : Event} {s s' : Session σ} {t : Transition}
    (h : updateWindow env rounds e s = .ok t s') :
    t = s.coordinator.transition e ∧
      (t.closes = false ∧ s' = ⟨s.coordinator.updateRun
          fun r => { r with mode := (r.transition e.position).mode }, s.world⟩ ∨
        t.closes = true ∧ Moves env
          ((s.coordinator.closeWindow (env.now s.world)).flushing e.partition e.offset).1
          ⟨((s.coordinator.closeWindow (env.now s.world)).flushing e.partition e.offset).2, s.world⟩
          .idle s') := by
  simp only [updateWindow, bind_eq_ok, current_eq_ok] at h
  obtain ⟨_, _, ⟨rfl, rfl⟩, h⟩ := h
  cases hr : s.coordinator.run with
  | none =>
    simp only [hr, pure_eq_ok] at h
    obtain ⟨rfl, rfl⟩ := h
    refine ⟨by simp [Coordinator.transition, hr], .inl ⟨rfl, ?_⟩⟩
    rw [Coordinator.updateRun_of_none hr]
  | some r =>
    have ht : s.coordinator.transition e = r.transition e.position := by
      simp [Coordinator.transition, hr]
    simp only [hr, bind_eq_ok, now_eq_ok, updateRun_eq_ok] at h
    obtain ⟨_, _, ⟨rfl, rfl⟩, _, _, rfl, h⟩ := h
    rw [Coordinator.updateRun_of_some hr] at h
    cases hc : (r.transition e.position).closes with
    | false =>
      simp only [hc, Bool.false_eq_true, if_false, pure_eq_ok, Run.advance] at h
      obtain ⟨rfl, rfl⟩ := h
      exact ⟨ht.symm, .inl ⟨hc, by rw [Coordinator.updateRun_of_some hr]⟩⟩
    | true =>
      simp only [hc, if_true, bind_eq_ok, count_eq_ok, pure_eq_ok, Run.advance] at h
      obtain ⟨_, _, rfl, _, _, h, rfl, rfl⟩ := h
      refine ⟨ht.symm, .inr ⟨hc, ?_⟩⟩
      rw [Coordinator.closeWindow, Coordinator.updateRun_of_some hr]
      exact flushAndAdvance_moves h

private theorem place_enters {rounds : Nat} {e : Event} {s s' : Session σ} {u : Unit}
    (h : (Stage.place rounds e).perform env s = .ok u s') :
    ∃ p t, Enters env (.place rounds e) s p t ∧ Moves env p t .idle s' := by
  have other {k : Transition} (hk : updateWindow env rounds e s = .ok k s')
      (hm : ∀ c : Coordinator, c.moveTo e =
        c.updateRun fun r => { r with mode := (r.transition e.position).mode }) :
      ∃ p t, Enters env (.place rounds e) s p t ∧ Moves env p t .idle s' := by
    obtain ⟨rfl, ⟨hc, rfl⟩ | ⟨hc, hmoves⟩⟩ := updateWindow_moves hk
    · exact ⟨_, _, hm s.coordinator ▸ .placed hc, .refl⟩
    · exact ⟨_, _, .closed hc, hmoves⟩
  cases hkind : e.kind with
  | change change =>
    simp only [Stage.perform, hkind, windowChange, bind_eq_ok] at h
    obtain ⟨k, _, hk, h⟩ := h
    obtain ⟨rfl, ⟨hc, rfl⟩ | ⟨hc, hmoves⟩⟩ := updateWindow_moves hk
    · refine ⟨_, _, .placed hc, ?_⟩
      simp only [hc, Bool.not_false, Bool.true_and] at h
      unfold Coordinator.moveTo
      simp only [hkind]
      split at h
      · rename_i hd
        rw [update_eq_ok] at h
        rw [if_pos hd, h]
        exact .refl
      · rename_i hd
        rw [if_neg hd, (pure_eq_ok.1 h).2]
        exact .refl
    · simp only [hc, Bool.not_true, Bool.false_and, Bool.false_eq_true, if_false, pure_eq_ok] at h
      exact ⟨_, _, .closed hc, h.2 ▸ hmoves⟩
  | _ =>
    simp only [Stage.perform, hkind, discard_eq_ok] at h
    obtain ⟨k, hk⟩ := h
    refine other hk fun c => ?_
    simp only [Coordinator.moveTo, hkind]

private theorem close_enters {rounds : Nat} {e : Event} {s s' : Session σ} {u : Unit}
    (h : (Stage.close rounds e).perform env s = .ok u s') :
    ∃ p t, Enters env (.close rounds e) s p t ∧ Moves env p t .idle s' := by
  simp only [Stage.perform, bind_eq_ok, current_eq_ok] at h
  obtain ⟨_, _, ⟨rfl, rfl⟩, h⟩ := h
  split at h
  · rename_i hr
    simp only [bind_eq_ok, now_eq_ok, update_eq_ok] at h
    obtain ⟨_, _, ⟨rfl, rfl⟩, _, _, rfl, h⟩ := h
    exact ⟨_, _, .reached hr, flushAndAdvance_moves h⟩
  · rename_i hr
    exact ⟨_, _, .unreached (by simpa using hr), (pure_eq_ok.1 h).2 ▸ .refl⟩

/-- What happens in a stage is its beginning and a walk of moves. -/
theorem perform_enters {st : Stage} {s s' : Session σ} {u : Unit}
    (h : st.perform env s = .ok u s') : ∃ p t, Enters env st s p t ∧ Moves env p t .idle s' := by
  cases st with
  | start rounds restored =>
    obtain ⟨_, h⟩ := discard_eq_ok.1 h
    exact start_enters h
  | enqueue cmd =>
    rw [Stage.perform, update_eq_ok] at h
    exact ⟨_, _, .enqueued, h ▸ .refl⟩
  | take =>
    rw [Stage.perform, update_eq_ok] at h
    exact ⟨_, _, .taken, h ▸ .refl⟩
  | add rounds tables filters => exact add_enters h
  | stop tables =>
    simp only [Stage.perform, Session.stop, bind_eq_ok, now_eq_ok, update_eq_ok] at h
    obtain ⟨_, _, ⟨rfl, rfl⟩, rfl⟩ := h
    exact ⟨_, _, .stopped, .refl⟩
  | pause =>
    rw [Stage.perform, Session.pause, updateRun_eq_ok] at h
    exact ⟨_, _, .paused, h ▸ .refl⟩
  | resume rounds => exact resume_enters h
  | note cmd =>
    rw [Stage.perform, update_eq_ok] at h
    exact ⟨_, _, .noted, h ▸ .refl⟩
  | place rounds e => exact place_enters h
  | close rounds e => exact close_enters h
  | pass e change =>
    simp only [Stage.perform, passOn, call_eq_ok] at h
    obtain ⟨w, hw, rfl⟩ := h
    exact ⟨_, _, .passed hw, .refl⟩

end Backfill
