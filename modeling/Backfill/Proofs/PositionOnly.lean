import Backfill.Proofs.FlushedRows

/-! Only its position lets a unit move the window. A change, a unit of another table and the beginning
of a transaction at one place in the stream have the same calls answered and leave the same run and
the same rows, apart from what a change adds itself: it may supersede the row with its key, and it
is passed on. -/
namespace Backfill
open Procedure Session Environment
variable {σ : Type} {env : Environment σ}

/-- Whether a unit also closes windows that are over, however many there are. -/
def Event.Kind.drains : Event.Kind → Bool
  | .heartbeat | .commit => true
  | _ => false

def Event.emission (e : Event) (change : Change) : Emission :=
  ⟨e.partition, change.table, change.record, e.offset⟩

def Session.supersede (asked : Transition) (change : Change) : Procedure σ Unit :=
  if !asked.closes && asked.deduplicates then update fun c => c.deduplicate change else return

def Event.proceed (env : Environment σ) (e : Event) (asked : Transition) : Procedure σ Unit :=
  match e.kind with
  | .change change => do
    supersede asked change
    passOn env e change
  | _ => return

theorem Event.proceed_of_change {e : Event} {change : Change} (h : e.kind = .change change)
    (asked : Transition) :
    e.proceed env asked = supersede asked change >>= fun _ => passOn env e change := by
  simp only [proceed, h]

theorem Event.proceed_of_not_change {e : Event} (h : ∀ change, e.kind ≠ .change change)
    (asked : Transition) : e.proceed env asked = pure () := by
  unfold proceed
  split
  · exact absurd ‹_› (h _)
  · rfl

/-- How a coordinator comes out of another one if a change supersedes a buffered row. No window has
closed since the session in which the unit was taken. -/
structure Change.Supersedes (change : Change) (s t : Session σ) (c : Coordinator) : Prop where
  table : t.coordinator.currentTable = some change.table
  held : t.coordinator.buffer.holds change.key = true
  unclosed : t.coordinator.statistics.windowsClosed = s.coordinator.statistics.windowsClosed
  eq : c = { t.coordinator with buffer := t.coordinator.buffer.erase change.key }.count
    .rowDeduplicated

/-- What a unit that was taken in one session comes to, from another one that its position led to. -/
inductive Event.Adds (env : Environment σ) (e : Event) (s t : Session (Recorded σ)) :
    EStateM.Result Stop (Session (Recorded σ)) Unit → Prop
  /-- A unit without a record adds nothing. -/
  | nothing (kind : ∀ change, e.kind ≠ .change change) : Adds env e s t (.ok () t)
  | passed {change c v} (kind : e.kind = .change change)
      (rows : c = t.coordinator ∨ change.Supersedes s t c)
      (emit : env.emit (e.emission change) t.world.world = (.ok (), v)) :
      Adds env e s t (.ok () ⟨c, v, t.journal ++ [.sent (e.emission change)]⟩)
  | refused {change c v f} (kind : e.kind = .change change)
      (rows : c = t.coordinator ∨ change.Supersedes s t c)
      (emit : env.emit (e.emission change) t.world.world = (.error f, v)) :
      Adds env e s t (.error (.failed f) ⟨c, v, t.journal⟩)

/-- Whether two units stop alike in a session, or come to what each of them adds itself to one and the
same session. -/
def Session.TakesAlike (env : Environment σ) (rounds : Nat) (s : Session (Recorded σ))
    (e e' : Event) : Prop :=
  (∃ stop t, Session.process env.recorded rounds e s = .error stop t ∧
    Session.process env.recorded rounds e' s = .error stop t) ∨
  ∃ t, e.Adds env s t (Session.process env.recorded rounds e s) ∧
    e'.Adds env s t (Session.process env.recorded rounds e' s)

/-- The window moves to the position of a unit, whatever else the unit tells. -/
theorem updateWindow_congr {rounds : Nat} {e e' : Event} (hpartition : e.partition = e'.partition)
    (hoffset : e.offset = e'.offset) : updateWindow env rounds e = updateWindow env rounds e' := by
  obtain ⟨p, o, k⟩ := e
  obtain ⟨p', o', k'⟩ := e'
  obtain rfl : p = p' := hpartition
  obtain rfl : o = o' := hoffset
  rfl

/-- A coordinator with a run applies the commands in line, moves the window and then does what the
unit asks for itself. -/
theorem process_eq_proceed {rounds : Nat} {e : Event} {s : Session σ}
    (hrun : s.coordinator.run.isNone = false) (hkind : e.kind.drains = false) :
    Session.process env rounds e s =
      ((applyPending env rounds >>= fun _ => updateWindow env rounds e) >>= e.proceed env) s := by
  have hstarted (x y : Procedure σ Unit) :
      ((current : Procedure σ Coordinator) >>= fun c => if c.run.isNone then x else y) s = y s := by
    rw [bind_of_ok (current_eq_ok.2 ⟨rfl, rfl⟩), if_neg (by simp [hrun])]
  rw [bind_assoc]
  unfold Session.process
  cases hk : e.kind with
  | change change =>
    have hproceed : e.proceed env = _ := funext (Event.proceed_of_change hk)
    rw [hproceed]
    simp only [hstarted, windowChange, bind_assoc]
    rfl
  | heartbeat | commit => simp [hk, Event.Kind.drains] at hkind
  | filtered _ | begin =>
    have hproceed : e.proceed env = _ := funext (Event.proceed_of_not_change (by simp [hk]))
    rw [hproceed]
    simp only [hstarted]
    rfl

/-- Sending rows and reading chunks closes no window by a position. -/
theorem windowsClosed_of_move {p q : Phase} {s t : Session σ} (h : Move env p s q t) :
    t.coordinator.statistics.windowsClosed = s.coordinator.statistics.windowsClosed := by
  cases h <;> rfl

def Stage.looks : Stage → Bool
  | .place .. | .close .. => true
  | _ => false

theorem windowsClosed_of_perform {st : Stage} {s s' : Session σ} {u : Unit}
    (h : st.perform env s = .ok u s') (hst : st.looks = false) :
    s'.coordinator.statistics.windowsClosed = s.coordinator.statistics.windowsClosed := by
  obtain ⟨p, t, henter, hmoves⟩ := perform_enters h
  refine hmoves.keeps (I := fun _ x =>
    x.coordinator.statistics.windowsClosed = s.coordinator.statistics.windowsClosed)
    (fun hmove hx => (windowsClosed_of_move hmove).trans hx) ?_
  cases henter with
  | placed stays | closed closes | reached reached => exact absurd hst Bool.noConfusion
  | @stopped tables c w =>
    rcases c.stopTables_cases (env.now w) tables with ⟨heq, -⟩ | ⟨r, -, -, ⟨-, heq⟩ | ⟨-, -, heq⟩ |
      ⟨-, -, heq⟩⟩ <;> exact congrArg (fun c => c.statistics.windowsClosed) heq
  | _ => rfl

theorem Command.not_looks_of_mem_stages {rounds : Nat} {cmd : Command} {st : Stage}
    (h : st ∈ cmd.stages rounds) : st.looks = false := by
  unfold stages at h
  rcases List.mem_cons.1 h with rfl | h
  · split <;> rfl
  · exact List.mem_singleton.1 h ▸ rfl

theorem windowsClosed_of_applyPending {rounds : Nat} {s s' : Session σ} {u : Unit}
    (h : applyPending env rounds s = .ok u s') :
    s'.coordinator.statistics.windowsClosed = s.coordinator.statistics.windowsClosed := by
  refine each_keeps (f := Stage.perform env) (I := fun x =>
    x.coordinator.statistics.windowsClosed = s.coordinator.statistics.windowsClosed)
    (fun st hst _ _ hperform hx => (windowsClosed_of_perform hperform ?_).trans hx)
    (applyPending_stages h) rfl
  rcases List.mem_cons.1 hst with rfl | hst
  · rfl
  · obtain ⟨cmd, -, hcmd⟩ := List.mem_flatMap.1 hst
    exact Command.not_looks_of_mem_stages hcmd

namespace Event.Adds
variable {e : Event} {s t : Session (Recorded σ)}

theorem of_passOn {change : Change} {c : Coordinator} (kind : e.kind = .change change)
    (rows : c = t.coordinator ∨ change.Supersedes s t c) :
    e.Adds env s t (passOn env.recorded e change ⟨c, t.world⟩) := by
  rcases hemit : env.emit (e.emission change) t.world.world with ⟨f | ⟨⟩, v⟩
  · have hrefused : env.recorded.emit (e.emission change) t.world = (.error f, ⟨v, t.journal⟩) := by
      simp only [recorded, recording, hemit, journal]
    have hcall : passOn env.recorded e change ⟨c, t.world⟩ = .error (.failed f) ⟨c, v, t.journal⟩ :=
      call_eq_error.2 ⟨f, _, hrefused, rfl, rfl⟩
    exact hcall ▸ .refused kind rows hemit
  · have hcall : passOn env.recorded e change ⟨c, t.world⟩ =
        .ok () ⟨c, v, t.journal ++ [.sent (e.emission change)]⟩ :=
      call_eq_ok.2 ⟨_, recorded_emit_eq_ok.2 ⟨v, hemit, rfl⟩, rfl⟩
    exact hcall ▸ .passed kind rows hemit

theorem of_fresh {rounds : Nat} (hrun : s.coordinator.run.isNone = true) :
    e.Adds env s s (Session.process env.recorded rounds e s) := by
  unfold Session.process
  rw [bind_of_ok (current_eq_ok.2 ⟨rfl, rfl⟩), if_pos hrun]
  cases hkind : e.kind with
  | change change => exact of_passOn hkind (.inl rfl)
  | _ => exact .nothing (by simp [hkind])

/-- Once the window has moved to its position, a unit only adds what is its own. -/
theorem of_proceed {rounds : Nat} {u : Session (Recorded σ)} {asked : Transition}
    (happly : applyPending env.recorded rounds s = .ok () u)
    (hwindow : updateWindow env.recorded rounds e u = .ok asked t) :
    e.Adds env s t (e.proceed env.recorded asked t) := by
  cases hkind : e.kind with
  | change change =>
    rw [proceed_of_change hkind]
    obtain ⟨rfl, hmoved⟩ := updateWindow_moves hwindow
    cases hsupersedes : !(u.coordinator.transition e).closes &&
        (u.coordinator.transition e).deduplicates with
    | false =>
      have hstays : supersede (u.coordinator.transition e) change t = .ok () t := by
        simp only [supersede, hsupersedes, Bool.false_eq_true, if_false]
        rfl
      rw [bind_of_ok hstays]
      exact of_passOn hkind (.inl rfl)
    | true =>
      have hdrops : supersede (u.coordinator.transition e) change t =
          .ok () ⟨t.coordinator.deduplicate change, t.world⟩ := by
        simp only [supersede, hsupersedes, if_true]
        rfl
      rw [bind_of_ok hdrops]
      refine of_passOn hkind ?_
      rcases t.coordinator.deduplicate_cases change with heq | ⟨htable, hheld, heq⟩
      · exact .inl heq
      · refine .inr ⟨htable, hheld, ?_, heq⟩
        -- a position that closes the window makes no change supersede a row
        obtain ⟨-, rfl⟩ | ⟨hcloses, -⟩ := hmoved
        · have hsame := windowsClosed_of_applyPending happly
          exact hsame
        · simp [hcloses] at hsupersedes
  | _ =>
    rw [proceed_of_not_change (by simp [hkind])]
    exact .nothing (by simp [hkind])

end Event.Adds

/-- Only its position lets a unit move the window. Of two units at one place in the stream, neither of
which drains, each does what the other does, apart from what a change adds itself. -/
theorem process_takesAlike {rounds : Nat} {e e' : Event} (s : Session (Recorded σ))
    (hpartition : e.partition = e'.partition) (hoffset : e.offset = e'.offset)
    (hkind : e.kind.drains = false) (hkind' : e'.kind.drains = false) :
    s.TakesAlike env rounds e e' := by
  unfold TakesAlike
  cases hrun : s.coordinator.run.isNone with
  | true => exact .inr ⟨s, .of_fresh hrun, .of_fresh hrun⟩
  | false =>
    rw [process_eq_proceed hrun hkind, process_eq_proceed hrun hkind']
    have hsame : updateWindow env.recorded rounds e = updateWindow env.recorded rounds e' :=
      updateWindow_congr hpartition hoffset
    cases hmoved : (applyPending env.recorded rounds >>= fun _ =>
        updateWindow env.recorded rounds e) s with
    | error stop t =>
      exact .inl ⟨stop, t, bind_of_error hmoved, bind_of_error (hsame ▸ hmoved)⟩
    | ok asked t =>
      rw [bind_of_ok hmoved, bind_of_ok (hsame ▸ hmoved)]
      obtain ⟨_, u, happly, hwindow⟩ := bind_eq_ok.1 hmoved
      exact .inr ⟨t, .of_proceed happly hwindow, .of_proceed happly (hsame ▸ hwindow)⟩

namespace Rehearsal

/-- Within the window a change supersedes the row with its key and is passed on. The beginning of a
transaction at its position does neither. -/
theorem twoRows_takesAlike : ∃ s,
    Request.performAll environment.recorded [.start 9 none, .add 9 [⟨"d", "a"⟩] .empty]
      (twoRows [upTo 5, upTo 5, upTo 6]) = .ok () s ∧
    (Session.process environment.recorded 9 (unit 6 (update 1))).endsIn s
      (fun t => t.coordinator.buffer.size = 1 && t.emitted.length = 1) = true ∧
    (Session.process environment.recorded 9 (unit 6 .begin)).endsIn s
      (fun t => t.coordinator.buffer.size = 2 && t.emitted.length = 0) = true ∧
    s.TakesAlike environment 9 (unit 6 (update 1)) (unit 6 .begin) := by
  obtain ⟨s, h, hshown⟩ := exists_of_endsIn
    (x := Request.performAll environment.recorded [.start 9 none, .add 9 [⟨"d", "a"⟩] .empty])
    (s := twoRows [upTo 5, upTo 5, upTo 6])
    (p := fun s => (Session.process environment.recorded 9 (unit 6 (update 1))).endsIn s
        (fun t => t.coordinator.buffer.size = 1 && t.emitted.length = 1) &&
      (Session.process environment.recorded 9 (unit 6 .begin)).endsIn s
        (fun t => t.coordinator.buffer.size = 2 && t.emitted.length = 0)) (by decide +kernel)
  obtain ⟨hchange, hbegin⟩ := Bool.and_eq_true_iff.1 hshown
  exact ⟨s, h, hchange, hbegin, process_takesAlike s rfl rfl rfl rfl⟩

end Rehearsal
end Backfill
