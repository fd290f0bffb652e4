import Backfill.Proofs.Attempts
import Backfill.Proofs.Regular
import Backfill.Rehearsal.World

/-! Commands are applied in the order in which they were put in line. A unit takes all that wait at
once. If one of them fails, it and those behind it are not put back, and the offset that is recorded
later may be beyond them; up to then every command up to the recorded offset is applied. -/
namespace Backfill
open Procedure Session
variable {σ : Type} {env : Environment σ}

structure Orders where
  queue : Option CommandQueue
  /-- For a run, the offset of the command applied last. -/
  offset : Option (Option UInt64)

/-- The orders after commands are applied that were taken from the line before. -/
def Orders.after (o : Orders) (cmds : List Command) : Orders :=
  { o with offset := o.offset.map fun old => (cmds.getLast?.map Command.offset).or old }

theorem Orders.after_nil (o : Orders) : o.after [] = o := by
  simp [after]

theorem Orders.after_cons (o : Orders) (cmd : Command) (cmds : List Command) :
    o.after (cmd :: cmds) = (o.after [cmd]).after cmds := by
  simp only [after, Option.map_map, Orders.mk.injEq, true_and]
  refine congrArg (fun f => o.offset.map f) (funext fun old => ?_)
  cases h : cmds.getLast? <;> simp [List.getLast?_cons, h]

namespace Coordinator

def recorded (c : Coordinator) : Option UInt64 := c.run.bind Run.commandOffset

def orders (c : Coordinator) : Orders := ⟨c.commands, c.run.map Run.commandOffset⟩

theorem recorded_eq (c : Coordinator) : c.recorded = c.orders.offset.join := by
  cases hr : c.run <;> simp [recorded, orders, hr]

theorem pending_eq_of_commands {c c' : Coordinator} (h : c'.commands = c.commands) :
    c'.pending = c.pending := by
  rw [pending, pending, h]

@[simp] theorem orders_count (c : Coordinator) (f : Statistics → Statistics) :
    (c.count f).orders = c.orders := rfl

@[simp] theorem orders_dropRows (c : Coordinator) : c.dropRows.orders = c.orders := rfl

theorem orders_updateRun (c : Coordinator) {f : Run → Run}
    (h : ∀ r, (f r).commandOffset = r.commandOffset := by exact fun _ => rfl) :
    (c.updateRun f).orders = c.orders := by
  simp only [orders, updateRun, Option.map_map, Orders.mk.injEq, true_and]
  exact congrArg (fun f => c.run.map f) (funext h)

theorem orders_of_run {c : Coordinator} {r r' : Run} (hr : c.run = some r)
    (h : r'.commandOffset = r.commandOffset) : ({ c with run := some r' } : Coordinator).orders =
      c.orders := by
  simp [orders, hr, h]

end Coordinator

theorem Move.orders {p q : Phase} {s t : Session σ} (h : Move env p s q t) :
    t.coordinator.orders = s.coordinator.orders := by
  cases h with
  | allSent | declined stays | served run tables => rfl
  | began reads commit positions commit' begins =>
    rw [Coordinator.orders_count]
    exact (Coordinator.orders_updateRun _).trans (Coordinator.orders_updateRun _)
  | vacant run tables unknown maximum | exhausted run tables known query =>
    rw [Coordinator.orders_count]
    exact Coordinator.orders_updateRun _
  | @buffered c w w' r t ts rows run =>
    simp only [Coordinator.bufferRows]
    split
    · exact Coordinator.orders_updateRun c
    · rfl
  | @reverted c w w' executed =>
    rw [Coordinator.orders_count, Coordinator.orders_updateRun, Coordinator.orders_dropRows]
    exact Coordinator.orders_updateRun _
  | _ => exact Coordinator.orders_updateRun _

theorem Moves.orders {p q : Phase} {s t : Session σ} (h : Moves env p s q t) :
    t.coordinator.orders = s.coordinator.orders := by
  induction h with
  | refl => rfl
  | step first _ ih => exact ih.trans first.orders

theorem Breaks.orders {p : Phase} {s s' : Session σ} {f : Failure} (h : Breaks env p s f s') :
    s'.coordinator.orders = s.coordinator.orders := by
  cases h with
  | unopened reads commit opens => exact Coordinator.orders_updateRun _
  | _ => rfl

/-- Whether a stage puts commands in line, takes them or records an offset. -/
def Stage.handlesOrders : Stage → Bool
  | .start _ _ | .enqueue _ | .take | .note _ => true
  | _ => false

theorem Coordinator.orders_stopTables (c : Coordinator) (now : Int64) (tables : List Table) :
    (c.stopTables now tables).orders = c.orders := by
  rcases c.stopTables_cases now tables with ⟨heq, -⟩ | ⟨r, hr, -, ⟨-, heq⟩ | ⟨-, -, heq⟩ |
    ⟨-, -, heq⟩⟩ <;> rw [heq]
  · simp [orders, hr, dropWindow, Run.closeWindow, Run.clearTables, Run.touch]
  · simp [orders, hr, dropWindow, Run.removeTables, Run.touch]
  · simp [orders, hr, Run.removeTables, Run.touch]

theorem Coordinator.orders_flushing (c : Coordinator) (now : Int64) (p : Partition) (o : Offset) :
    ((c.closeWindow now).flushing p o).2.orders = c.orders := by
  rw [flushing_coordinator, orders_dropRows, closeWindow, orders_count, orders_updateRun]

theorem Enters.orders {st : Stage} {p : Phase} {s t : Session σ} (h : Enters env st s p t)
    (hst : st.handlesOrders = false) : t.coordinator.orders = s.coordinator.orders := by
  cases h with
  | fresh | restored | enqueued | taken | noted => exact absurd hst (by simp [Stage.handlesOrders])
  | added run running | begun run ended =>
    obtain ⟨new, filters', h⟩ := Run.addTables_eq _ _ _ _
    rw [h]
    exact Coordinator.orders_of_run run rfl
  | stopped => exact Coordinator.orders_stopTables _ _ _
  | paused => exact Coordinator.orders_updateRun _
  | pending run pending | resumed run free => exact Coordinator.orders_of_run run rfl
  | unpaused stays | unreached stays | passed emit => rfl
  | @placed _ e c w stays =>
    rw [Coordinator.orders, (c.moveTo_keeps e).2, Coordinator.moveTo_run, Option.map_map]
    rfl
  | closed closes | reached reached => exact Coordinator.orders_flushing _ _ _ _

theorem Fails.orders {st : Stage} {s s' : Session σ} {f : Failure} (h : Fails env st s f s')
    (hst : st.handlesOrders = false) : s'.coordinator.orders = s.coordinator.orders := by
  cases h with
  | unknown | unsupported | unlisted => exact absurd hst (by simp [Stage.handlesOrders])
  | absent run | unpassed emit => rfl
  | placed closes asked | reached reached asked =>
    rw [Coordinator.closeWindow, Coordinator.orders_count]
    exact Coordinator.orders_updateRun _
  | broken enters breaks =>
    obtain ⟨q, u, hmoves, hbreaks⟩ := breaks
    exact hbreaks.orders.trans (hmoves.orders.trans (enters.orders hst))

theorem perform_orders {st : Stage} {s s' : Session σ} {u : Unit} (h : st.perform env s = .ok u s')
    (hst : st.handlesOrders = false) : s'.coordinator.orders = s.coordinator.orders := by
  obtain ⟨p, t, henter, hmoves⟩ := perform_enters h
  exact hmoves.orders.trans (henter.orders hst)

theorem performAll_orders {sts : List Stage} {s s' : Session σ} {u : Unit}
    (h : Stage.performAll env sts s = .ok u s') (hsts : ∀ st ∈ sts, st.handlesOrders = false) :
    s'.coordinator.orders = s.coordinator.orders :=
  each_keeps (f := Stage.perform env) (I := fun t => t.coordinator.orders = s.coordinator.orders)
    (fun st hst _ _ hperform hi => (perform_orders hperform (hsts st hst)).trans hi) h rfl

theorem performAll_orders_of_failed {sts : List Stage} {s s' : Session σ} {f : Failure}
    (h : Stage.performAll env sts s = .error (.failed f) s')
    (hsts : ∀ st ∈ sts, st.handlesOrders = false) :
    s'.coordinator.orders = s.coordinator.orders := by
  obtain ⟨before, st, after, t, rfl, hbefore, hst⟩ := exists_of_each_eq_error h
  rw [(perform_fails hst).orders (hsts st (by simp))]
  exact performAll_orders hbefore fun st' hst' => hsts st' (List.mem_append_left _ hst')

theorem Event.handlesOrders_stages (rounds n : Nat) (e : Event) :
    ∀ st ∈ .place rounds e :: e.closeStages rounds n ++ e.passStages, st.handlesOrders = false := by
  intro st hst
  rcases List.mem_append.1 hst with hst | hst
  · rcases List.mem_cons.1 hst with rfl | hst
    · rfl
    · rw [eq_of_mem_closeStages hst]
      rfl
  · obtain ⟨change, rfl⟩ := exists_of_mem_passStages hst
    rfl

def Session.applied (env : Environment σ) (rounds : Nat) : List Command → Session σ → List Command
  | [], _ => []
  | cmd :: cmds, s =>
    match apply env rounds cmd s with
    | .ok _ t => cmd :: applied env rounds cmds t
    | .error _ _ => []

/-- A command takes effect in one stage, and its offset is noted in the next one. -/
private theorem handlesOrders_stage (rounds : Nat) (cmd : Command) :
    ∃ st, cmd.stages rounds = [st, .note cmd] ∧ st.handlesOrders = false := by
  refine ⟨_, rfl, ?_⟩
  cases cmd.action <;> rfl

/-- The offset of a command that was applied is recorded. -/
theorem orders_apply {rounds : Nat} {cmd : Command} {s s' : Session σ} {u : Unit}
    (h : Session.apply env rounds cmd s = .ok u s') :
    s'.coordinator.orders = s.coordinator.orders.after [cmd] := by
  obtain ⟨st, hst, hcontrol⟩ := handlesOrders_stage rounds cmd
  have hstages := apply_stages h
  rw [hst] at hstages
  obtain ⟨t, hfirst, hnote⟩ := each_cons_eq_ok.1 hstages
  obtain ⟨t', hnote, hend⟩ := each_cons_eq_ok.1 hnote
  obtain rfl := each_nil_eq_ok.1 hend
  rw [(update_eq_ok (f := fun c => c.note cmd)).1 hnote, ← perform_orders hfirst hcontrol]
  simp [Coordinator.note, Coordinator.orders, Coordinator.updateRun, Coordinator.count,
    Orders.after, Option.map_map, Function.comp_def]

/-- That of a command that fails is not. -/
theorem orders_apply_of_failed {rounds : Nat} {cmd : Command} {s s' : Session σ} {f : Failure}
    (h : Session.apply env rounds cmd s = .error (.failed f) s') :
    s'.coordinator.orders = s.coordinator.orders := by
  obtain ⟨st, hst, hcontrol⟩ := handlesOrders_stage rounds cmd
  have hstages := apply_failed h
  rw [hst] at hstages
  rcases each_cons_eq_error.1 hstages with hfirst | ⟨t, -, hnote⟩
  · exact (perform_fails hfirst).orders hcontrol
  · rcases each_cons_eq_error.1 hnote with hnote | ⟨_, -, hend⟩
    · exact absurd hnote (update_ne_error (f := fun c => c.note cmd))
    · exact absurd hend pure_ne_error

theorem orders_applyAll {rounds : Nat} {cmds : List Command} {s s' : Session σ} {u : Unit}
    (h : applyAll env rounds cmds s = .ok u s') : applied env rounds cmds s = cmds ∧
      s'.coordinator.orders = s.coordinator.orders.after cmds := by
  induction cmds generalizing s with
  | nil =>
    obtain ⟨-, rfl⟩ := pure_eq_ok.1 h
    exact ⟨rfl, (Orders.after_nil _).symm⟩
  | cons cmd cmds ih =>
    simp only [applyAll, bind_eq_ok] at h
    obtain ⟨_, t, hcmd, h⟩ := h
    obtain ⟨happlied, horders⟩ := ih h
    simp only [applied, hcmd, happlied, true_and]
    rw [horders, orders_apply hcmd, ← Orders.after_cons]

/-- If commands fail, those up to one of them are applied. -/
theorem orders_applyAll_of_failed {rounds : Nat} {cmds : List Command} {s s' : Session σ}
    {f : Failure} (h : applyAll env rounds cmds s = .error (.failed f) s') :
    (∃ cmd rest, cmds = applied env rounds cmds s ++ cmd :: rest) ∧
      s'.coordinator.orders = s.coordinator.orders.after (applied env rounds cmds s) := by
  induction cmds generalizing s with
  | nil => exact absurd h pure_ne_error
  | cons cmd cmds ih =>
    simp only [applyAll, bind_eq_error] at h
    rcases h with h | ⟨_, t, hcmd, h⟩
    · rw [applied, h, orders_apply_of_failed h]
      exact ⟨⟨cmd, cmds, rfl⟩, (Orders.after_nil _).symm⟩
    · obtain ⟨⟨cmd', rest, hsplit⟩, horders⟩ := ih h
      simp only [applied, hcmd]
      rw [horders, orders_apply hcmd, ← Orders.after_cons]
      exact ⟨⟨cmd', rest, congrArg (cmd :: ·) hsplit⟩, rfl⟩

/-- Whether a request leaves it to the commands in line which offset is recorded. -/
def Request.keepsTurn : Request → Bool
  | .start _ _ | .apply _ _ => false
  | _ => true

namespace Attempt

def accepted (a : Attempt σ) : List Command :=
  match a.request with
  | .enqueue cmd => if a.before.coordinator.accepts cmd then [cmd] else []
  | _ => []

def taken (a : Attempt σ) : List Command :=
  match a.request with
  | .process _ _ => if a.before.coordinator.run.isNone then [] else a.before.coordinator.pending
  | _ => []

def applied (env : Environment σ) (a : Attempt σ) : List Command :=
  match a.request with
  | .process rounds _ =>
    Session.applied env rounds a.taken ⟨a.before.coordinator.takeCommands, a.before.world⟩
  | _ => []

def Obeys (env : Environment σ) (a : Attempt σ) : Prop :=
  match a.request with
  | .process rounds _ =>
    a.before.coordinator.run.isSome → ∃ t, applyPending env rounds a.before = .ok () t
  | _ => True

structure InTurn (env : Environment σ) (a : Attempt σ) : Prop where
  /-- Commands are put at the end of the line and taken from its beginning. -/
  line : a.before.coordinator.pending ++ a.accepted = a.taken ++ a.after.coordinator.pending
  /-- All that are taken are applied, unless one of them fails. -/
  obeyed : a.Obeys env → a.taken = a.applied env
  /-- The one that fails and those behind it are not applied. -/
  dropped : ¬ a.Obeys env →
    ∃ f cmd rest, a.failure = some f ∧ a.taken = a.applied env ++ cmd :: rest
  /-- The offset of the last one that is applied is recorded. -/
  recorded : a.after.coordinator.recorded =
    ((a.applied env).getLast?.map Command.offset).or a.before.coordinator.recorded

private theorem inTurn_of_orders {a : Attempt σ}
    (horders : a.after.coordinator.orders = a.before.coordinator.orders)
    (haccepted : a.accepted = []) (htaken : a.taken = []) (happlied : a.applied env = [])
    (hobeys : a.Obeys env) : a.InTurn env where
  line := by
    have hqueue : a.after.coordinator.commands = a.before.coordinator.commands :=
      congrArg Orders.queue horders
    rw [haccepted, htaken, Coordinator.pending_eq_of_commands hqueue, List.append_nil,
      List.nil_append]
  obeyed _ := htaken.trans happlied.symm
  dropped h := absurd hobeys h
  recorded := by
    rw [happlied, Coordinator.recorded_eq, Coordinator.recorded_eq, horders]
    rfl

end Attempt

theorem Coordinator.recorded_of_orders {c : Coordinator} {cmds : List Command} {o : Orders}
    (hrun : o.offset.isSome) (h : c.orders = o.after cmds) :
    c.recorded = (cmds.getLast?.map Command.offset).or o.offset.join := by
  obtain ⟨old, hold⟩ := Option.isSome_iff_exists.1 hrun
  rw [recorded_eq, h, Orders.after, hold]
  rfl

namespace Attempt

private theorem inTurn_process {s s' : Session σ} {rounds : Nat} {e : Event}
    {failure : Option Failure} {applied : List Command}
    (hrun : s.coordinator.run.isNone = false)
    (horders : s'.coordinator.orders = s.coordinator.takeCommands.orders.after applied)
    (happlied : Session.applied env rounds s.coordinator.pending
      ⟨s.coordinator.takeCommands, s.world⟩ = applied)
    (hobeys : (∃ t, applyPending env rounds s = .ok () t) → s.coordinator.pending = applied)
    (hdrops : (¬ ∃ t, applyPending env rounds s = .ok () t) →
      ∃ f cmd rest, failure = some f ∧ s.coordinator.pending = applied ++ cmd :: rest) :
    InTurn env ⟨s, .process rounds e, failure, s'⟩ := by
  have hsome : s.coordinator.run.isSome := by simpa using hrun
  have htaken : taken ⟨s, .process rounds e, failure, s'⟩ = s.coordinator.pending := by
    simp [taken, hrun]
  have happ : Attempt.applied env ⟨s, .process rounds e, failure, s'⟩ = applied := by
    change Session.applied env rounds (taken _) _ = applied
    rw [htaken, happlied]
  have hqueue : s'.coordinator.commands = s.coordinator.takeCommands.commands :=
    congrArg Orders.queue horders
  constructor
  · rw [htaken, Coordinator.pending_eq_of_commands hqueue, Coordinator.pending_takeCommands]
    rfl
  · rw [htaken, happ]
    exact fun h => hobeys (h hsome)
  · rw [htaken, happ]
    exact fun h => hdrops fun hok => h fun _ => hok
  · rw [happ, Coordinator.recorded_of_orders _ horders]
    · simp only [Coordinator.recorded_eq]
      rfl
    · simpa [Coordinator.orders, Coordinator.takeCommands] using hsome

private theorem orders_of_happens {a : Attempt σ} (h : a.Happens env)
    (hstages : ∀ n, ∀ st ∈ a.request.stages a.before.coordinator n, st.handlesOrders = false) :
    a.after.coordinator.orders = a.before.coordinator.orders := by
  obtain ⟨n, h | ⟨f, before, st, rest, t, -, hsplit, hbefore, hst⟩⟩ := h.stages
  · exact performAll_orders h (hstages n)
  · have hkeep : ∀ st' ∈ before ++ st :: rest, st'.handlesOrders = false := hsplit ▸ hstages n
    rw [hst.orders (hkeep st (by simp))]
    exact performAll_orders hbefore fun st' hst' => hkeep st' (List.mem_append_left _ hst')

theorem Happens.inTurn {a : Attempt σ} (h : a.Happens env) (hturn : a.request.keepsTurn = true) :
    a.InTurn env := by
  obtain ⟨s, req, failure, s'⟩ := a
  cases req with
  | start | apply => exact absurd hturn (by simp [Request.keepsTurn])
  | enqueue cmd =>
    cases failure with
    | some f => exact absurd h (update_ne_error (f := fun c => c.enqueue cmd))
    | none =>
      have hafter : s' = ⟨s.coordinator.enqueue cmd, s.world⟩ :=
        (update_eq_ok (f := fun c => c.enqueue cmd)).1 h
      subst hafter
      refine ⟨?_, fun _ => rfl, fun hobeys => absurd trivial hobeys, rfl⟩
      exact (Coordinator.pending_enqueue _ _).symm
  | process rounds e =>
    cases hrun : s.coordinator.run.isNone with
    | true =>
      have horders := orders_of_happens h fun n st hst => by
        simp only [Request.stages, hrun, if_true] at hst
        exact e.handlesOrders_stages rounds n st (List.mem_append_right _ hst)
      have htaken : taken ⟨s, .process rounds e, failure, s'⟩ = [] := by simp [taken, hrun]
      refine inTurn_of_orders horders rfl htaken ?_ ?_
      · change Session.applied env rounds (taken _) _ = []
        rw [htaken]
        rfl
      · intro hsome
        simp [Option.isNone_iff_eq_none.1 hrun] at hsome
    | false =>
      cases failure with
      | none =>
        obtain ⟨t, n, hpending, hrest⟩ := process_of_started hrun h
        have hall := orders_applyAll (applyPending_eq env rounds s ▸ hpending)
        refine inTurn_process hrun ?_ hall.1 (fun _ => rfl) (absurd ⟨t, hpending⟩)
        rw [performAll_orders hrest (e.handlesOrders_stages rounds n), hall.2]
      | some f =>
        rcases process_failed_of_started hrun h with hpending | ⟨t, n, hpending, hrest⟩
        · obtain ⟨⟨cmd, rest, hsplit⟩, horders⟩ :=
            orders_applyAll_of_failed (applyPending_eq env rounds s ▸ hpending)
          refine inTurn_process hrun horders rfl (fun hok => ?_)
            fun _ => ⟨f, cmd, rest, rfl, hsplit⟩
          obtain ⟨t, ht⟩ := hok
          rw [hpending] at ht
          cases ht
        · have hall := orders_applyAll (applyPending_eq env rounds s ▸ hpending)
          refine inTurn_process hrun ?_ hall.1 (fun _ => rfl) (absurd ⟨t, hpending⟩)
          rw [performAll_orders_of_failed hrest (e.handlesOrders_stages rounds n), hall.2]
  | _ =>
    refine inTurn_of_orders (orders_of_happens h fun n st hst => ?_) rfl rfl rfl trivial
    rw [List.mem_singleton.1 hst]
    rfl

end Attempt

def Command.Ascending (cmds : List Command) : Prop :=
  cmds.Pairwise fun cmd cmd' => cmd.offset < cmd'.offset

namespace Attempts
variable {s s' : Session σ} {as : List (Attempt σ)}

theorem inTurn (h : Attempts env s as s') (hturn : ∀ a ∈ as, a.request.keepsTurn = true) :
    ∀ a ∈ as, a.InTurn env :=
  fun a ha => (h.happens a ha).inTurn (hturn a ha)

theorem line (h : Attempts env s as s') (hturn : ∀ a ∈ as, a.InTurn env) :
    s.coordinator.pending ++ as.flatMap Attempt.accepted =
      as.flatMap Attempt.taken ++ s'.coordinator.pending := by
  induction h with
  | nil => simp
  | @cons a as s' happens rest ih =>
    rw [List.flatMap_cons, List.flatMap_cons, ← List.append_assoc, (hturn a (by simp)).line,
      List.append_assoc, List.append_assoc, ih fun a' ha' => hturn a' (List.mem_cons_of_mem _ ha')]

theorem recorded (h : Attempts env s as s') (hturn : ∀ a ∈ as, a.InTurn env) :
    s'.coordinator.recorded =
      ((as.flatMap (Attempt.applied env)).getLast?.map Command.offset).or
        s.coordinator.recorded := by
  induction h with
  | nil => rfl
  | @cons a as s' happens rest ih =>
    rw [ih fun a' ha' => hturn a' (List.mem_cons_of_mem _ ha'), (hturn a (by simp)).recorded,
      List.flatMap_cons, List.getLast?_append]
    cases (as.flatMap (Attempt.applied env)).getLast? <;> rfl

end Attempts

theorem Attempt.InTurn.isPrefix_taken {a : Attempt σ} (h : a.InTurn env) :
    a.applied env <+: a.taken := by
  by_cases hobeys : a.Obeys env
  · exact h.obeyed hobeys ▸ List.prefix_rfl
  · obtain ⟨f, cmd, rest, -, htaken⟩ := h.dropped hobeys
    exact ⟨cmd :: rest, htaken.symm⟩

/-- Commands are applied in the order in which they are taken. -/
theorem applied_sublist_taken {as : List (Attempt σ)} (hturn : ∀ a ∈ as, a.InTurn env) :
    (as.flatMap (Attempt.applied env)).Sublist (as.flatMap Attempt.taken) := by
  induction as with
  | nil => exact .slnil
  | cons a as ih =>
    simp only [List.flatMap_cons]
    exact (hturn a (by simp)).isPrefix_taken.sublist.append
      (ih fun a' ha' => hturn a' (List.mem_cons_of_mem _ ha'))

/-- If only the last attempt may drop commands, those applied are the first ones taken. -/
theorem applied_prefix_taken {as : List (Attempt σ)} (hturn : ∀ a ∈ as, a.InTurn env)
    (hobeys : ∀ a ∈ as.dropLast, a.Obeys env) :
    as.flatMap (Attempt.applied env) <+: as.flatMap Attempt.taken := by
  induction as with
  | nil => exact List.prefix_rfl
  | cons a as ih =>
    simp only [List.flatMap_cons]
    cases as with
    | nil => simpa using (hturn a (by simp)).isPrefix_taken
    | cons a' as =>
      rw [List.dropLast_cons_cons] at hobeys
      rw [(hturn a (by simp)).obeyed (hobeys a (by simp)), List.prefix_append_right_inj]
      exact ih (fun b hb => hturn b (List.mem_cons_of_mem _ hb))
        fun b hb => hobeys b (List.mem_cons_of_mem _ hb)

/-- What attempts do with the commands in line. -/
structure CommandsInOrder (env : Environment σ) (s : Session σ) (as : List (Attempt σ))
    (s' : Session σ) : Prop where
  /-- The commands are taken from the line in its order, each of them once. -/
  taken : s.coordinator.pending ++ as.flatMap Attempt.accepted =
    as.flatMap Attempt.taken ++ s'.coordinator.pending
  /-- They are applied in that order, each of them at most once. -/
  applied : (as.flatMap (Attempt.applied env)).Sublist (as.flatMap Attempt.taken)
  /-- Each attempt applies all that it takes, or fails at a command and drops those behind it. -/
  each : ∀ a ∈ as, a.InTurn env
  /-- The offset of the command applied last is recorded. -/
  recorded : s'.coordinator.recorded =
    ((as.flatMap (Attempt.applied env)).getLast?.map Command.offset).or s.coordinator.recorded
  /-- A command is passed over only if it is dropped. -/
  passed : Command.Ascending (s.coordinator.pending ++ as.flatMap Attempt.accepted) →
    as.flatMap (Attempt.applied env) ≠ [] → ∀ n, s'.coordinator.recorded = some n →
    ∀ cmd ∈ s.coordinator.pending ++ as.flatMap Attempt.accepted, cmd.offset ≤ n →
      cmd ∈ as.flatMap (Attempt.applied env) ∨ ∃ a ∈ as, ¬ a.Obeys env ∧ cmd ∈ a.taken
  /-- None is passed over before an attempt follows one in which a command failed. -/
  covered : Command.Ascending (s.coordinator.pending ++ as.flatMap Attempt.accepted) →
    (∀ a ∈ as.dropLast, a.Obeys env) →
    as.flatMap (Attempt.applied env) ≠ [] → ∀ n, s'.coordinator.recorded = some n →
    ∀ cmd ∈ s.coordinator.pending ++ as.flatMap Attempt.accepted, cmd.offset ≤ n →
      cmd ∈ as.flatMap (Attempt.applied env)

/-- In a line of ascending offsets, what is at or below the offset of one command is not behind
it. -/
theorem Command.Ascending.not_behind {before after : List Command} {cmd cmd' : Command}
    (h : Command.Ascending (before ++ after)) (hcmd : cmd ∈ before) (hcmd' : cmd' ∈ after) :
    ¬ cmd'.offset ≤ cmd.offset :=
  UInt64.not_le.2 ((List.pairwise_append.1 h).2.2 cmd hcmd cmd' hcmd')

/-- The offset that attempts leave recorded is that of a command they applied. -/
theorem exists_applied_of_recorded {as : List (Attempt σ)} {n : UInt64} {old : Option UInt64}
    (happlied : as.flatMap (Attempt.applied env) ≠ [])
    (h : ((as.flatMap (Attempt.applied env)).getLast?.map Command.offset).or old = some n) :
    ∃ cmd ∈ as.flatMap (Attempt.applied env), cmd.offset = n := by
  rw [List.getLast?_eq_some_getLast happlied] at h
  exact ⟨_, List.getLast_mem happlied, Option.some.inj h⟩

/-- Commands are applied in the order of the line. The offset that is recorded passes over a command
only after one has failed. -/
theorem attempts_commandsInOrder {s s' : Session σ} {as : List (Attempt σ)}
    (h : Attempts env s as s') (hturn : ∀ a ∈ as, a.request.keepsTurn = true) :
    CommandsInOrder env s as s' := by
  have hinTurn := h.inTurn hturn
  have htaken := h.line hinTurn
  have hrecorded := h.recorded hinTurn
  have hsub := applied_sublist_taken hinTurn
  refine ⟨htaken, hsub, hinTurn, hrecorded, ?_, ?_⟩
  · intro hascending happlied n hn cmd hcmd hle
    rw [hrecorded] at hn
    rw [htaken] at hcmd hascending
    obtain ⟨last, hlast, rfl⟩ := exists_applied_of_recorded happlied hn
    rcases List.mem_append.1 hcmd with hcmd | hcmd
    · obtain ⟨a, ha, hcmd⟩ := List.mem_flatMap.1 hcmd
      by_cases hobeys : a.Obeys env
      · rw [(hinTurn a ha).obeyed hobeys] at hcmd
        exact .inl (List.mem_flatMap.2 ⟨a, ha, hcmd⟩)
      · exact .inr ⟨a, ha, hobeys, hcmd⟩
    · exact absurd hle (hascending.not_behind (hsub.subset hlast) hcmd)
  · intro hascending hobeys happlied n hn cmd hcmd hle
    rw [hrecorded] at hn
    rw [htaken] at hcmd hascending
    obtain ⟨last, hlast, rfl⟩ := exists_applied_of_recorded happlied hn
    obtain ⟨dropped, hdropped⟩ := applied_prefix_taken hinTurn hobeys
    rw [← hdropped, List.append_assoc] at hcmd hascending
    rcases List.mem_append.1 hcmd with hcmd | hcmd
    · exact hcmd
    · exact absurd hle (hascending.not_behind hlast hcmd)

namespace Rehearsal

def attentive (failures : List PlannedFailure) : Session World where
  coordinator :=
    { settings := {}, run := some (.fresh "rehearsal" 0), commands := some (.ofCapacity 8) }
  world := { tables := [⟨⟨"d", "a"⟩, [⟨⟨[.int 1]⟩, .null⟩], none⟩], failures }

def idleBeat : Request := .process 9 ⟨⟨"p"⟩, ⟨none, false⟩, .heartbeat⟩

def threeCommands : List Request :=
  [.enqueue (.execute 1 [⟨"d", "a"⟩]), .enqueue (.stop 2 [⟨"d", "a"⟩]), idleBeat,
    .enqueue (.pause 3), idleBeat]

theorem threeCommands_inOrder : ∃ as s', as.map Attempt.request = threeCommands ∧
    Attempts environment (attentive []) as s' ∧ (∀ a ∈ as, a.request.keepsTurn = true) ∧
    CommandsInOrder environment (attentive []) as s' := by
  have hall : (Request.attemptAll? environment threeCommands (attentive [])).isSome = true := by
    decide +kernel
  obtain ⟨as, has⟩ := Option.isSome_iff_exists.1 hall
  obtain ⟨hrequests, s', h⟩ := attempts_of_attemptAll? has
  have hturn : ∀ a ∈ as, a.request.keepsTurn = true := by
    have hthree : ∀ req ∈ threeCommands, req.keepsTurn = true := by decide
    exact fun a ha => hthree _ (hrequests ▸ List.mem_map_of_mem ha)
  exact ⟨as, s', hrequests, h, hturn, attempts_commandsInOrder h hturn⟩

/-- The first command fails, and the second one is dropped with it. The offset of the third one is
recorded, and the table that was to be stopped is still queued. -/
theorem threeCommands_passedOver :
    (Request.attemptAll? environment threeCommands
      (attentive [⟨.commit, 0, .dataAccess "gone"⟩])).any (fun as =>
        (as.flatMap Attempt.accepted).map Command.offset = [1, 2, 3] &&
        (as.flatMap (Attempt.applied environment)).map Command.offset = [3] &&
        as.getLast?.any fun a => a.failure.isNone && a.after.coordinator.recorded = some 3 &&
          a.after.coordinator.currentTable = some ⟨"d", "a"⟩) = true := by
  decide +kernel

end Rehearsal
end Backfill
