import Backfill.Proofs.Stage

/-! What can be asked of a coordinator, and the stages it is done in. A request that ends well is
a row of stages that end well (`perform_stages`), and so is a row of requests (`Unfolds`). -/
namespace Backfill
open Procedure Session
variable {σ α : Type} {env : Environment σ}

def Procedure.each (f : α → Procedure σ Unit) : List α → Procedure σ Unit
  | [] => return
  | x :: xs => do
    f x
    each f xs

/-- What can be asked of a coordinator. -/
inductive Request where
  | start (rounds : Nat) (restored : Option Run)
  | enqueue (cmd : Command)
  | add (rounds : Nat) (tables : List Table) (filters : TextMap String)
  | stop (tables : List Table)
  | pause
  | resume (rounds : Nat)
  | apply (rounds : Nat) (cmd : Command)
  | process (rounds : Nat) (e : Event)

namespace Request

def perform (env : Environment σ) : Request → Procedure σ Unit
  | .start rounds restored => discard (Session.start env rounds restored)
  | .enqueue cmd => update fun c => c.enqueue cmd
  | .add rounds tables filters => addTables env rounds tables filters
  | .stop tables => Session.stop env tables
  | .pause => Session.pause
  | .resume rounds => Session.resume env rounds
  | .apply rounds cmd => Session.apply env rounds cmd
  | .process rounds e => Session.process env rounds e

def performAll (env : Environment σ) (reqs : List Request) : Procedure σ Unit :=
  each (perform env) reqs

end Request

def Stage.performAll (env : Environment σ) (sts : List Stage) : Procedure σ Unit :=
  each (Stage.perform env) sts

def Command.stages (rounds : Nat) (cmd : Command) : List Stage :=
  [match cmd.action with
    | .execute => .add rounds cmd.tables cmd.filters
    | .stop => .stop cmd.tables
    | .pause => .pause
    | .resume => .resume rounds,
    .note cmd]

def Event.passStages (e : Event) : List Stage :=
  match e.kind with
  | .change change => [.pass e change]
  | _ => []

/-- The stages in which a heartbeat or a commit looks at `windows` windows. -/
def Event.closeStages (rounds windows : Nat) (e : Event) : List Stage :=
  match e.kind with
  | .heartbeat | .commit => List.replicate windows (.close rounds e)
  | _ => []

theorem Event.eq_of_mem_closeStages {e : Event} {rounds n : Nat} {st : Stage}
    (h : st ∈ e.closeStages rounds n) : st = .close rounds e := by
  unfold closeStages at h
  split at h
  · exact List.eq_of_mem_replicate h
  · exact List.eq_of_mem_replicate h
  · exact absurd h List.not_mem_nil

theorem Event.exists_of_mem_passStages {e : Event} {st : Stage} (h : st ∈ e.passStages) :
    ∃ change, st = .pass e change := by
  unfold passStages at h
  split at h
  · exact ⟨_, List.mem_singleton.1 h⟩
  · exact absurd h List.not_mem_nil

def Coordinator.pending (c : Coordinator) : List Command :=
  (c.commands.map CommandQueue.pending).getD []

/-- The stages of a request to a coordinator, if a heartbeat or a commit looks at `windows` windows
after the one that it moved. -/
def Request.stages (c : Coordinator) (windows : Nat) : Request → List Stage
  | .start rounds restored => [.start rounds restored]
  | .enqueue cmd => [.enqueue cmd]
  | .add rounds tables filters => [.add rounds tables filters]
  | .stop tables => [.stop tables]
  | .pause => [.pause]
  | .resume rounds => [.resume rounds]
  | .apply rounds cmd => cmd.stages rounds
  | .process rounds e =>
    if c.run.isNone then e.passStages
    else .take :: c.pending.flatMap (Command.stages rounds) ++
      (.place rounds e :: e.closeStages rounds windows ++ e.passStages)

section Rows
variable {f : α → Procedure σ Unit} {s s' : Session σ} {u : Unit}

theorem each_nil_eq_ok : each f [] s = .ok u s' ↔ s = s' := by
  rw [each, pure_eq_ok]
  exact ⟨fun h => h.2, fun h => ⟨rfl, h⟩⟩

theorem each_cons_eq_ok {x : α} {xs : List α} :
    each f (x :: xs) s = .ok u s' ↔ ∃ t, f x s = .ok () t ∧ each f xs t = .ok u s' := by
  rw [each, bind_eq_ok]
  exact ⟨fun ⟨_, t, h⟩ => ⟨t, h⟩, fun ⟨t, h⟩ => ⟨(), t, h⟩⟩

theorem each_append_eq_ok {xs ys : List α} :
    each f (xs ++ ys) s = .ok u s' ↔ ∃ t, each f xs s = .ok () t ∧ each f ys t = .ok u s' := by
  induction xs generalizing s with
  | nil =>
    simp only [List.nil_append, each_nil_eq_ok]
    exact ⟨fun h => ⟨s, rfl, h⟩, fun ⟨_, hs, h⟩ => hs ▸ h⟩
  | cons x xs ih =>
    simp only [List.cons_append, each_cons_eq_ok, ih]
    exact ⟨fun ⟨t, hx, v, hxs, hys⟩ => ⟨v, ⟨t, hx, hxs⟩, hys⟩,
      fun ⟨v, ⟨t, hx, hxs⟩, hys⟩ => ⟨t, hx, v, hxs, hys⟩⟩

theorem each_keeps {I : Session σ → Prop} {xs : List α}
    (hstep : ∀ x ∈ xs, ∀ {s t}, f x s = .ok () t → I s → I t)
    (h : each f xs s = .ok u s') (hi : I s) : I s' := by
  induction xs generalizing s with
  | nil => exact each_nil_eq_ok.1 h ▸ hi
  | cons x xs ih =>
    obtain ⟨t, hx, h⟩ := each_cons_eq_ok.1 h
    exact ih (fun y hy => hstep y (List.mem_cons_of_mem _ hy)) h
      (hstep x List.mem_cons_self hx hi)

end Rows

theorem apply_stages {rounds : Nat} {cmd : Command} {s s' : Session σ} {u : Unit}
    (h : Session.apply env rounds cmd s = .ok u s') :
    Stage.performAll env (cmd.stages rounds) s = .ok u s' := by
  cases hact : cmd.action <;>
  · simp only [Session.apply, hact, bind_eq_ok, updateRun_eq_ok, count_eq_ok] at h
    obtain ⟨_, t, hcmd, _, _, rfl, rfl⟩ := h
    rw [Command.stages, hact]
    exact each_cons_eq_ok.2 ⟨t, hcmd, each_cons_eq_ok.2 ⟨_, rfl, each_nil_eq_ok.2 rfl⟩⟩

theorem applyAll_stages {rounds : Nat} {cmds : List Command} {s s' : Session σ} {u : Unit}
    (h : applyAll env rounds cmds s = .ok u s') :
    Stage.performAll env (cmds.flatMap (Command.stages rounds)) s = .ok u s' := by
  induction cmds generalizing s with
  | nil => exact each_nil_eq_ok.2 (pure_eq_ok.1 h).2
  | cons cmd cmds ih =>
    simp only [applyAll, bind_eq_ok] at h
    obtain ⟨_, t, hcmd, h⟩ := h
    rw [List.flatMap_cons]
    exact each_append_eq_ok.2 ⟨t, apply_stages hcmd, ih h⟩

/-- To apply the commands in line is to take them all and then to apply them. -/
theorem applyPending_eq (env : Environment σ) (rounds : Nat) (s : Session σ) :
    applyPending env rounds s =
      applyAll env rounds s.coordinator.pending ⟨s.coordinator.takeCommands, s.world⟩ := by
  obtain ⟨⟨settings, run, buffer, bufferTable, commands, statistics⟩, w⟩ := s
  cases commands <;> rfl

theorem applyPending_stages {rounds : Nat} {s s' : Session σ} {u : Unit}
    (h : applyPending env rounds s = .ok u s') :
    Stage.performAll env
      (.take :: s.coordinator.pending.flatMap (Command.stages rounds)) s = .ok u s' := by
  rw [applyPending_eq] at h
  exact each_cons_eq_ok.2 ⟨⟨s.coordinator.takeCommands, s.world⟩, rfl, applyAll_stages h⟩

theorem advance_stages {rounds : Nat} {e : Event} {n : Nat} {s s' : Session σ} {u : Unit}
    (h : advance env rounds e n s = .ok u s') :
    ∃ m, Stage.performAll env (List.replicate m (.close rounds e)) s = .ok u s' := by
  induction n generalizing s with
  | zero =>
    simp only [advance, bind_eq_ok, current_eq_ok] at h
    obtain ⟨_, _, ⟨rfl, rfl⟩, h⟩ := h
    split at h
    · exact absurd h throw_ne_ok
    · exact ⟨0, each_nil_eq_ok.2 (pure_eq_ok.1 h).2⟩
  | succ n ih =>
    simp only [advance, bind_eq_ok, current_eq_ok] at h
    obtain ⟨_, _, ⟨rfl, rfl⟩, h⟩ := h
    split at h
    · rename_i hr
      simp only [bind_eq_ok, now_eq_ok, updateRun_eq_ok, count_eq_ok] at h
      obtain ⟨_, _, ⟨rfl, rfl⟩, _, _, rfl, _, _, rfl, _, t, hflush, h⟩ := h
      obtain ⟨m, hm⟩ := ih h
      refine ⟨m + 1, each_cons_eq_ok.2 ⟨t, ?_, hm⟩⟩
      simp only [Stage.perform, bind_eq_ok, current_eq_ok]
      refine ⟨_, _, ⟨rfl, rfl⟩, ?_⟩
      rw [if_pos hr]
      simp only [bind_eq_ok, now_eq_ok, update_eq_ok]
      exact ⟨_, _, ⟨rfl, rfl⟩, (), _, rfl, hflush⟩
    · exact ⟨0, each_nil_eq_ok.2 (pure_eq_ok.1 h).2⟩

theorem unreached_of_advance {rounds windows : Nat} {e : Event} {s s' : Session σ} {u : Unit}
    (h : Session.advance env rounds e windows s = .ok u s') :
    s'.coordinator.isReachedBy e.position = false := by
  induction windows generalizing s with
  | zero =>
    simp only [Session.advance, bind_eq_ok, current_eq_ok] at h
    obtain ⟨_, _, ⟨rfl, rfl⟩, h⟩ := h
    split at h
    · exact absurd h throw_ne_ok
    · rename_i hreached
      exact (pure_eq_ok.1 h).2 ▸ Bool.eq_false_iff.2 hreached
  | succ windows ih =>
    simp only [Session.advance, bind_eq_ok, current_eq_ok] at h
    obtain ⟨_, _, ⟨rfl, rfl⟩, h⟩ := h
    split at h
    · simp only [bind_eq_ok] at h
      obtain ⟨_, _, -, _, _, -, _, _, -, _, t, -, h⟩ := h
      exact ih h
    · rename_i hreached
      exact (pure_eq_ok.1 h).2 ▸ Bool.eq_false_iff.2 hreached

/-- A coordinator with a run first applies the commands in line; a unit is then taken in its own
stages. -/
theorem process_of_started {rounds : Nat} {e : Event} {s s' : Session σ} {u : Unit}
    (hrun : s.coordinator.run.isNone = false) (h : Session.process env rounds e s = .ok u s') :
    ∃ t n, applyPending env rounds s = .ok () t ∧
      Stage.performAll env (.place rounds e :: e.closeStages rounds n ++ e.passStages) t =
        .ok () s' := by
  simp only [Session.process, bind_eq_ok, current_eq_ok] at h
  obtain ⟨_, _, ⟨rfl, rfl⟩, h⟩ := h
  simp only [hrun, Bool.false_eq_true, if_false, bind_eq_ok] at h
  obtain ⟨_, t, hpending, h⟩ := h
  have hplace (n : Nat) (t₁ t₂ : Session σ)
      (h₁ : (Stage.place rounds e).perform env t = .ok () t₁)
      (h₂ : Stage.performAll env (e.closeStages rounds n) t₁ = .ok () t₂)
      (h₃ : Stage.performAll env e.passStages t₂ = .ok () s') :
      ∃ t n, applyPending env rounds s = .ok () t ∧
        Stage.performAll env (.place rounds e :: e.closeStages rounds n ++ e.passStages) t =
          .ok () s' :=
    ⟨t, n, hpending, each_append_eq_ok.2 ⟨t₂, each_cons_eq_ok.2 ⟨t₁, h₁, h₂⟩, h₃⟩⟩
  cases hk : e.kind with
  | change change =>
    simp only [hk, bind_eq_ok] at h
    obtain ⟨_, t₁, h₁, h⟩ := h
    refine hplace 0 t₁ t₁ ?_ ?_ ?_
    · simpa only [Stage.perform, hk] using h₁
    · simp only [Event.closeStages, hk]
      exact each_nil_eq_ok.2 rfl
    · simp only [Event.passStages, hk]
      exact each_cons_eq_ok.2 ⟨s', h, each_nil_eq_ok.2 rfl⟩
  | heartbeat | commit =>
    simp only [hk, bind_eq_ok] at h
    obtain ⟨_, t₁, h₁, h⟩ := h
    obtain ⟨n, hn⟩ := advance_stages h
    refine hplace n t₁ s' ?_ ?_ ?_
    · simpa only [Stage.perform, hk] using h₁
    · simpa only [Event.closeStages, hk] using hn
    · simp only [Event.passStages, hk]
      exact each_nil_eq_ok.2 rfl
  | filtered _ | begin =>
    simp only [hk] at h
    refine hplace 0 s' s' ?_ ?_ ?_
    · simpa only [Stage.perform, hk] using h
    · simp only [Event.closeStages, hk]
      exact each_nil_eq_ok.2 rfl
    · simp only [Event.passStages, hk]
      exact each_nil_eq_ok.2 rfl

theorem unreached_of_process {rounds : Nat} {e : Event} {s s' : Session σ} {u : Unit}
    (hkind : e.kind = .heartbeat ∨ e.kind = .commit)
    (h : Session.process env rounds e s = .ok u s') :
    s'.coordinator.isReachedBy e.position = false := by
  simp only [Session.process, bind_eq_ok, current_eq_ok] at h
  obtain ⟨_, _, ⟨rfl, rfl⟩, h⟩ := h
  split at h
  · rename_i hnone
    have hsame : s = s' := by rcases hkind with hk | hk <;> exact (pure_eq_ok.1 (by rwa [hk] at h)).2
    rw [← hsame, Coordinator.isReachedBy, Option.isNone_iff_eq_none.1 hnone]
    rfl
  · rw [bind_eq_ok] at h
    obtain ⟨_, _, -, h⟩ := h
    rcases hkind with hk | hk <;>
    · rw [hk, bind_eq_ok] at h
      obtain ⟨_, _, -, h⟩ := h
      exact unreached_of_advance h

/-- Before there is a run, a unit is only passed on. -/
theorem process_of_fresh {rounds : Nat} {e : Event} {s s' : Session σ} {u : Unit}
    (hrun : s.coordinator.run.isNone = true) (h : Session.process env rounds e s = .ok u s') :
    Stage.performAll env e.passStages s = .ok () s' := by
  simp only [Session.process, bind_eq_ok, current_eq_ok] at h
  obtain ⟨_, _, ⟨rfl, rfl⟩, h⟩ := h
  simp only [hrun, if_true] at h
  cases hk : e.kind with
  | change change =>
    simp only [hk] at h
    simp only [Event.passStages, hk]
    exact each_cons_eq_ok.2 ⟨s', h, each_nil_eq_ok.2 rfl⟩
  | _ =>
    simp only [hk, pure_eq_ok] at h
    simp only [Event.passStages, hk]
    exact each_nil_eq_ok.2 h.2

private theorem process_stages {rounds : Nat} {e : Event} {s s' : Session σ} {u : Unit}
    (h : Session.process env rounds e s = .ok u s') :
    ∃ n, Stage.performAll env ((Request.process rounds e).stages s.coordinator n) s = .ok u s' := by
  cases hrun : s.coordinator.run.isNone with
  | true =>
    simp only [Request.stages, hrun, if_true]
    exact ⟨0, process_of_fresh hrun h⟩
  | false =>
    simp only [Request.stages, hrun, Bool.false_eq_true, if_false]
    obtain ⟨t, n, hpending, h⟩ := process_of_started hrun h
    exact ⟨n, each_append_eq_ok.2 ⟨t, applyPending_stages hpending, h⟩⟩

/-- A request that ends well is done in its stages. -/
theorem perform_stages {req : Request} {s s' : Session σ} {u : Unit}
    (h : req.perform env s = .ok u s') :
    ∃ n, Stage.performAll env (req.stages s.coordinator n) s = .ok u s' := by
  cases req with
  | apply rounds cmd => exact ⟨0, apply_stages h⟩
  | process rounds e => exact process_stages h
  | _ => exact ⟨0, each_cons_eq_ok.2 ⟨s', h, each_nil_eq_ok.2 rfl⟩⟩

/-- Requests that end well, and the stages they are done in. -/
inductive Unfolds (env : Environment σ) : Session σ → List Request → List Stage → Session σ → Prop
  | nil {s} : Unfolds env s [] [] s
  | cons {s t u req reqs sts} (windows : Nat) (req_ok : req.perform env s = .ok () t)
      (done : Stage.performAll env (req.stages s.coordinator windows) s = .ok () t)
      (rest : Unfolds env t reqs sts u) :
      Unfolds env s (req :: reqs) (req.stages s.coordinator windows ++ sts) u

theorem performAll_unfolds {reqs : List Request} {s s' : Session σ} {u : Unit}
    (h : Request.performAll env reqs s = .ok u s') : ∃ sts, Unfolds env s reqs sts s' := by
  induction reqs generalizing s with
  | nil => exact ⟨[], each_nil_eq_ok.1 h ▸ .nil⟩
  | cons req reqs ih =>
    obtain ⟨t, hreq, h⟩ := each_cons_eq_ok.1 h
    obtain ⟨n, hn⟩ := perform_stages hreq
    obtain ⟨sts, hsts⟩ := ih h
    exact ⟨_, .cons n hreq hn hsts⟩

theorem Unfolds.performs {reqs : List Request} {sts : List Stage} {s s' : Session σ}
    (h : Unfolds env s reqs sts s') : Stage.performAll env sts s = .ok () s' := by
  induction h with
  | nil => exact each_nil_eq_ok.2 rfl
  | cons _ _ done _ ih => exact each_append_eq_ok.2 ⟨_, done, ih⟩

end Backfill
