import Backfill.Proofs.Failing

/-! Requests made one after the other, of which any may fail. A request begins with the session that
the one before it left, whether that one ended well or not. -/
namespace Backfill
open Procedure Session
variable {σ : Type} {env : Environment σ}

/-- A request that was made, with the session before and after it. -/
structure Attempt (σ : Type) where
  before : Session σ
  request : Request
  /-- Why the request failed, unless it ended well. -/
  failure : Option Failure
  after : Session σ

namespace Attempt

/-- Whether this is what the request comes to. -/
def Happens (env : Environment σ) (a : Attempt σ) : Prop :=
  match a.failure with
  | none => a.request.perform env a.before = .ok () a.after
  | some f => a.request.perform env a.before = .error (.failed f) a.after

theorem Happens.stages {a : Attempt σ} (h : a.Happens env) : ∃ n,
    Stage.performAll env (a.request.stages a.before.coordinator n) a.before = .ok () a.after ∨
    ∃ f before st rest u, a.failure = some f ∧
      a.request.stages a.before.coordinator n = before ++ st :: rest ∧
      Stage.performAll env before a.before = .ok () u ∧ Fails env st u f a.after := by
  unfold Happens at h
  split at h
  · obtain ⟨n, hn⟩ := perform_stages h
    exact ⟨n, .inl hn⟩
  · rename_i f hf
    obtain ⟨n, hn⟩ := performAll_stages_of_failed h
    obtain ⟨before, st, rest, u, hstages, hbefore, hst⟩ := exists_of_each_eq_error hn
    exact ⟨n, .inr ⟨f, before, st, rest, u, hf, hstages, hbefore, perform_fails hst⟩⟩

end Attempt

inductive Attempts (env : Environment σ) : Session σ → List (Attempt σ) → Session σ → Prop
  | nil {s} : Attempts env s [] s
  | cons {a as s'} (happens : a.Happens env) (rest : Attempts env a.after as s') :
      Attempts env a.before (a :: as) s'

theorem Attempts.happens {s s' : Session σ} {as : List (Attempt σ)} (h : Attempts env s as s') :
    ∀ a ∈ as, a.Happens env := by
  induction h with
  | nil => exact fun _ ha => absurd ha List.not_mem_nil
  | cons happens _ ih => exact List.forall_mem_cons.2 ⟨happens, ih⟩

/-- Makes a request. There is no attempt if a loop was given too few rounds. -/
def Request.attempt? (env : Environment σ) (req : Request) (s : Session σ) : Option (Attempt σ) :=
  match req.perform env s with
  | .ok _ t => some ⟨s, req, none, t⟩
  | .error (.failed f) t => some ⟨s, req, some f, t⟩
  | .error .exhausted _ => none

theorem Request.attempt?_eq_some {req : Request} {s : Session σ} {a : Attempt σ}
    (h : req.attempt? env s = some a) : a.before = s ∧ a.request = req ∧ a.Happens env := by
  unfold attempt? at h
  split at h
  · obtain rfl := Option.some.inj h
    exact ⟨rfl, rfl, ‹_›⟩
  · obtain rfl := Option.some.inj h
    exact ⟨rfl, rfl, ‹_›⟩
  · cases h

def Request.attemptAll? (env : Environment σ) : List Request → Session σ → Option (List (Attempt σ))
  | [], _ => some []
  | req :: reqs, s => do
    let a ← req.attempt? env s
    let as ← attemptAll? env reqs a.after
    some (a :: as)

theorem attempts_of_attemptAll? {reqs : List Request} {s : Session σ} {as : List (Attempt σ)}
    (h : Request.attemptAll? env reqs s = some as) :
    as.map Attempt.request = reqs ∧ ∃ s', Attempts env s as s' := by
  induction reqs generalizing s as with
  | nil =>
    obtain rfl := Option.some.inj h
    exact ⟨rfl, s, .nil⟩
  | cons req reqs ih =>
    simp only [Request.attemptAll?, Option.bind_eq_bind, Option.bind_eq_some_iff,
      Option.some.injEq] at h
    obtain ⟨a, ha, as, has, rfl⟩ := h
    obtain ⟨rfl, rfl, happens⟩ := Request.attempt?_eq_some ha
    obtain ⟨rfl, s', rest⟩ := ih has
    exact ⟨rfl, s', .cons happens rest⟩

end Backfill
