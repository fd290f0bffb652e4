import Backfill.Proofs.Request

/-! Actions that come to an end. The loops of a coordinator are given a number of rounds. That such a
loop ends by itself is that from some number of rounds on it has a result which more rounds do not
change, and which is not that the rounds were used up. An action without a loop never uses them up. -/
namespace Backfill
open Procedure Session
variable {σ α β : Type} {env : Environment σ}

namespace Procedure

/-- Whether an action never stops for want of rounds. -/
def Ends (x : Procedure σ α) : Prop := ∀ s s', x s ≠ .error .exhausted s'

namespace Ends

theorem bind {x : Procedure σ α} {f : α → Procedure σ β} (hx : x.Ends) (hf : ∀ a, (f a).Ends) :
    (x >>= f).Ends := by
  intro s s' h
  rcases bind_eq_error.1 h with h | ⟨a, t, -, h⟩
  · exact hx s s' h
  · exact hf a t s' h

theorem pure (a : α) : (Pure.pure a : Procedure σ α).Ends := fun _ _ => pure_ne_error

theorem current : (Procedure.current : Procedure σ Coordinator).Ends := fun _ _ => current_ne_error

theorem get : (MonadState.get : Procedure σ (Session σ)).Ends := fun _ _ => get_ne_error

theorem now (env : Environment σ) : (Procedure.now env).Ends := fun _ _ => now_ne_error

theorem update (f : Coordinator → Coordinator) : (Procedure.update f : Procedure σ Unit).Ends :=
  fun _ _ => update_ne_error

theorem updateRun (f : Run → Run) : (Procedure.updateRun f : Procedure σ Unit).Ends := update _

theorem count (f : Statistics → Statistics) : (Procedure.count f : Procedure σ Unit).Ends := update _

theorem fail (f : Failure) : (Procedure.fail f : Procedure σ α).Ends := by
  intro s s' h
  simp [fail_eq_error] at h

theorem call (f : σ → Except Failure α × σ) : (Procedure.call f).Ends := by
  intro s s' h
  obtain ⟨g, w, -, hfailed, -⟩ := call_eq_error.1 h
  exact absurd hfailed (by simp)

theorem checkInterrupted (env : Environment σ) : (Procedure.checkInterrupted env).Ends := by
  intro s s' h
  exact absurd (checkInterrupted_eq_error.1 h).2.1 (by simp)

theorem ite {p : Prop} [Decidable p] {x y : Procedure σ α} (hx : x.Ends) (hy : y.Ends) :
    (if p then x else y).Ends := by
  split
  · exact hx
  · exact hy

end Ends

/-- Whether an action comes to an end, which more rounds do not change. -/
def Returns (f : Nat → Procedure σ α) (s : Session σ) : Prop :=
  ∃ n result, (∀ m ≥ n, f m s = result) ∧ ∀ s', result ≠ .error .exhausted s'

namespace Returns
variable {f g : Nat → Procedure σ α} {s : Session σ}

/-- What an action does with few rounds does not matter. -/
theorem of_eventually (n : Nat) (h : ∀ m ≥ n, f m s = g m s) (hg : Returns g s) : Returns f s := by
  obtain ⟨n', result, hresult, hends⟩ := hg
  refine ⟨max n n', result, fun m hm => ?_, hends⟩
  rw [h m (Nat.le_trans (Nat.le_max_left n n') hm)]
  exact hresult m (Nat.le_trans (Nat.le_max_right n n') hm)

theorem of_eq (h : ∀ m, f m s = g m s) (hg : Returns g s) : Returns f s :=
  of_eventually 0 (fun m _ => h m) hg

theorem of_ends {x : Procedure σ α} (h : x.Ends) (s : Session σ) : Returns (fun _ => x) s :=
  ⟨0, x s, fun _ _ => rfl, h s⟩

theorem bind {h : Nat → α → Procedure σ β} (hf : Returns f s)
    (hh : ∀ a t m, f m s = .ok a t → Returns (fun n => h n a) t) :
    Returns (fun n => f n >>= h n) s := by
  obtain ⟨n, result, hresult, hends⟩ := hf
  cases result with
  | ok a t =>
    obtain ⟨n', result', hresult', hends'⟩ := hh a t n (hresult n (Nat.le_refl n))
    refine ⟨max n n', result', fun m hm => ?_, hends'⟩
    have hf := hresult m (Nat.le_trans (Nat.le_max_left n n') hm)
    exact (bind_of_ok hf).trans (hresult' m (Nat.le_trans (Nat.le_max_right n n') hm))
  | error e t =>
    refine ⟨n, .error e t, fun m hm => bind_of_error (hresult m hm), fun s' h => ?_⟩
    obtain ⟨rfl, -⟩ := EStateM.Result.error.inj h
    exact hends t rfl

theorem after {x : Procedure σ α} {h : Nat → α → Procedure σ β} (hx : x.Ends)
    (hh : ∀ a t, x s = .ok a t → Returns (fun n => h n a) t) :
    Returns (fun n => x >>= h n) s :=
  (of_ends hx s).bind (h := h) fun a t _ => hh a t

theorem before {x : α → Procedure σ β} (hf : Returns f s) (hx : ∀ a, (x a).Ends) :
    Returns (fun n => f n >>= x) s :=
  hf.bind fun a t _ _ => of_ends (hx a) t

theorem ite {p : Prop} [Decidable p] (hf : p → Returns f s) (hg : ¬ p → Returns g s) :
    Returns (fun n => if p then f n else g n) s := by
  by_cases hp : p
  · simpa only [if_pos hp] using hf hp
  · simpa only [if_neg hp] using hg hp

theorem discard (hf : Returns f s) : Returns (fun n => Functor.discard (f n)) s :=
  hf.before (x := fun _ => pure ()) fun _ => .pure ()

end Returns
end Procedure

theorem findMaximum_ends (t : Table) : (findMaximum env t).Ends := by
  refine .bind .current fun c => .ite (.pure true) (.bind (.call _) fun k => ?_)
  cases k with
  | none => exact .pure false
  | some k => exact .bind (.updateRun _) fun _ => .pure true

theorem finishTable_ends : (finishTable env).Ends :=
  .bind (.now env) fun _ => .bind (.updateRun _) fun _ => .count _

/-- The search for the first table that still has rows ends with the queue. -/
theorem fillFrom_ends (ts : List Table) : (fillFrom env ts).Ends := by
  induction ts with
  | nil => exact .checkInterrupted env
  | cons t ts ih =>
    have hnext : (do finishTable env; fillFrom env ts : Procedure σ Unit).Ends :=
      .bind finishTable_ends fun _ => ih
    refine .bind (.checkInterrupted env) fun _ => .bind (findMaximum_ends t) fun b => .ite ?_ hnext
    refine .bind .current fun c => .bind (.call _) fun rows => ?_
    cases rows with
    | nil => exact hnext
    | cons row rows => exact .update _

theorem closeChunk_ends : (closeChunk env).Ends := by
  refine .bind .current fun c => .ite ?_ ?_
  · refine .bind (.call _) fun executed => .bind (.updateRun _) fun _ => .bind .current fun c => ?_
    exact .ite (.bind (.update _) fun _ => .pure true) (.pure false)
  · exact .bind (.now env) fun _ => .bind (.updateRun _) fun _ => .pure false

theorem readOnce_ends : (readOnce env).Ends := by
  have hopen : (openWindow env).Ends :=
    .bind (.call _) fun _ => .bind (.call _) fun _ => .bind (.call _) fun _ =>
      .bind (.updateRun _) fun _ => .count _
  have hfill : (fillBuffer env).Ends := .bind .current fun _ => fillFrom_ends _
  exact .bind (.call _) fun _ => .bind (.now env) fun _ => .bind (.updateRun _) fun _ =>
    .bind hopen fun _ => .bind hfill fun _ => closeChunk_ends

theorem emitRows_ends (p : Partition) (t : Table) (o : Offset) (rows : List Row) :
    (emitRows env p t o rows).Ends := by
  induction rows with
  | nil => exact .pure ()
  | cons row rows ih => exact .bind (.call _) fun _ => .bind (.updateRun _) fun _ => ih

theorem sendBuffer_ends (p : Partition) (o : Offset) : (sendBuffer env p o).Ends := by
  refine .bind (.checkInterrupted env) fun _ => .bind .current fun c => .ite (.pure ()) ?_
  refine .bind (.update _) fun _ => ?_
  cases c.tableOfBuffer with
  | none => exact .pure ()
  | some t => exact .bind (emitRows_ends p t _ _) fun _ => .count _

end Backfill
