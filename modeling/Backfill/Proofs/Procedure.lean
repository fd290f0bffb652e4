import Backfill.Coordinator.Stream

/-! What an action that has ended well tells about its parts. An action ends well exactly if each of
its parts does, so its result can be read backwards, part by part, down to the calls of the world. -/
namespace Backfill

theorem Coordinator.updateRun_of_some {c : Coordinator} {r : Run} (h : c.run = some r)
    (f : Run → Run) : c.updateRun f = { c with run := some (f r) } := by
  simp [Coordinator.updateRun, h]

theorem Coordinator.updateRun_of_none {c : Coordinator} (h : c.run = none) (f : Run → Run) :
    c.updateRun f = c := by
  cases c
  simp only at h
  simp [Coordinator.updateRun, h]

end Backfill

namespace Backfill.Procedure
variable {σ α β : Type} {env : Environment σ} {s s' : Session σ}

theorem eq_of_eq_ok {x : Procedure σ α} {a b : α} {t : Session σ} (h : x s = .ok a s')
    (h' : x s = .ok b t) : s' = t :=
  (EStateM.Result.ok.inj (h.symm.trans h')).2

theorem bind_of_ok {x : Procedure σ α} {f : α → Procedure σ β} {a : α} {s t : Session σ}
    (h : x s = .ok a t) : (x >>= f) s = f a t := by
  change EStateM.bind x f s = _
  simp only [EStateM.bind, h]

theorem bind_of_error {x : Procedure σ α} {f : α → Procedure σ β} {e : Stop} {s t : Session σ}
    (h : x s = .error e t) : (x >>= f) s = .error e t := by
  change EStateM.bind x f s = _
  simp only [EStateM.bind, h]

theorem bind_eq_ok {x : Procedure σ α} {f : α → Procedure σ β} {b : β} :
    (x >>= f) s = .ok b s' ↔ ∃ a t, x s = .ok a t ∧ f a t = .ok b s' := by
  change EStateM.bind x f s = _ ↔ _
  cases hx : x s with
  | ok a t =>
    simp only [EStateM.bind, hx, EStateM.Result.ok.injEq]
    exact ⟨fun h => ⟨a, t, ⟨rfl, rfl⟩, h⟩, fun ⟨_, _, ⟨rfl, rfl⟩, h⟩ => h⟩
  | error e t => simp [EStateM.bind, hx]

theorem pure_eq_ok {a b : α} : (pure a : Procedure σ α) s = .ok b s' ↔ a = b ∧ s = s' := by
  change (EStateM.Result.ok a s : EStateM.Result Stop (Session σ) α) = _ ↔ _
  rw [EStateM.Result.ok.injEq]

theorem discard_eq_ok {x : Procedure σ α} {u : Unit} :
    (discard x) s = .ok u s' ↔ ∃ a, x s = .ok a s' := by
  simp only [discard, Functor.discard, Functor.mapConst]
  change (x >>= fun _ => pure ()) s = _ ↔ _
  rw [bind_eq_ok]
  constructor
  · rintro ⟨a, t, hx, h⟩
    exact ⟨a, (pure_eq_ok.1 h).2 ▸ hx⟩
  · rintro ⟨a, hx⟩
    exact ⟨a, s', hx, pure_eq_ok.2 ⟨rfl, rfl⟩⟩

theorem throw_ne_ok {e : Stop} {a : α} : (throw e : Procedure σ α) s ≠ .ok a s' := by
  change (EStateM.Result.error e s : EStateM.Result Stop (Session σ) α) ≠ _
  simp

theorem get_eq_ok {t : Session σ} : (get : Procedure σ (Session σ)) s = .ok t s' ↔ s = t ∧ s = s' := by
  change (EStateM.Result.ok s s : EStateM.Result Stop (Session σ) (Session σ)) = _ ↔ _
  rw [EStateM.Result.ok.injEq]

theorem current_eq_ok {c : Coordinator} :
    (current : Procedure σ Coordinator) s = .ok c s' ↔ s.coordinator = c ∧ s = s' := by
  simp only [current, bind_eq_ok, get_eq_ok, pure_eq_ok]
  constructor
  · rintro ⟨_, _, ⟨rfl, rfl⟩, rfl, rfl⟩
    exact ⟨rfl, rfl⟩
  · rintro ⟨rfl, rfl⟩
    exact ⟨_, _, ⟨rfl, rfl⟩, rfl, rfl⟩

theorem update_eq_ok {f : Coordinator → Coordinator} {u : Unit} :
    (update f : Procedure σ Unit) s = .ok u s' ↔ s' = ⟨f s.coordinator, s.world⟩ := by
  change (EStateM.Result.ok () _ : EStateM.Result Stop (Session σ) Unit) = _ ↔ _
  rw [EStateM.Result.ok.injEq, eq_comm (b := s')]
  simp

theorem updateRun_eq_ok {f : Run → Run} {u : Unit} :
    (updateRun f : Procedure σ Unit) s = .ok u s' ↔ s' = ⟨s.coordinator.updateRun f, s.world⟩ :=
  update_eq_ok

theorem count_eq_ok {f : Statistics → Statistics} {u : Unit} :
    (count f : Procedure σ Unit) s = .ok u s' ↔ s' = ⟨s.coordinator.count f, s.world⟩ :=
  update_eq_ok

theorem call_eq_ok {f : σ → Except Failure α × σ} {a : α} :
    call f s = .ok a s' ↔ ∃ w, f s.world = (.ok a, w) ∧ s' = ⟨s.coordinator, w⟩ := by
  unfold call
  split
  · rename_i b w h
    simp only [h, EStateM.Result.ok.injEq, Prod.mk.injEq, Except.ok.injEq]
    exact ⟨fun ⟨hb, hs⟩ => ⟨w, ⟨hb, rfl⟩, hs.symm⟩, fun ⟨_, ⟨hb, rfl⟩, hs⟩ => ⟨hb, hs.symm⟩⟩
  · rename_i e w h
    simp [h]

theorem now_eq_ok {n : Int64} : now env s = .ok n s' ↔ env.now s.world = n ∧ s = s' := by
  simp only [now, bind_eq_ok, get_eq_ok, pure_eq_ok]
  constructor
  · rintro ⟨_, _, ⟨rfl, rfl⟩, rfl, rfl⟩
    exact ⟨rfl, rfl⟩
  · rintro ⟨rfl, rfl⟩
    exact ⟨_, _, ⟨rfl, rfl⟩, rfl, rfl⟩

theorem checkInterrupted_eq_ok {u : Unit} :
    checkInterrupted env s = .ok u s' ↔ env.isInterrupted s.world = false ∧ s = s' := by
  simp only [checkInterrupted, bind_eq_ok, get_eq_ok]
  constructor
  · rintro ⟨_, _, ⟨rfl, rfl⟩, h⟩
    split at h
    · exact absurd h throw_ne_ok
    · rename_i hi
      exact ⟨by simpa using hi, (pure_eq_ok.1 h).2⟩
  · rintro ⟨hi, rfl⟩
    refine ⟨_, _, ⟨rfl, rfl⟩, ?_⟩
    simp [hi, pure_eq_ok]

/-! An action that stops did so in one of its parts, after the parts before it ended well. -/

section Stopping
variable {e : Stop} {a : α}

theorem bind_eq_error {x : Procedure σ α} {f : α → Procedure σ β} : (x >>= f) s = .error e s' ↔
    x s = .error e s' ∨ ∃ a t, x s = .ok a t ∧ f a t = .error e s' := by
  change EStateM.bind x f s = _ ↔ _
  cases hx : x s with
  | ok a t =>
    simp only [EStateM.bind, hx, EStateM.Result.ok.injEq, reduceCtorEq, false_or]
    exact ⟨fun h => ⟨a, t, ⟨rfl, rfl⟩, h⟩, fun ⟨_, _, ⟨rfl, rfl⟩, h⟩ => h⟩
  | error e t => simp [EStateM.bind, hx]

theorem pure_ne_error : (pure a : Procedure σ α) s ≠ .error e s' := by
  change (EStateM.Result.ok a s : EStateM.Result Stop (Session σ) α) ≠ _
  simp

theorem current_ne_error : (current : Procedure σ Coordinator) s ≠ .error e s' := by
  change (EStateM.Result.ok s.coordinator s : EStateM.Result Stop (Session σ) Coordinator) ≠ _
  simp

theorem get_ne_error : (get : Procedure σ (Session σ)) s ≠ .error e s' := by
  change (EStateM.Result.ok s s : EStateM.Result Stop (Session σ) (Session σ)) ≠ _
  simp

theorem now_ne_error : now env s ≠ .error e s' := by
  change (EStateM.Result.ok _ s : EStateM.Result Stop (Session σ) Int64) ≠ _
  simp

theorem update_ne_error {f : Coordinator → Coordinator} :
    (update f : Procedure σ Unit) s ≠ .error e s' := by
  change (EStateM.Result.ok () _ : EStateM.Result Stop (Session σ) Unit) ≠ _
  simp

theorem updateRun_ne_error {f : Run → Run} : (updateRun f : Procedure σ Unit) s ≠ .error e s' :=
  update_ne_error

theorem count_ne_error {f : Statistics → Statistics} :
    (count f : Procedure σ Unit) s ≠ .error e s' := update_ne_error

theorem throw_eq_error {e' : Stop} :
    (throw e' : Procedure σ α) s = .error e s' ↔ e' = e ∧ s = s' := by
  change (EStateM.Result.error e' s : EStateM.Result Stop (Session σ) α) = _ ↔ _
  rw [EStateM.Result.error.injEq]

theorem fail_eq_error {f : Failure} :
    (fail f : Procedure σ α) s = .error e s' ↔ .failed f = e ∧ s = s' := throw_eq_error

theorem call_eq_error {f : σ → Except Failure α × σ} : call f s = .error e s' ↔
    ∃ g w, f s.world = (.error g, w) ∧ .failed g = e ∧ s' = ⟨s.coordinator, w⟩ := by
  unfold call
  split
  · rename_i b w h
    simp [h]
  · rename_i g w h
    simp only [h, EStateM.Result.error.injEq, Prod.mk.injEq, Except.error.injEq]
    exact ⟨fun ⟨he, hs⟩ => ⟨g, w, ⟨rfl, rfl⟩, he, hs.symm⟩,
      fun ⟨_, _, ⟨rfl, rfl⟩, he, hs⟩ => ⟨he, hs.symm⟩⟩

theorem discard_eq_error {x : Procedure σ α} :
    (discard x) s = .error e s' ↔ x s = .error e s' := by
  simp only [discard, Functor.discard, Functor.mapConst]
  change (x >>= fun _ => pure ()) s = _ ↔ _
  simp only [bind_eq_error, pure_ne_error, and_false, exists_false, or_false]

theorem checkInterrupted_eq_error : checkInterrupted env s = .error e s' ↔
    env.isInterrupted s.world = true ∧ .failed .interrupted = e ∧ s = s' := by
  simp only [checkInterrupted, bind_eq_error, get_ne_error, get_eq_ok, false_or]
  constructor
  · rintro ⟨_, _, ⟨rfl, rfl⟩, h⟩
    split at h
    · rename_i hi
      exact ⟨hi, throw_eq_error.1 h⟩
    · exact absurd h pure_ne_error
  · rintro ⟨hi, rfl, rfl⟩
    refine ⟨_, _, ⟨rfl, rfl⟩, ?_⟩
    rw [if_pos hi]
    exact fail_eq_error.2 ⟨rfl, rfl⟩

end Stopping

end Backfill.Procedure
