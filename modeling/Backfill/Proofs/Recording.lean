import Backfill.Proofs.Request

/-! A world that records what its calls answer. The journal is never read by a coordinator; it is
what statements about the calls of a whole run are made of. -/
namespace Backfill
open Procedure Session
variable {σ α : Type}

/-- A call that was answered. For the queries of a table, the world before the call is kept. -/
inductive Answer (σ : Type) where
  | positions (executed : PositionSet)
  | began
  | committed
  | maximum (before : σ) (t : Table) (answer : Option Key)
  | query (before : σ) (q : ChunkQuery) (rows : List Row)
  | sent (e : Emission)

/-- A world and its journal, in the order of the calls. -/
structure Recorded (σ : Type) where
  world : σ
  journal : List (Answer σ)

def recording (answer : σ → α → List (Answer σ)) (f : σ → Except Failure α × σ) (w : Recorded σ) :
    Except Failure α × Recorded σ :=
  match f w.world with
  | (.ok a, v) => (.ok a, ⟨v, w.journal ++ answer w.world a⟩)
  | (.error e, v) => (.error e, ⟨v, w.journal⟩)

def Environment.recorded (env : Environment σ) : Environment (Recorded σ) where
  serverVersion := recording (fun _ _ => []) env.serverVersion
  executedPositions := recording (fun _ executed => [.positions executed]) env.executedPositions
  beginRead := recording (fun _ _ => [.began]) env.beginRead
  commit := recording (fun _ _ => [.committed]) env.commit
  maximumKey t := recording (fun w answer => [.maximum w t answer]) (env.maximumKey t)
  rangeQuery q := recording (fun w rows => [.query w q rows]) (env.rangeQuery q)
  emit e := recording (fun _ _ => [.sent e]) (env.emit e)
  isInterrupted w := env.isInterrupted w.world
  now w := env.now w.world
  freshToken w := env.freshToken w.world

theorem recording_eq_ok {answer : σ → α → List (Answer σ)} {f : σ → Except Failure α × σ}
    {w w' : Recorded σ} {a : α} :
    recording answer f w = (.ok a, w') ↔
      ∃ v, f w.world = (.ok a, v) ∧ w' = ⟨v, w.journal ++ answer w.world a⟩ := by
  unfold recording
  split
  · rename_i b v h
    simp only [h, Prod.mk.injEq, Except.ok.injEq]
    constructor
    · rintro ⟨rfl, rfl⟩
      exact ⟨v, ⟨rfl, rfl⟩, rfl⟩
    · rintro ⟨_, ⟨rfl, rfl⟩, rfl⟩
      exact ⟨rfl, rfl⟩
  · rename_i e v h
    simp [h]

/-- A call that fails is not recorded. -/
theorem recording_eq_error {answer : σ → α → List (Answer σ)} {f : σ → Except Failure α × σ}
    {w w' : Recorded σ} {e : Failure} (h : recording answer f w = (.error e, w')) :
    w'.journal = w.journal := by
  unfold recording at h
  split at h
  · exact absurd (Prod.mk.inj h).1 (by simp)
  · exact (Prod.mk.inj h).2 ▸ rfl

namespace Environment
variable {env : Environment σ} {w w' : Recorded σ}

theorem recorded_version_eq_ok {v : String} : env.recorded.serverVersion w = (.ok v, w') ↔
    ∃ x, env.serverVersion w.world = (.ok v, x) ∧ w' = ⟨x, w.journal⟩ := by
  simp only [recorded, recording_eq_ok, List.append_nil]

theorem recorded_positions_eq_ok {executed : PositionSet} :
    env.recorded.executedPositions w = (.ok executed, w') ↔
      ∃ x, env.executedPositions w.world = (.ok executed, x) ∧
        w' = ⟨x, w.journal ++ [.positions executed]⟩ := by
  simp only [recorded, recording_eq_ok]

theorem recorded_begin_eq_ok {u : Unit} : env.recorded.beginRead w = (.ok u, w') ↔
    ∃ x, env.beginRead w.world = (.ok u, x) ∧ w' = ⟨x, w.journal ++ [.began]⟩ := by
  simp only [recorded, recording_eq_ok]

theorem recorded_commit_eq_ok {u : Unit} : env.recorded.commit w = (.ok u, w') ↔
    ∃ x, env.commit w.world = (.ok u, x) ∧ w' = ⟨x, w.journal ++ [.committed]⟩ := by
  simp only [recorded, recording_eq_ok]

theorem recorded_maximum_eq_ok {t : Table} {k : Option Key} :
    env.recorded.maximumKey t w = (.ok k, w') ↔
      ∃ x, env.maximumKey t w.world = (.ok k, x) ∧
        w' = ⟨x, w.journal ++ [.maximum w.world t k]⟩ := by
  simp only [recorded, recording_eq_ok]

theorem recorded_query_eq_ok {q : ChunkQuery} {rows : List Row} :
    env.recorded.rangeQuery q w = (.ok rows, w') ↔
      ∃ x, env.rangeQuery q w.world = (.ok rows, x) ∧
        w' = ⟨x, w.journal ++ [.query w.world q rows]⟩ := by
  simp only [recorded, recording_eq_ok]

theorem recorded_emit_eq_ok {e : Emission} {u : Unit} : env.recorded.emit e w = (.ok u, w') ↔
    ∃ x, env.emit e w.world = (.ok u, x) ∧ w' = ⟨x, w.journal ++ [.sent e]⟩ := by
  simp only [recorded, recording_eq_ok]

theorem recorded_opening {w₁ w₂ w₃ : Recorded σ} {low : PositionSet} {u v x : Unit}
    (commit : env.recorded.commit w = (.ok u, w₁))
    (positions : env.recorded.executedPositions w₁ = (.ok low, w₂))
    (commit' : env.recorded.commit w₂ = (.ok v, w₃))
    (begins : env.recorded.beginRead w₃ = (.ok x, w')) :
    ∃ y z, w₁ = ⟨y, w.journal ++ [.committed]⟩ ∧
      w' = ⟨z, w.journal ++ [.committed] ++ [.positions low] ++ [.committed] ++ [.began]⟩ := by
  obtain ⟨y, -, rfl⟩ := recorded_commit_eq_ok.1 commit
  obtain ⟨_, -, rfl⟩ := recorded_positions_eq_ok.1 positions
  obtain ⟨_, -, rfl⟩ := recorded_commit_eq_ok.1 commit'
  obtain ⟨z, -, rfl⟩ := recorded_begin_eq_ok.1 begins
  exact ⟨y, z, rfl, rfl⟩

end Environment

namespace Answer

def executed? : Answer σ → Option PositionSet
  | .positions executed => some executed
  | _ => none

def query? : Answer σ → Option (ChunkQuery × List Row)
  | .query _ q rows => some (q, rows)
  | _ => none

def sent? : Answer σ → Option Emission
  | .sent e => some e
  | _ => none

/-- A call that gives nothing to the sink adds nothing to what was sent. -/
theorem sent_snoc {j : List (Answer σ)} {a : Answer σ} (ha : a.sent? = none) :
    (j ++ [a]).filterMap sent? = j.filterMap sent? := by
  rw [List.filterMap_append, List.filterMap_cons_none ha, List.filterMap_nil, List.append_nil]

end Answer

namespace Session

def journal (s : Session (Recorded σ)) : List (Answer σ) := s.world.journal

/-- The sets of executed positions that were captured, in order. -/
def captured (s : Session (Recorded σ)) : List PositionSet := s.journal.filterMap Answer.executed?

def queries (s : Session (Recorded σ)) : List (ChunkQuery × List Row) :=
  s.journal.filterMap Answer.query?

def emitted (s : Session (Recorded σ)) : List Emission := s.journal.filterMap Answer.sent?

end Session

/-- Whether an action ends well in a session with a property. -/
def Procedure.endsIn (x : Procedure σ α) (s : Session σ) (p : Session σ → Bool) : Bool :=
  match x s with
  | .ok _ t => p t
  | .error _ _ => false

theorem Procedure.exists_of_endsIn {x : Procedure σ Unit} {s : Session σ} {p : Session σ → Bool}
    (h : x.endsIn s p = true) : ∃ t, x s = .ok () t ∧ p t = true := by
  unfold endsIn at h
  split at h
  · rename_i u t hx
    exact ⟨t, hx, h⟩
  · exact absurd h Bool.false_ne_true

def Procedure.failsIn (x : Procedure σ α) (s : Session σ) (p : Session σ → Bool) : Bool :=
  match x s with
  | .error (.failed _) t => p t
  | _ => false

theorem Procedure.exists_of_failsIn {x : Procedure σ α} {s : Session σ} {p : Session σ → Bool}
    (h : x.failsIn s p = true) : ∃ f t, x s = .error (.failed f) t ∧ p t = true := by
  unfold failsIn at h
  split at h
  · rename_i f t hx
    exact ⟨f, t, hx, h⟩
  · exact absurd h Bool.false_ne_true

end Backfill
