import Backfill.Proofs.Resumption

/-! What holds of every session that began with valid settings: it stays consistent, its run can be
taken up again, and the commands in line are of a kind that was let in. -/
namespace Backfill
variable {σ : Type} {env : Environment σ}

theorem Move.keeps {p q : Phase} {s t : Session σ} (h : Move env p s q t) :
    t.coordinator.settings = s.coordinator.settings ∧
      t.coordinator.commands = s.coordinator.commands := by
  cases h <;> exact ⟨rfl, rfl⟩

namespace Coordinator

theorem moveTo_keeps (c : Coordinator) (e : Event) :
    (c.moveTo e).settings = c.settings ∧ (c.moveTo e).commands = c.commands := by
  have hded (c : Coordinator) (change : Change) : (c.deduplicate change).settings = c.settings ∧
      (c.deduplicate change).commands = c.commands := by
    unfold deduplicate
    split <;> exact ⟨rfl, rfl⟩
  unfold moveTo
  split
  · split
    · exact hded _ _
    · exact ⟨rfl, rfl⟩
  · exact ⟨rfl, rfl⟩

theorem stopTables_keeps (c : Coordinator) (now : Int64) (tables : List Table) :
    (c.stopTables now tables).settings = c.settings ∧
      (c.stopTables now tables).commands = c.commands := by
  rcases c.stopTables_cases now tables with ⟨heq, -⟩ | ⟨r, -, -, ⟨-, heq⟩ | ⟨-, -, heq⟩ |
    ⟨-, -, heq⟩⟩ <;> rw [heq] <;> exact ⟨rfl, rfl⟩

def accepts (c : Coordinator) (cmd : Command) : Bool :=
  c.commands.any fun q => (q.trySend cmd).isOk

theorem pending_enqueue (c : Coordinator) (cmd : Command) :
    (c.enqueue cmd).pending = c.pending ++ if c.accepts cmd then [cmd] else [] := by
  cases hq : c.commands with
  | none => simp [pending, enqueue, accepts, hq]
  | some q =>
    simp only [pending, enqueue, accepts, hq, CommandQueue.trySend, Option.map_some,
      Option.getD_some, Option.any_some]
    split
    · exact (List.append_nil _).symm
    · split
      · exact (List.append_nil _).symm
      · rfl

theorem mem_pending_enqueue {c : Coordinator} {cmd cmd' : Command}
    (h : cmd' ∈ (c.enqueue cmd).pending) : cmd' = cmd ∨ cmd' ∈ c.pending := by
  rw [pending_enqueue] at h
  rcases List.mem_append.1 h with h | h
  · exact .inr h
  · split at h
    · exact .inl (List.mem_singleton.1 h)
    · exact absurd h List.not_mem_nil

theorem pending_takeCommands (c : Coordinator) : c.takeCommands.pending = [] := by
  cases hq : c.commands <;> simp [pending, takeCommands, hq, CommandQueue.drained]

end Coordinator

/-- What holds of a session in a phase, if only commands of a kind are let in. -/
structure Session.Regular (ok : Command → Prop) (p : Phase) (s : Session σ) : Prop where
  chunkSize : s.coordinator.settings.chunkSize ≠ 0
  commands : ∀ cmd ∈ s.coordinator.pending, ok cmd
  consistent : s.coordinator.Consistent p
  resumable : s.coordinator.Resumable

namespace Session.Regular
variable {ok : Command → Prop} {p q : Phase} {s t : Session σ}

private theorem of_keeps (hs : s.Regular ok p) (hc : t.coordinator.Consistent q)
    (hr : t.coordinator.Resumable)
    (h : t.coordinator.settings = s.coordinator.settings ∧
      t.coordinator.commands = s.coordinator.commands) : t.Regular ok q := by
  refine ⟨h.1 ▸ hs.chunkSize, ?_, hc, hr⟩
  rw [Coordinator.pending, h.2]
  exact hs.commands

theorem move (h : Move env p s q t) (hs : s.Regular ok p) : t.Regular ok q :=
  hs.of_keeps (hs.consistent.move h) (hs.resumable.move h) h.keeps

theorem enter {st : Stage} (h : Enters env st s p t)
    (hstart : ∀ rounds r, st = .start rounds (some r) → r.Resumable)
    (hcommand : ∀ cmd, st = .enqueue cmd → ok cmd) (hs : s.Regular ok .idle) : t.Regular ok p := by
  have hc := hs.consistent.enter h
  have hr := hs.resumable.enter h hstart
  cases h with
  | enqueued =>
    refine ⟨hs.chunkSize, fun cmd hcmd => ?_, hc, hr⟩
    rcases Coordinator.mem_pending_enqueue hcmd with rfl | hcmd
    · exact hcommand _ rfl
    · exact hs.commands cmd hcmd
  | taken =>
    refine ⟨hs.chunkSize, fun cmd hcmd => ?_, hc, hr⟩
    rw [Coordinator.pending_takeCommands] at hcmd
    exact absurd hcmd List.not_mem_nil
  | stopped => exact hs.of_keeps hc hr (Coordinator.stopTables_keeps _ _ _)
  | placed stays => exact hs.of_keeps hc hr (Coordinator.moveTo_keeps _ _)
  | closed closes | reached reached =>
    refine hs.of_keeps hc hr ?_
    rw [Coordinator.flushing_coordinator]
    exact ⟨rfl, rfl⟩
  | _ => exact hs.of_keeps hc hr ⟨rfl, rfl⟩

theorem limit_pos (hs : s.Regular ok p) (u : Table) : 0 < (s.coordinator.chunkQuery u).limit :=
  Nat.pos_of_ne_zero fun h => hs.chunkSize (UInt64.toNat_inj.1 h)

theorem initial {settings : Settings} {commands : Option CommandQueue} {w : σ}
    (hsize : settings.chunkSize ≠ 0) (hcommands : ∀ q, commands = some q → ∀ cmd ∈ q.pending, ok cmd) :
    (⟨{ settings, commands }, w⟩ : Session σ).Regular ok .idle := by
  refine ⟨hsize, ?_, .initial settings commands, fun _ hr => absurd hr (by simp)⟩
  cases hq : commands with
  | none => exact fun cmd hcmd => absurd hcmd List.not_mem_nil
  | some q => exact hcommands q hq

end Session.Regular
end Backfill
