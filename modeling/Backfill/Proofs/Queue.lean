import Backfill.Proofs.Journal

/-! The tables that are still to be read. Reading takes tables off the front of the queue, and only
a stage that asks for a table puts it at the end. -/
namespace Backfill
variable {σ : Type} {env : Environment σ}

def Coordinator.queue (c : Coordinator) : List Table := (c.run.map Run.tables).getD []

theorem Coordinator.queue_of_run {c c' : Coordinator} (f : Run → Run) (hrun : c'.run = c.run.map f)
    (h : ∀ r, (f r).tables = r.tables) : c'.queue = c.queue := by
  rw [queue, hrun, Option.map_map]
  exact congrArg (fun f => (c.run.map f).getD []) (funext h)

theorem Coordinator.queue_bufferRows (c : Coordinator) (t : Table) (rows : List Row) :
    (c.bufferRows t rows).queue = c.queue := by
  simp only [bufferRows]
  cases (c.buffer.insertAll rows).lastKey? with
  | none => rfl
  | some k => exact queue_of_run (fun r => r.chunkEndsAt k) rfl fun _ => rfl

def Stage.Asks (t : Table) : Stage → Prop
  | .add _ tables _ => t ∈ tables
  | _ => False

/-- Whether a stage starts the coordinator, which then has the queue of the run it is given. -/
def Stage.Starts : Stage → Prop
  | .start .. => True
  | _ => False

theorem Move.queue {p q : Phase} {s s' : Session σ} (h : Move env p s q s') :
    s'.coordinator.queue <:+ s.coordinator.queue := by
  have hrun (c c' : Coordinator) (f : Run → Run) (hf : c'.run = c.run.map f)
      (ht : ∀ r, (f r).tables = r.tables) : c'.queue <:+ c.queue :=
    Coordinator.queue_of_run f hf ht ▸ List.suffix_rfl
  have htail (r : Run) (now : Int64) : (r.nextTable now).tables <:+ r.tables := by
    simpa [Run.nextTable, Run.touch] using List.drop_suffix 1 r.tables
  cases h with
  | sent emit => exact hrun _ _ (fun r => r.recordSent _) rfl fun _ => rfl
  | allSent | declined stays | served run tables => exact List.suffix_rfl
  | began reads commit positions commit' begins =>
    exact hrun _ _ (fun r => (r.startChunk _).setLow _) (Option.map_map ..) fun _ => rfl
  | measured run tables unknown maximum =>
    exact hrun _ _ (fun r => r.setMaximum _) rfl fun _ => rfl
  | vacant run tables unknown maximum | exhausted run tables known query =>
    simpa [Coordinator.queue, Coordinator.updateRun, Coordinator.count, run] using htail _ _
  | @buffered c w w' r t ts rows run tables known found query =>
    simpa only [c.queue_bufferRows t rows] using List.suffix_rfl
  | kept running positions clear => exact hrun _ _ (fun r => r.setHigh _) rfl fun _ => rfl
  | reverted running positions ambiguous held =>
    exact hrun _ _ (fun r => (r.setHigh _).revertChunk) (Option.map_map ..) fun _ => rfl
  | completed ended => exact hrun _ _ (fun r => r.closeWindow _) rfl fun _ => rfl

theorem Run.mem_of_mem_addTables {r : Run} {now : Int64} {tables : List Table}
    {filters : TextMap String} {t : Table} (h : t ∈ (r.addTables now tables filters).tables) :
    t ∈ r.tables ∨ t ∈ tables := by
  have henqueue (r : Run) (u : Table) (ht : t ∈ (r.enqueue filters u).tables) :
      t ∈ r.tables ∨ t = u := by
    unfold enqueue at ht
    split at ht
    · exact .inl ht
    · simpa using ht
  suffices hall : ∀ r : Run, t ∈ (tables.foldl (Run.enqueue filters) r).tables →
      t ∈ r.tables ∨ t ∈ tables from hall r h
  clear h
  induction tables with
  | nil => exact fun r h => .inl h
  | cons u us ih =>
    intro r h
    rcases ih _ h with h | h
    · exact (henqueue r u h).imp_right fun hu : t = u => hu ▸ List.mem_cons_self
    · exact .inr (List.mem_cons_of_mem _ h)

theorem Coordinator.queue_of_not_running {c : Coordinator} (h : c.isRunning = false) :
    c.queue = [] := by
  cases hr : c.run with
  | none => simp [queue, hr]
  | some r => simpa [queue, hr, isRunning, Run.isRunning] using h

theorem Coordinator.mem_stopTables {c : Coordinator} {now : Int64} {tables : List Table} {t : Table}
    (h : t ∈ (c.stopTables now tables).queue) : t ∈ c.queue ∧ tables ≠ [] ∧ t ∉ tables := by
  have hremoved {r : Run} (hr : c.run = some r) (hne : tables ≠ [])
      (h : t ∈ (r.removeTables now tables).tables) : t ∈ c.queue ∧ tables ≠ [] ∧ t ∉ tables := by
    obtain ⟨hmem, hkept⟩ := List.mem_filter.1 h
    exact ⟨by simpa [queue, hr] using hmem, hne, by simpa using hkept⟩
  rcases c.stopTables_cases now tables with ⟨heq, hended⟩ | ⟨r, hr, -, ⟨-, heq⟩ | ⟨hne, -, heq⟩ |
    ⟨hne, -, heq⟩⟩ <;> rw [heq] at h
  · rw [queue_of_not_running hended] at h
    exact absurd h List.not_mem_nil
  · exact absurd h List.not_mem_nil
  · exact hremoved hr hne h
  · exact hremoved hr hne h

/-- Only a stage that asks for a table queues it. -/
theorem Enters.queue {st : Stage} {p : Phase} {s s' : Session σ} {t : Table}
    (h : Enters env st s p s') (hst : ¬ st.Starts) (ht : t ∈ s'.coordinator.queue) :
    t ∈ s.coordinator.queue ∨ st.Asks t := by
  have hrun (c c' : Coordinator) (f : Run → Run) (hf : c'.run = c.run.map f)
      (htables : ∀ r, (f r).tables = r.tables) (ht : t ∈ c'.queue) : t ∈ c.queue :=
    Coordinator.queue_of_run f hf htables ▸ ht
  cases h with
  | fresh | restored => exact absurd trivial hst
  | enqueued | taken | unpaused stays | unreached stays | passed emit => exact .inl ht
  | added run running | begun run ended =>
    rw [Coordinator.queue, run]
    exact Run.mem_of_mem_addTables ht
  | stopped => exact .inl (Coordinator.mem_stopTables ht).1
  | paused => exact .inl (hrun _ _ (fun r => { r with paused := true }) rfl (fun _ => rfl) ht)
  | pending run pending | resumed run free =>
    rw [Coordinator.queue, run]
    exact .inl ht
  | @noted cmd c w =>
    exact .inl (hrun _ _ (fun r => { r with commandOffset := some cmd.offset }) rfl (fun _ => rfl) ht)
  | @placed rounds e c w stays => exact .inl (hrun _ _ _ (c.moveTo_run e) (fun _ => rfl) ht)
  | closed closes | reached reached =>
    rw [Coordinator.flushing_coordinator] at ht
    exact .inl (hrun _ _ (fun r => r.closeWindow _) rfl (fun _ => rfl) ht)

theorem mem_queue_of_perform {st : Stage} {s s' : Session σ} {u : Unit} {t : Table}
    (h : st.perform env s = .ok u s') (hst : ¬ st.Starts) (ht : t ∈ s'.coordinator.queue) :
    t ∈ s.coordinator.queue ∨ st.Asks t := by
  obtain ⟨p, s₁, henter, hmoves⟩ := perform_enters h
  have hsuffix : s'.coordinator.queue <:+ s₁.coordinator.queue :=
    hmoves.keeps (I := fun _ s' => s'.coordinator.queue <:+ s₁.coordinator.queue)
      (fun hmove hi => hmove.queue.trans hi) List.suffix_rfl
  exact henter.queue hst (hsuffix.subset ht)

end Backfill
