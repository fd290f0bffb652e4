import Backfill.Proofs.Journal

/-! What a run must know of its current table to be taken up again. A coordinator never leaves a run
in any other state. -/
namespace Backfill
open Procedure
variable {σ : Type} {env : Environment σ}

/-- A run that can be taken up again: reading goes on after a key only if the largest key of the
current table is known, which it is not if no table is left. -/
structure Run.Resumable (r : Run) : Prop where
  unread : r.chunk.maximum = none → r.chunk.start = none ∧ r.chunk.stop = none
  ended : r.tables = [] → r.chunk.maximum = none

namespace Run.Resumable
variable {r : Run}

theorem of_eq {r' : Run} (h : r.Resumable) (hc : r'.chunk = r.chunk)
    (ht : r'.tables = r.tables) : r'.Resumable :=
  ⟨hc ▸ h.unread, hc ▸ ht ▸ h.ended⟩

theorem of_empty (h : r.chunk = {}) : r.Resumable :=
  ⟨fun _ => h ▸ ⟨rfl, rfl⟩, fun _ => h ▸ rfl⟩

theorem fresh (token : String) (now : Int64) : (Run.fresh token now).Resumable := of_empty rfl

theorem startChunk (h : r.Resumable) (now : Int64) : (r.startChunk now).Resumable :=
  ⟨fun hm => ⟨(h.unread hm).2, (h.unread hm).2⟩, h.ended⟩

theorem revertChunk (h : r.Resumable) : r.revertChunk.Resumable :=
  ⟨fun hm => ⟨(h.unread hm).1, (h.unread hm).1⟩, h.ended⟩

theorem prepareResume (h : r.Resumable) (now : Int64) : (r.prepareResume now).Resumable :=
  h.revertChunk.of_eq rfl rfl

theorem setMaximum (ht : r.tables ≠ []) (k : Key) : (r.setMaximum k).Resumable :=
  ⟨fun hm => absurd hm (by simp [Run.setMaximum]), fun h => absurd h ht⟩

theorem chunkEndsAt (h : r.Resumable) (hm : r.chunk.maximum.isSome) (k : Key) :
    (r.chunkEndsAt k).Resumable := by
  refine ⟨fun hn => ?_, h.ended⟩
  have hn : r.chunk.maximum = none := hn
  simp [hn] at hm

theorem recordSent (h : r.Resumable) (k : Key) : (r.recordSent k).Resumable :=
  ⟨h.unread, h.ended⟩

theorem addTables (h : r.Resumable) (now : Int64) (tables : List Table)
    (filters : TextMap String) : (r.addTables now tables filters).Resumable := by
  obtain ⟨new, filters', heq⟩ := r.addTables_eq now tables filters
  rw [heq]
  exact ⟨h.unread, fun ht => h.ended (List.append_eq_nil_iff.1 ht).1⟩

theorem removeTables (h : r.Resumable) (now : Int64) (tables : List Table) :
    (r.removeTables now tables).Resumable := by
  cases hcur : r.isCurrentIn tables with
  | true => exact of_empty (by simp [Run.removeTables, Run.touch, hcur])
  | false =>
    obtain ⟨hchunk, hcurrent⟩ := Run.removeTables_of_stays hcur now
    refine ⟨hchunk ▸ h.unread, fun ht => hchunk ▸ h.ended ?_⟩
    rw [Run.currentTable, ht] at hcurrent
    exact List.head?_eq_none_iff.1 hcurrent.symm

end Run.Resumable

def Coordinator.Resumable (c : Coordinator) : Prop := ∀ r, c.run = some r → r.Resumable

namespace Coordinator.Resumable
variable {c : Coordinator}

theorem updateRun {f : Run → Run} (h : c.Resumable)
    (hf : ∀ r, c.run = some r → r.Resumable → (f r).Resumable) : (c.updateRun f).Resumable := by
  intro r hr
  obtain ⟨r', hr', rfl⟩ := Option.map_eq_some_iff.1 hr
  exact hf r' hr' (h r' hr')

private theorem of_run {r : Run} (hr : c.run = some r) (h : r.Resumable) : c.Resumable :=
  fun _ hr' => Option.some.inj (hr.symm.trans hr') ▸ h

theorem move {p q : Phase} {s t : Session σ} (h : Move env p s q t)
    (hs : s.coordinator.Resumable) : t.coordinator.Resumable := by
  cases h with
  | sent emit => exact hs.updateRun fun r _ hr => hr.recordSent _
  | allSent | declined stays | served run tables => exact hs
  | began reads commit positions commit' begins =>
    refine (hs.updateRun fun r _ hr => hr.startChunk _).updateRun fun r _ hr => ?_
    exact hr.of_eq rfl rfl
  | measured run tables unknown maximum =>
    refine hs.updateRun fun r hr _ => ?_
    obtain rfl := Option.some.inj (run.symm.trans hr)
    exact .setMaximum (by simp [tables]) _
  | vacant run tables unknown maximum | exhausted run tables known query =>
    exact hs.updateRun fun r _ _ => .of_empty rfl
  | @buffered c w w' r t ts rows run tables known found query =>
    simp only [Resumable, bufferRows]
    cases (c.buffer.insertAll rows).lastKey? with
    | none => exact hs
    | some k =>
      refine hs.updateRun fun r' hr' hres => ?_
      obtain rfl := Option.some.inj (run.symm.trans hr')
      exact hres.chunkEndsAt known k
  | kept running positions clear => exact hs.updateRun fun r _ hr => hr.of_eq rfl rfl
  | @reverted c w w' executed running positions ambiguous held =>
    have hhigh : (c.updateRun fun r => r.setHigh executed).Resumable :=
      hs.updateRun fun r _ hr => hr.of_eq rfl rfl
    exact hhigh.updateRun fun r _ hr => hr.revertChunk
  | completed ended => exact hs.updateRun fun r _ hr => hr.of_eq rfl rfl

private theorem stopTables (h : c.Resumable) (now : Int64) (tables : List Table) :
    (c.stopTables now tables).Resumable := by
  rcases c.stopTables_cases now tables with ⟨heq, -⟩ | ⟨r, hr, -, ⟨-, heq⟩ | ⟨-, -, heq⟩ |
    ⟨-, -, heq⟩⟩ <;> rw [heq]
  · exact h
  · exact of_run rfl (.of_empty rfl)
  · exact of_run rfl ((h r hr).removeTables _ _)
  · exact of_run rfl ((h r hr).removeTables _ _)

theorem enter {st : Stage} {p : Phase} {s t : Session σ} (h : Enters env st s p t)
    (hst : ∀ rounds r, st = .start rounds (some r) → r.Resumable) (hs : s.coordinator.Resumable) :
    t.coordinator.Resumable := by
  cases h with
  | fresh version accepted positions => exact of_run rfl (.fresh _ _)
  | restored version accepted positions => exact of_run rfl ((hst _ _ rfl).prepareResume _)
  | enqueued | taken | unpaused stays | unreached stays | passed emit => exact hs
  | added run running | begun run ended => exact of_run rfl ((hs _ run).addTables _ _ _)
  | stopped => exact hs.stopTables _ _
  | paused => exact hs.updateRun fun r _ hr => hr.of_eq rfl rfl
  | pending run pending | resumed run free => exact of_run rfl ((hs _ run).of_eq rfl rfl)
  | noted => exact hs.updateRun fun r _ hr => hr.of_eq rfl rfl
  | @placed rounds e c w stays =>
    intro r hr
    rw [moveTo_run] at hr
    obtain ⟨r', hr', rfl⟩ := Option.map_eq_some_iff.1 hr
    exact (hs r' hr').of_eq rfl rfl
  | closed closes | reached reached =>
    rw [flushing_coordinator]
    exact hs.updateRun fun r _ hr => hr.of_eq rfl rfl

theorem perform {st : Stage} {s s' : Session σ} {u : Unit} (h : st.perform env s = .ok u s')
    (hst : ∀ rounds r, st = .start rounds (some r) → r.Resumable) (hs : s.coordinator.Resumable) :
    s'.coordinator.Resumable := by
  obtain ⟨p, t, henter, hmoves⟩ := perform_enters h
  exact hmoves.keeps (I := fun _ s => s.coordinator.Resumable) move (enter henter hst hs)

end Coordinator.Resumable

theorem Command.not_start_mem_stages {rounds rounds' : Nat} {cmd : Command} {restored : Option Run} :
    Stage.start rounds' restored ∉ cmd.stages rounds := by
  unfold Command.stages
  split <;> simp

theorem Request.of_start_mem_stages {req : Request} {c : Coordinator} {n rounds : Nat}
    {restored : Option Run} (h : .start rounds restored ∈ req.stages c n) :
    req = .start rounds restored := by
  cases req with
  | start rounds' restored' =>
    obtain ⟨rfl, rfl⟩ := Stage.start.inj (List.mem_singleton.1 h)
    rfl
  | apply rounds' cmd => exact absurd h Command.not_start_mem_stages
  | process rounds' e =>
    simp only [Request.stages] at h
    split at h
    · obtain ⟨_, h⟩ := Event.exists_of_mem_passStages h
      cases h
    · simp only [List.mem_append, List.mem_cons, List.mem_flatMap, reduceCtorEq, false_or,
        List.cons_append] at h
      obtain ⟨cmd, -, hcmd⟩ | h | h := h
      · exact absurd hcmd Command.not_start_mem_stages
      · cases Event.eq_of_mem_closeStages h
      · obtain ⟨_, h⟩ := Event.exists_of_mem_passStages h
        cases h
  | _ => simp [Request.stages] at h

/-- Whatever is asked of a new coordinator, the run that it leaves can be taken up again, if those
that it was started with could. -/
theorem performAll_resumable {settings : Settings} {commands : Option CommandQueue} {w : σ}
    {reqs : List Request} {s' : Session σ}
    (h : Request.performAll env reqs ⟨{ settings, commands }, w⟩ = .ok () s')
    (hreqs : ∀ rounds r, .start rounds (some r) ∈ reqs → r.Resumable) :
    s'.coordinator.Resumable := by
  obtain ⟨sts, hsts⟩ := performAll_unfolds h
  suffices hall : ∀ {s : Session σ}, Unfolds env s reqs sts s' → s.coordinator.Resumable →
      s'.coordinator.Resumable from hall hsts fun _ hr => absurd hr (by simp)
  clear h hsts
  intro s hsts hs
  induction hsts with
  | nil => exact hs
  | cons windows req_ok done _ ih =>
    refine ih (fun rounds r hmem => hreqs rounds r (List.mem_cons_of_mem _ hmem)) ?_
    refine each_keeps (f := Stage.perform env) (I := fun s => s.coordinator.Resumable)
      (fun st hst _ _ hperform => Coordinator.Resumable.perform hperform ?_) done hs
    rintro rounds r rfl
    exact hreqs rounds r (Request.of_start_mem_stages hst ▸ List.mem_cons_self)

end Backfill
