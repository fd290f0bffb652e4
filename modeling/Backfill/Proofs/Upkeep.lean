import Backfill.Proofs.Attendance

/-! What a request keeps of a table that is followed. While the table may be read, what the sink was
told is measured against all that is committed, and afterwards against what had been committed by
the end of its reading. -/
namespace Backfill
open Procedure Session Environment
variable {σ : Type} {env : Environment σ}

/-- Whether a session may be an earlier state of another: nothing that was committed or sent is
undone. -/
structure Session.Precedes (g : Ledger σ) (s s' : Session (Recorded σ)) : Prop where
  committed : g.committed s.world.world ≤ g.committed s'.world.world
  emitted : s.emitted <+: s'.emitted

namespace Session.Precedes
variable {g : Ledger σ} {admits : String → Row → Prop} {s s₁ s' : Session (Recorded σ)}

theorem refl (g : Ledger σ) (s : Session (Recorded σ)) : s.Precedes g s :=
  ⟨le_rfl, List.prefix_rfl⟩

theorem trans (h : s.Precedes g s₁) (h' : s₁.Precedes g s') : s.Precedes g s' :=
  ⟨h.committed.trans h'.committed, h.emitted.trans h'.emitted⟩

theorem stage {st : Stage} {u : Unit} (serves : env.Serves g admits)
    (h : st.perform env.recorded s = .ok u s') : s.Precedes g s' := by
  obtain ⟨p, s₁, henter, hmoves⟩ := perform_enters h
  refine ⟨?_, emitted_perform h⟩
  have hmoved : g.recorded.committed s₁.world ≤ g.recorded.committed s'.world :=
    hmoves.keeps (I := fun _ s' => g.recorded.committed s₁.world ≤ g.recorded.committed s'.world)
      (fun hmove hi => hi.trans (Move.committed_le serves.recorded hmove)) le_rfl
  refine le_trans ?_ hmoved
  cases henter with
  | fresh version accepted positions | restored version accepted positions =>
    obtain ⟨n, h₁, h₂, -⟩ := serves.recorded.positions positions
    exact (serves.recorded.version version).trans (h₁.trans h₂)
  | passed emit => exact serves.recorded.emit emit
  | _ => exact le_rfl

theorem stages {sts : List Stage} {u : Unit} (serves : env.Serves g admits)
    (h : Stage.performAll env.recorded sts s = .ok u s') : s.Precedes g s' :=
  each_keeps (f := Stage.perform env.recorded) (I := fun s' => s.Precedes g s')
    (fun _ _ _ _ hst hi => hi.trans (stage serves hst)) h (refl g s)

theorem request {req : Request} {u : Unit} (serves : env.Serves g admits)
    (h : req.perform env.recorded s = .ok u s') : s.Precedes g s' := by
  obtain ⟨n, hstages⟩ := perform_stages h
  exact stages serves hstages

end Session.Precedes

/-- The number of transactions after which a table may have been read: all that are committed, or
`late` if its reading is over. -/
def Ledger.horizon (g : Ledger σ) (late : Option Nat) (w : σ) : Nat := late.getD (g.committed w)

theorem Ledger.horizon_mono (g : Ledger σ) (late : Option Nat) {w w' : σ}
    (h : g.committed w ≤ g.committed w') : g.horizon late w ≤ g.horizon late w' := by
  cases late with
  | none => exact h
  | some n => exact le_rfl

/-- What holds in a phase of a session in which a table is followed. -/
structure Session.Attends (g : Ledger σ) (t : Table) (late : Option Nat) (d d' : Nat) (asked : Prop)
    (p : Phase) (s : Session (Recorded σ)) : Prop where
  regular : s.Regular (Command.Allows t) p
  follows : s.coordinator.Follows g t (g.horizon late s.world.world) d d' asked p s.world.world
    s.emitted
  ended : late.isSome → t ∉ s.coordinator.queue

namespace Session.Attends
variable {g : Ledger σ} {admits : String → Row → Prop} {t : Table} {late : Option Nat} {d d' : Nat}
  {asked : Prop} {p q : Phase} {s s' : Session (Recorded σ)} {st : Stage}

theorem of_asked {asked' : Prop} (hs : s.Attends g t late d d' asked p)
    (hasked : asked' → asked ∨ t ∈ s.coordinator.queue) : s.Attends g t late d d' asked' p :=
  ⟨hs.regular, hs.follows.of_asked hasked, hs.ended⟩

theorem move (serves : env.Serves g admits) (h : Move env.recorded p s q s')
    (hs : s.Attends g t late d d' asked p) : s'.Attends g t late d d' asked q := by
  have hcommitted : g.committed s.world.world ≤ g.committed s'.world.world :=
    Move.committed_le serves.recorded h
  have hfollows := hs.follows.mono (g.horizon_mono late hcommitted)
  refine ⟨hs.regular.move h, hfollows.move serves h hs.regular fun hmem => ?_,
    fun hlate hmem => hs.ended hlate (h.queue.subset hmem)⟩
  cases late with
  | none => exact le_rfl
  | some n => exact absurd hmem (hs.ended rfl)

theorem moves (serves : env.Serves g admits) (h : Moves env.recorded p s q s')
    (hs : s.Attends g t late d d' asked p) : s'.Attends g t late d d' asked q :=
  h.keeps (I := fun p s => s.Attends g t late d d' asked p) (move serves) hs

private theorem follows_enter (h : Enters env.recorded st s p s') (hst : st.Allows t)
    (hregular : s'.Regular (Command.Allows t) p) (hs : s.Attends g t late d d asked .idle) :
    s'.coordinator.Follows g t (g.horizon late s'.world.world) d d (asked ∨ st.Asks t) p
      s'.world.world s'.emitted := by
  have hkept {c' : Coordinator} (f : Run → Run) (hrun : c'.run = s.coordinator.run.map f)
      (hf : ∀ r, (f r).chunk = r.chunk ∧ (f r).tables = r.tables ∧ (f r).filters = r.filters ∧
        (f r).watermarks = r.watermarks) (hrows : c'.buffer.rows = s.coordinator.buffer.rows) :
      c'.Follows g t (g.horizon late s.world.world) d d asked .idle s.world.world s.emitted :=
    hs.follows.of_kept f hrun hf hrows
  have hother {p : Phase} {c' : Coordinator} (hno : ¬ st.Asks t)
      (h : c'.Follows g t (g.horizon late s.world.world) d d asked p s.world.world s.emitted) :
      c'.Follows g t (g.horizon late s.world.world) d d (asked ∨ st.Asks t) p s.world.world
        s.emitted :=
    h.of_asked fun ha => .inl (ha.resolve_right hno)
  cases h with
  | fresh version accepted positions | restored version accepted positions => exact hst.elim
  | passed emit => exact hst.elim
  | enqueued | taken | unpaused stays | unreached stays =>
    exact hother id (hkept id (congrFun Option.map_id _).symm (fun _ => ⟨rfl, rfl, rfl, rfl⟩) rfl)
  | @added rounds tables filters c w r run running =>
    refine hs.follows.added run (hs.regular.resumable r run) _ hst ?_ rfl
    obtain ⟨new, filters', heq⟩ := r.addTables_eq (env.recorded.now w) tables filters
    rw [heq]
    refine Coordinator.HoldsSeen.of_eq hs.follows.seen ?_ ?_ rfl
    · cases ht : r.tables with
      | nil => simp [Run.isRunning, ht] at running
      | cons u us => simp [Coordinator.currentTable, Run.currentTable, run, ht]
    · simp [Coordinator.lowMark, run]
  | @begun rounds tables filters c w r run ended =>
    refine (hs.follows.added run (hs.regular.resumable r run) _ hst ?_ rfl).due
    exact .of_empty hregular.consistent.rows
  | stopped => exact hother id (hs.follows.stopped _ hst.1 hst.2)
  | paused =>
    exact hother id (hkept (fun r => { r with paused := true }) rfl (fun _ => ⟨rfl, rfl, rfl, rfl⟩) rfl)
  | @pending rounds c w r run pending =>
    exact hother id (hkept (fun r => { r with paused := false }) (by simp [run])
      (fun _ => ⟨rfl, rfl, rfl, rfl⟩) rfl)
  | @resumed rounds c w r run free =>
    refine hother id (Coordinator.Follows.due ?_)
    exact hkept (fun r => { r with paused := false }) (by simp [run]) (fun _ => ⟨rfl, rfl, rfl, rfl⟩)
      rfl
  | @noted cmd c w =>
    exact hother id (hkept (fun r => { r with commandOffset := some cmd.offset }) rfl
      (fun _ => ⟨rfl, rfl, rfl, rfl⟩) rfl)
  | placed stays => exact hother id (hs.follows.placed hst)
  | closed closes | reached reached =>
    exact hother id (hs.follows.flushed hs.regular.consistent le_rfl hs.follows.delivered _ _ _)


/-- What the beginning of a stage keeps in which no change is delivered. -/
theorem enter (h : Enters env.recorded st s p s') (hst : st.Allows t)
    (hquiet : late.isSome → ¬ st.Asks t) (hs : s.Attends g t late d d asked .idle) :
    s'.Attends g t late d d (asked ∨ st.Asks t) p := by
  have hregular : s'.Regular (Command.Allows t) p :=
    hs.regular.enter h (by rintro rounds r rfl; exact hst.elim) (by rintro cmd rfl; exact hst)
  refine ⟨hregular, follows_enter h hst hregular hs, fun hlate hmem => ?_⟩
  exact (h.queue hst.not_starts hmem).elim (hs.ended hlate) (hquiet hlate)

theorem perform {u : Unit} (serves : env.Serves g admits)
    (h : st.perform env.recorded s = .ok u s') (hst : st.Allows t)
    (hquiet : late.isSome → ¬ st.Asks t) (hs : s.Attends g t late d d asked .idle) :
    s'.Attends g t late d d (asked ∨ st.Asks t) .idle := by
  obtain ⟨p, s₁, henter, hmoves⟩ := perform_enters h
  exact (enter henter hst hquiet hs).moves serves hmoves

theorem performAll {sts : List Stage} (serves : env.Serves g admits)
    (h : Stage.performAll env.recorded sts s = .ok () s') (hsts : ∀ st ∈ sts, st.Allows t)
    (hquiet : late.isSome → ∀ st ∈ sts, ¬ st.Asks t) (hs : s.Attends g t late d d asked .idle) :
    s'.Attends g t late d d (asked ∨ ∃ st ∈ sts, st.Asks t) .idle := by
  induction sts generalizing s asked with
  | nil =>
    obtain rfl := each_nil_eq_ok.1 h
    exact hs.of_asked fun ha => .inl (ha.resolve_right fun ⟨_, hst, _⟩ => List.not_mem_nil hst)
  | cons st sts ih =>
    obtain ⟨s₁, hfirst, hrest⟩ := each_cons_eq_ok.1 h
    have hs₁ := hs.perform serves hfirst (hsts st List.mem_cons_self)
      fun hlate => hquiet hlate st List.mem_cons_self
    have hs' := ih hrest (fun st hst => hsts st (List.mem_cons_of_mem _ hst))
      (fun hlate st hst => hquiet hlate st (List.mem_cons_of_mem _ hst)) hs₁
    refine hs'.of_asked fun ha => .inl ?_
    rcases ha with ha | ⟨st', hst', ha⟩
    · exact .inl (.inl ha)
    · rcases List.mem_cons.1 hst' with rfl | hst'
      · exact .inl (.inr ha)
      · exact .inr ⟨st', hst', ha⟩

/-- The window moves to the position of the next change. -/
theorem placeChange {rounds : Nat} {e : Event} {pos : Position} {ch : Change}
    (serves : env.Serves g admits) (h : (Stage.place rounds e).perform env.recorded s = .ok () s')
    (hch : g.source.changes[d]? = some (pos, ch))
    (hd : d < g.source.boundary (g.committed s.world.world)) (hkind : e.kind = .change ch)
    (hpos : e.position = some pos) (hs : s.Attends g t late d d asked .idle) :
    s'.Attends g t late d (d + 1) asked .idle := by
  obtain ⟨p, s₁, henter, hmoves⟩ := perform_enters h
  have hregular : s₁.Regular (Command.Allows t) p :=
    hs.regular.enter henter (fun _ _ h => absurd h (by simp)) fun _ h => absurd h (by simp)
  refine moves serves hmoves ?_
  cases henter with
  | @placed rounds e c w stays =>
    refine ⟨hregular, hs.follows.placedChange hch hd (fun hmem => ?_) hkind hpos stays, ?_⟩
    · cases late with
      | none => exact le_rfl
      | some n => exact absurd hmem (hs.ended rfl)
    · rw [Coordinator.queue_of_run _ (c.moveTo_run e) fun _ => rfl]
      exact hs.ended
  | closed closes =>
    refine ⟨hregular, hs.follows.flushed hs.regular.consistent (Nat.le_succ d) hd _ _ _, ?_⟩
    rw [Coordinator.flushing_coordinator]
    rw [Coordinator.queue_of_run (fun r => r.closeWindow _) rfl fun _ => rfl]
    exact hs.ended

theorem passChange {e : Event} {pos : Position} {ch : Change} (serves : env.Serves g admits)
    (h : (Stage.pass e ch).perform env.recorded s = .ok () s')
    (hch : g.source.changes[d]? = some (pos, ch)) (hs : s.Attends g t late d (d + 1) asked .idle) :
    s'.Attends g t late (d + 1) (d + 1) asked .idle := by
  obtain ⟨p, s₁, henter, hmoves⟩ := perform_enters h
  have hregular : s₁.Regular (Command.Allows t) p :=
    hs.regular.enter henter (fun _ _ h => absurd h (by simp)) fun _ h => absurd h (by simp)
  refine moves serves hmoves ?_
  cases henter with
  | passed emit =>
    obtain ⟨v, hemit, rfl⟩ := recorded_emit_eq_ok.1 emit
    have hw := serves.emit hemit
    refine ⟨hregular, ?_, hs.ended⟩
    simp only [Session.emitted, Session.journal, List.filterMap_append]
    exact (hs.follows.mono (g.horizon_mono late hw)).passed hch hw rfl rfl

/-- Before there is a run no row is held that the next change may be about. -/
theorem ahead (hs : s.Attends g t late d d asked .idle) (hrun : s.coordinator.run = none)
    (hd : d < g.source.boundary (g.committed s.world.world)) :
    s.Attends g t late d (d + 1) asked .idle := by
  refine ⟨hs.regular, ⟨Nat.le_succ d, hd, hs.follows.told, hs.follows.wanted, fun hcur => ?_,
    fun r hr => absurd hr (by simp [hrun]), hs.follows.unfiltered⟩, hs.ended⟩
  exact absurd hcur (by simp [Coordinator.currentTable, hrun])

theorem wait {w : σ} (hs : s.Attends g t late d d asked .idle)
    (hw : g.committed s.world.world ≤ g.committed w) :
    Session.Attends g t late d d asked .idle ⟨s.coordinator, ⟨w, s.world.journal⟩⟩ :=
  ⟨⟨hs.regular.chunkSize, hs.regular.commands, hs.regular.consistent, hs.regular.resumable⟩,
    (hs.follows.mono (g.horizon_mono late hw)).of_run id (congrFun Option.map_id _).symm
      (fun _ => ⟨rfl, rfl, rfl⟩) (fun _ => rfl) (fun _ => rfl) hw rfl fun h => h,
    hs.ended⟩

/-- Reading is started, or taken up where it was left, by this coordinator or by another. -/
theorem start {rounds : Nat} {c : Coordinator} {u : Unit} (serves : env.Serves g admits)
    (hregular : Session.Regular (Command.Allows t) .idle (⟨c, s.world⟩ : Session (Recorded σ)))
    (h : (Stage.start rounds s.coordinator.run).perform env.recorded ⟨c, s.world⟩ = .ok u s')
    (hs : s.Attends g t late d d asked .idle) : s'.Attends g t late d d asked .idle := by
  obtain ⟨p, s₁, henter, hmoves⟩ := perform_enters h
  have hregular₁ : s₁.Regular (Command.Allows t) p := by
    refine hregular.enter henter (fun rounds r heq => ?_) fun _ h => absurd h (by simp)
    exact hs.regular.resumable r (Stage.start.inj heq).2
  refine moves serves hmoves ?_
  generalize hrun : s.coordinator.run = restored at henter
  cases henter with
  | fresh version accepted positions =>
    obtain ⟨v₁, hversion, rfl⟩ := recorded_version_eq_ok.1 version
    obtain ⟨v₂, hpositions, rfl⟩ := recorded_positions_eq_ok.1 positions
    obtain ⟨n, h₁, h₂, -⟩ := serves.positions hpositions
    have hw := (serves.version hversion).trans (h₁.trans h₂)
    refine ⟨hregular₁, ?_, fun _ => List.not_mem_nil⟩
    simp only [Session.emitted, Session.journal]
    rw [Answer.sent_snoc rfl]
    exact (hs.follows.mono (g.horizon_mono late hw)).started hrun hw _
  | @restored _ _ _ _ _ _ _ r version accepted positions =>
    obtain ⟨v₁, hversion, rfl⟩ := recorded_version_eq_ok.1 version
    obtain ⟨v₂, hpositions, rfl⟩ := recorded_positions_eq_ok.1 positions
    obtain ⟨n, h₁, h₂, -⟩ := serves.positions hpositions
    have hw := (serves.version hversion).trans (h₁.trans h₂)
    refine ⟨hregular₁, ?_, fun hlate => ?_⟩
    · simp only [Session.emitted, Session.journal]
      rw [Answer.sent_snoc rfl]
      exact (hs.follows.mono (g.horizon_mono late hw)).restarted hrun hw _
    · have hover := hs.ended hlate
      rw [Coordinator.queue, hrun] at hover
      exact hover

end Session.Attends

def Command.Asks (t : Table) (cmd : Command) : Prop := cmd.action = .execute ∧ t ∈ cmd.tables

namespace Request

/-- Whether a request that delivers no change neither takes a table off the queue nor gives it a
filter. A coordinator that has a run is only started with this run. -/
def Allows (t : Table) (c : Coordinator) : Request → Prop
  | .start _ restored => restored = c.run
  | .enqueue cmd | .apply _ cmd => cmd.Allows t
  | .add _ tables filters => Unfiltered t tables filters
  | .stop tables => tables ≠ [] ∧ t ∉ tables
  | .pause | .resume _ => True
  | .process _ e => ∀ change, e.kind ≠ .change change

def Asks (t : Table) (c : Coordinator) : Request → Prop
  | .add _ tables _ => t ∈ tables
  | .apply _ cmd => cmd.Asks t
  | .process .. => c.run.isSome ∧ ∃ cmd ∈ c.pending, cmd.Asks t
  | _ => False

end Request

namespace Command
variable {t : Table} {cmd : Command} {rounds : Nat}

theorem allows_of_mem_stages {st : Stage} (h : st ∈ cmd.stages rounds) (hcmd : cmd.Allows t) :
    st.Allows t := by
  cases hact : cmd.action <;>
  · simp only [stages, hact, List.mem_cons, List.not_mem_nil, or_false] at h
    simp only [Allows, hact] at hcmd
    rcases h with rfl | rfl
    · exact hcmd
    · trivial

theorem asks_iff_stages (rounds : Nat) : cmd.Asks t ↔ ∃ st ∈ cmd.stages rounds, st.Asks t := by
  cases hact : cmd.action <;> simp [Asks, stages, hact, Stage.Asks]

/-- A table is queued in the stages of commands if it is by one of them. -/
theorem asks_iff_allStages (rounds : Nat) {cmds : List Command} : (∃ cmd ∈ cmds, cmd.Asks t) ↔
    ∃ st ∈ .take :: cmds.flatMap (stages rounds), st.Asks t := by
  simp only [asks_iff_stages rounds, List.exists_mem_cons_iff, List.mem_flatMap,
    Stage.Asks, false_or]
  exact ⟨fun ⟨cmd, hcmd, st, hst, h⟩ => ⟨st, ⟨cmd, hcmd, hst⟩, h⟩,
    fun ⟨st, ⟨cmd, hcmd, hst⟩, h⟩ => ⟨cmd, hcmd, st, hst, h⟩⟩

end Command

namespace Session.Attends
variable {g : Ledger σ} {admits : String → Row → Prop} {t : Table} {late : Option Nat} {d : Nat}
  {asked : Prop} {s s' : Session (Recorded σ)}

private theorem takes {rounds : Nat} (serves : env.Serves g admits)
    (h : Stage.performAll env.recorded
      (.take :: s.coordinator.pending.flatMap (Command.stages rounds)) s = .ok () s')
    (hquiet : late.isSome → ¬ ∃ cmd ∈ s.coordinator.pending, cmd.Asks t)
    (hs : s.Attends g t late d d asked .idle) :
    s'.Attends g t late d d (asked ∨ ∃ cmd ∈ s.coordinator.pending, cmd.Asks t) .idle := by
  rw [Command.asks_iff_allStages rounds] at hquiet ⊢
  refine hs.performAll serves h (fun st hst => ?_) fun hlate st hst ha => hquiet hlate ⟨st, hst, ha⟩
  rcases List.mem_cons.1 hst with rfl | hst
  · trivial
  · obtain ⟨cmd, hcmd, hst⟩ := List.mem_flatMap.1 hst
    exact Command.allows_of_mem_stages hst (hs.regular.commands cmd hcmd)

private theorem unit {rounds : Nat} {e : Event} (serves : env.Serves g admits)
    (h : (Request.process rounds e).perform env.recorded s = .ok () s')
    (he : ∀ change, e.kind ≠ .change change)
    (hquiet : late.isSome → ¬ (Request.process rounds e).Asks t s.coordinator)
    (hs : s.Attends g t late d d asked .idle) :
    s'.Attends g t late d d (asked ∨ (Request.process rounds e).Asks t s.coordinator) .idle := by
  have hpass : e.passStages = [] := by
    unfold Event.passStages
    split
    · rename_i change hkind
      exact absurd hkind (he change)
    · rfl
  obtain ⟨n, hstages⟩ := perform_stages h
  simp only [Request.stages, hpass, List.append_nil] at hstages
  cases hrun : s.coordinator.run with
  | none =>
    simp only [hrun, Option.isNone_none, if_true] at hstages
    obtain rfl := each_nil_eq_ok.1 hstages
    exact hs.of_asked fun ha => .inl (ha.resolve_right fun hasks => absurd hasks.1 (by simp [hrun]))
  | some r =>
    simp only [Request.Asks, hrun, Option.isSome_some, true_and] at hquiet ⊢
    simp only [hrun, Option.isNone_some, Bool.false_eq_true, if_false] at hstages
    obtain ⟨s₁, htakes, hrest⟩ := each_append_eq_ok.1 hstages
    have hs₁ := hs.takes serves htakes hquiet
    have hsts {st : Stage} (hst : st ∈ .place rounds e :: e.closeStages rounds n) :
        st.Allows t ∧ ¬ st.Asks t := by
      rcases List.mem_cons.1 hst with rfl | hst
      · exact ⟨he, id⟩
      · exact Event.eq_of_mem_closeStages hst ▸ ⟨trivial, id⟩
    have hs' := hs₁.performAll serves hrest (fun st hst => (hsts hst).1) fun _ st hst => (hsts hst).2
    exact hs'.of_asked fun ha => .inl (.inl ha)

/-- What the next change keeps when it is delivered. -/
theorem deliver {rounds : Nat} {e : Event} {pos : Position} {ch : Change}
    (serves : env.Serves g admits)
    (h : (Request.process rounds e).perform env.recorded s = .ok () s')
    (hch : g.source.changes[d]? = some (pos, ch))
    (hd : d < g.source.boundary (g.committed s.world.world)) (hkind : e.kind = .change ch)
    (hpos : e.position = some pos)
    (hquiet : late.isSome → ¬ (Request.process rounds e).Asks t s.coordinator)
    (hs : s.Attends g t late d d asked .idle) :
    s'.Attends g t late (d + 1) (d + 1) (asked ∨ (Request.process rounds e).Asks t s.coordinator)
      .idle := by
  obtain ⟨n, hstages⟩ := perform_stages h
  simp only [Request.stages, Event.closeStages, Event.passStages, hkind] at hstages
  cases hrun : s.coordinator.run with
  | none =>
    simp only [hrun, Option.isNone_none, if_true] at hstages
    obtain ⟨s₁, hpass, hrest⟩ := each_cons_eq_ok.1 hstages
    obtain rfl := each_nil_eq_ok.1 hrest
    have hs' := (hs.ahead hrun hd).passChange serves hpass hch
    exact hs'.of_asked fun ha => .inl (ha.resolve_right fun hasks => absurd hasks.1 (by simp [hrun]))
  | some r =>
    simp only [Request.Asks, hrun, Option.isSome_some, true_and] at hquiet ⊢
    simp only [hrun, Option.isNone_some, Bool.false_eq_true, if_false] at hstages
    obtain ⟨s₁, htakes, hrest⟩ := each_append_eq_ok.1 hstages
    obtain ⟨s₂, hplace, hrest⟩ := each_cons_eq_ok.1 hrest
    obtain ⟨s₃, hpass, hrest⟩ := each_cons_eq_ok.1 hrest
    obtain rfl := each_nil_eq_ok.1 hrest
    have hd₁ : d < g.source.boundary (g.committed s₁.world.world) :=
      hd.trans_le (g.source.boundary_mono (Precedes.stages serves htakes).committed)
    exact ((hs.takes serves htakes hquiet).placeChange serves hplace hch hd₁ hkind hpos).passChange
      serves hpass hch

theorem request {req : Request} (serves : env.Serves g admits)
    (h : req.perform env.recorded s = .ok () s') (hreq : req.Allows t s.coordinator)
    (hquiet : late.isSome → ¬ req.Asks t s.coordinator) (hs : s.Attends g t late d d asked .idle) :
    s'.Attends g t late d d (asked ∨ req.Asks t s.coordinator) .idle := by
  cases req with
  | start rounds restored =>
    obtain rfl : restored = s.coordinator.run := hreq
    exact (hs.start serves hs.regular h).of_asked fun ha => .inl (ha.resolve_right id)
  | enqueue cmd | add rounds tables filters | stop tables | pause | resume rounds =>
    obtain ⟨n, hstages⟩ := perform_stages h
    obtain ⟨s₁, hstage, hnil⟩ := each_cons_eq_ok.1 hstages
    obtain rfl := each_nil_eq_ok.1 hnil
    exact hs.perform serves hstage hreq hquiet
  | apply rounds cmd =>
    simp only [Request.Asks, Command.asks_iff_stages rounds] at hquiet ⊢
    exact hs.performAll serves (apply_stages h) (fun st hst => Command.allows_of_mem_stages hst hreq)
      fun hlate st hst ha => hquiet hlate ⟨st, hst, ha⟩
  | process rounds e => exact hs.unit serves h hreq hquiet

end Session.Attends
end Backfill
