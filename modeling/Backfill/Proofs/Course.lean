import Backfill.Proofs.Upkeep
import Mathlib.Logic.Relation

/-! A coordinator beside the stream of the changes of its database. Transactions are committed,
changes are delivered late, requests are made and the coordinator is restarted in any order. Once a
table was read, the sink has this table whenever the stream has caught up. -/
namespace Backfill
open Procedure Session Environment
variable {σ : Type}

/-- A session, and the number of changes that the stream has delivered. -/
structure Scene (σ : Type) where
  session : Session (Recorded σ)
  delivered : Nat

inductive Happening where
  | wait
  | ask (req : Request)
  | deliver (rounds : Nat) (e : Event)
  | restart (rounds : Nat) (settings : Settings) (commands : Option CommandQueue)

def Happening.Asks (t : Table) (c : Coordinator) : Happening → Prop
  | .ask req => req.Asks t c
  | .deliver rounds e => (Request.process rounds e).Asks t c
  | _ => False

def Scene.committed (g : Ledger σ) (s : Scene σ) : Nat := g.committed s.session.world.world

/-- What happens. Nothing that is asked for takes the table off the queue or gives it a filter. -/
inductive Happens (env : Environment σ) (g : Ledger σ) (t : Table) :
    Happening → Scene σ → Scene σ → Prop
  | waited {c w w' j d} (more : g.committed w ≤ g.committed w') :
      Happens env g t .wait ⟨⟨c, ⟨w, j⟩⟩, d⟩ ⟨⟨c, ⟨w', j⟩⟩, d⟩
  | asked {req s s' d} (done : req.perform env.recorded s = .ok () s')
      (allowed : req.Allows t s.coordinator) : Happens env g t (.ask req) ⟨s, d⟩ ⟨s', d⟩
  | delivered {rounds e pos ch s s' d} (next : g.source.changes[d]? = some (pos, ch))
      (committed : d < g.source.boundary (g.committed s.world.world)) (kind : e.kind = .change ch)
      (position : e.position = some pos)
      (done : (Request.process rounds e).perform env.recorded s = .ok () s') :
      Happens env g t (.deliver rounds e) ⟨s, d⟩ ⟨s', d + 1⟩
  | restarted {rounds settings commands s s' d} (size : settings.chunkSize ≠ 0)
      (allowed : ∀ q, commands = some q → ∀ cmd ∈ q.pending, cmd.Allows t)
      (done : (Request.start rounds s.coordinator.run).perform env.recorded
        ⟨{ settings, commands }, s.world⟩ = .ok () s') :
      Happens env g t (.restart rounds settings commands) ⟨s, d⟩ ⟨s', d⟩

def Course (env : Environment σ) (g : Ledger σ) (t : Table) : Scene σ → Scene σ → Prop :=
  Relation.ReflTransGen fun s s' => ∃ h, Happens env g t h s s'

def QuietCourse (env : Environment σ) (g : Ledger σ) (t : Table) : Scene σ → Scene σ → Prop :=
  Relation.ReflTransGen fun s s' => ∃ h, Happens env g t h s s' ∧ ¬ h.Asks t s.session.coordinator

/-- What holds of a scene in which a table is followed. -/
abbrev Scene.Attends (g : Ledger σ) (t : Table) (late : Option Nat) (asked : Prop) (s : Scene σ) :
    Prop :=
  s.session.Attends g t late s.delivered s.delivered asked .idle

section Courses
variable {env : Environment σ} {g : Ledger σ} {admits : String → Row → Prop} {t : Table}
  {late : Option Nat} {asked : Prop} {h : Happening} {s s' : Scene σ}

theorem Happens.attends (serves : env.Serves g admits) (hturn : Happens env g t h s s')
    (hquiet : late.isSome → ¬ h.Asks t s.session.coordinator) (hs : s.Attends g t late asked) :
    s'.Attends g t late (asked ∨ h.Asks t s.session.coordinator) := by
  cases hturn with
  | waited more => exact (Session.Attends.wait hs more).of_asked fun ha => .inl (ha.resolve_right id)
  | asked done allowed => exact Session.Attends.request serves done allowed hquiet hs
  | delivered next committed kind position done =>
    exact Session.Attends.deliver serves done next committed kind position hquiet hs
  | restarted size allowed done =>
    refine (Session.Attends.start serves ?_ done hs).of_asked fun ha => .inl (ha.resolve_right id)
    exact .initial size allowed

theorem Happens.precedes (serves : env.Serves g admits) (hturn : Happens env g t h s s') :
    s.session.Precedes g s'.session := by
  cases hturn with
  | waited more => exact ⟨more, List.prefix_rfl⟩
  | asked done allowed => exact .request serves done
  | delivered next committed kind position done => exact .request serves done
  | restarted size allowed done =>
    have hprecedes := Session.Precedes.request serves done
    exact ⟨hprecedes.committed, hprecedes.emitted⟩

theorem Course.attends (serves : env.Serves g admits) (hcourse : Course env g t s s')
    (hs : s.Attends g t none asked) : s'.Attends g t none asked := by
  induction hcourse with
  | refl => exact hs
  | tail _ hturn ih =>
    obtain ⟨h, hturn⟩ := hturn
    have hs' := hturn.attends serves (fun hlate => absurd hlate (by simp)) ih
    exact hs'.of_asked fun ha => .inl (.inl ha)

theorem Course.precedes (serves : env.Serves g admits) (hcourse : Course env g t s s') :
    s.session.Precedes g s'.session := by
  induction hcourse with
  | refl => exact .refl g s.session
  | tail _ hturn ih =>
    obtain ⟨h, hturn⟩ := hturn
    exact ih.trans (hturn.precedes serves)

theorem QuietCourse.attends (serves : env.Serves g admits) (hcourse : QuietCourse env g t s s')
    (hs : s.Attends g t late asked) : s'.Attends g t late asked := by
  induction hcourse with
  | refl => exact hs
  | tail _ hturn ih =>
    obtain ⟨h, hturn, hquiet⟩ := hturn
    exact (hturn.attends serves (fun _ => hquiet) ih).of_asked fun ha => .inl (.inl ha)

def Scene.first (settings : Settings) (commands : Option CommandQueue) (w : σ) : Scene σ :=
  ⟨⟨{ settings, commands }, ⟨w, []⟩⟩, 0⟩

theorem Scene.first_attends {settings : Settings} {commands : Option CommandQueue} {w : σ}
    (hsize : settings.chunkSize ≠ 0)
    (hcommands : ∀ q, commands = some q → ∀ cmd ∈ q.pending, cmd.Allows t) :
    (Scene.first settings commands w).Attends g t none False := by
  refine ⟨.initial hsize hcommands, ⟨le_rfl, Nat.zero_le _, ⟨?_, ?_⟩, False.elim, .of_empty rfl, ?_,
    ?_⟩, fun hlate => absurd hlate (by simp)⟩
  · exact fun i p ch hi => absurd hi (Nat.not_lt_zero i)
  · rintro k ⟨e, he, -⟩
    exact absurd he List.not_mem_nil
  · exact fun r hr => absurd hr (by simp [Scene.first])
  · exact fun r hr => absurd hr (by simp [Scene.first])

/-- A table that was asked for and is no longer queued was read: from then on the sink has it
whenever all that is committed is delivered, and unless it is asked for again, as soon as that is
delivered which was committed by then. -/
theorem course_reconstructs {settings : Settings} {commands : Option CommandQueue} {w : σ}
    {s₀ s₁ s₂ : Scene σ} (serves : env.Serves g admits) (hsize : settings.chunkSize ≠ 0)
    (hcommands : ∀ q, commands = some q → ∀ cmd ∈ q.pending, cmd.Allows t)
    (hfirst : Course env g t (.first settings commands w) s₀) (hturn : Happens env g t h s₀ s₁)
    (hasks : h.Asks t s₀.session.coordinator) (hreads : Course env g t s₁ s₂)
    (hover : t ∉ s₂.session.coordinator.queue) :
    (∀ s, Course env g t s₂ s → g.source.boundary (s.committed g) ≤ s.delivered →
      replay t s.session.emitted = g.source.tableAt (s.committed g) t) ∧
    ∀ s, QuietCourse env g t s₂ s → g.source.boundary (s₂.committed g) ≤ s.delivered →
      replay t s.session.emitted = g.source.after s.delivered t := by
  have hs₀ := hfirst.attends serves (Scene.first_attends hsize hcommands)
  have hs₁ := hturn.attends serves (fun hlate => absurd hlate (by simp)) hs₀
  have hs₂ := hreads.attends serves hs₁
  have hsettled := (hs₂.follows.wanted (.inr hasks)).resolve_left hover
  constructor
  · intro s hcourse hcaught
    have hs := hcourse.attends serves hs₂
    have hprecedes := hcourse.precedes serves
    have hboundary : s.delivered = g.source.boundary (s.committed g) :=
      le_antisymm hs.follows.delivered hcaught
    rw [Source.tableAt, ← hboundary]
    refine hs.follows.told.replay_eq (fun k => ?_) hcaught
    exact hs.follows.told.settled_of_prefix (hsettled k) hprecedes.committed hprecedes.emitted
  · intro s hcourse hcaught
    have hlate : s₂.Attends g t (some (s₂.committed g)) True :=
      ⟨hs₂.regular, hs₂.follows.of_asked fun _ => .inl (.inr hasks), fun _ => hover⟩
    have hs := hcourse.attends serves hlate
    exact hs.follows.told.replay_eq ((hs.follows.wanted trivial).resolve_left (hs.ended rfl)) hcaught

end Courses

namespace Rehearsal

structure Counts where
  began : Nat
  since : Nat

def rowsAt (src : Source) (keys : List Key) (n : Nat) (t : Table) : List Row :=
  keys.filterMap fun k => (src.tableAt n t k).map (Row.mk k)

def executedAt (src : Source) (n : Nat) : PositionSet :=
  (src.log.take n).foldl (fun set tr => set.insert tr.position) .empty

def busy (src : Source) (keys : List Key) : Environment Counts where
  serverVersion w := (.ok "8.0.34-log", w)
  executedPositions w := (.ok (executedAt src (w.began + w.since)), w)
  beginRead w := (.ok (), ⟨w.began + w.since, 0⟩)
  commit w := (.ok (), w)
  maximumKey t w := (.ok ((rowsAt src keys (w.began + w.since) t).getLast?.map Row.key), w)
  rangeQuery q w := (.ok (((rowsAt src keys (w.began + w.since + 1) q.table).filter fun r =>
    q.within r.key).take q.limit), ⟨w.began, w.since + 1⟩)
  emit _ w := (.ok (), w)
  isInterrupted _ := false
  now _ := 0
  freshToken _ := "busy"

def busyLedger (src : Source) : Ledger Counts := ⟨src, fun w => w.began + w.since, Counts.began⟩

section
variable {src : Source} {keys : List Key} {n : Nat} {t : Table}

theorem rowsAt_ascending (hkeys : keys.Pairwise (· < ·)) :
    (rowsAt src keys n t).Pairwise fun a b => a.key < b.key := by
  refine List.Pairwise.filterMap _ (fun k k' hlt row hrow row' hrow' => ?_) hkeys
  obtain ⟨data, -, rfl⟩ := Option.map_eq_some_iff.1 hrow
  obtain ⟨data', -, rfl⟩ := Option.map_eq_some_iff.1 hrow'
  exact hlt

theorem mem_rowsAt {row : Row} : row ∈ rowsAt src keys n t ↔
    row.key ∈ keys ∧ src.tableAt n t row.key = some row.data := by
  simp only [rowsAt, List.mem_filterMap, Option.map_eq_some_iff]
  constructor
  · rintro ⟨k, hk, data, hdata, rfl⟩
    exact ⟨hk, hdata⟩
  · exact fun ⟨hk, hdata⟩ => ⟨row.key, hk, row.data, hdata, rfl⟩

theorem contentsOf_rowsAt (hkeys : keys.Pairwise (· < ·))
    (hall : ∀ k, src.tableAt n t k ≠ none → k ∈ keys) :
    ChunkQuery.contentsOf (rowsAt src keys n t) = src.tableAt n t := by
  funext k
  refine Option.ext fun data => ?_
  have hmem : ChunkQuery.contentsOf (rowsAt src keys n t) k = some data ↔
      (⟨k, data⟩ : Row) ∈ rowsAt src keys n t :=
    ChunkQuery.contentsOf_eq_some (rowsAt_ascending hkeys) ⟨k, data⟩
  rw [mem_rowsAt] at hmem
  refine hmem.trans ⟨fun h => h.2, fun h => ⟨hall k ?_, h⟩⟩
  rw [h]
  exact Option.some_ne_none data

theorem hasLargest_rowsAt (hkeys : keys.Pairwise (· < ·))
    (hall : ∀ k, src.tableAt n t k ≠ none → k ∈ keys) :
    (src.tableAt n t).HasLargest ((rowsAt src keys n t).getLast?.map Row.key) := by
  have hmem {k : Key} (hk : src.tableAt n t k ≠ none) : ∃ row ∈ rowsAt src keys n t, row.key = k := by
    obtain ⟨data, hdata⟩ := Option.ne_none_iff_exists'.1 hk
    exact ⟨⟨k, data⟩, mem_rowsAt.2 ⟨hall k hk, hdata⟩, rfl⟩
  cases hlast : (rowsAt src keys n t).getLast? with
  | none =>
    intro k
    by_contra hk
    obtain ⟨row, hrow, -⟩ := hmem hk
    rw [List.getLast?_eq_none_iff.1 hlast] at hrow
    exact absurd hrow List.not_mem_nil
  | some last =>
    obtain ⟨rows, hrows⟩ := List.getLast?_eq_some_iff.1 hlast
    have hascending : (rows ++ [last]).Pairwise fun a b => a.key < b.key :=
      hrows ▸ rowsAt_ascending hkeys
    refine ⟨?_, fun k hk => ?_⟩
    · rw [(mem_rowsAt.1 (List.mem_of_getLast? hlast)).2]
      exact Option.some_ne_none _
    · obtain ⟨row, hrow, rfl⟩ := hmem hk
      rw [hrows] at hrow
      rcases List.mem_append.1 hrow with hrow | hrow
      · exact le_of_lt ((List.pairwise_append.1 hascending).2.2 row hrow last (by simp))
      · exact le_of_eq (congrArg Row.key (List.mem_singleton.1 hrow))

theorem busy_serves (hkeys : keys.Pairwise (· < ·))
    (hall : ∀ n t k, src.tableAt n t k ≠ none → k ∈ keys)
    (hmarks : ∀ n, src.Marks n (executedAt src n)) :
    (busy src keys).Serves (busyLedger src) fun _ _ => True where
  version h := by
    obtain ⟨-, rfl⟩ := Prod.mk.inj h
    exact le_rfl
  commit h := by
    obtain ⟨-, rfl⟩ := Prod.mk.inj h
    exact le_rfl
  emit h := by
    obtain ⟨-, rfl⟩ := Prod.mk.inj h
    exact le_rfl
  positions h := by
    obtain ⟨hexecuted, rfl⟩ := Prod.mk.inj h
    obtain rfl := Except.ok.inj hexecuted
    exact ⟨_, le_rfl, le_rfl, hmarks _⟩
  begins h := by
    obtain ⟨-, rfl⟩ := Prod.mk.inj h
    exact ⟨le_rfl, Nat.le_add_right _ _⟩
  maximum h := by
    obtain ⟨hmaximum, rfl⟩ := Prod.mk.inj h
    obtain rfl := Except.ok.inj hmaximum
    exact ⟨le_rfl, rfl, _, Nat.le_add_right _ _, le_rfl, hasLargest_rowsAt hkeys (hall _ _)⟩
  query {q rows w w'} h := by
    obtain ⟨hrows, rfl⟩ := Prod.mk.inj h
    obtain rfl := Except.ok.inj hrows
    refine ⟨Nat.le_succ _, rfl, w.began + w.since + 1, by simp [busyLedger]; omega, le_rfl, ?_⟩
    rw [show (busyLedger src).source = src from rfl, ← contentsOf_rowsAt hkeys (hall _ _)]
    exact ChunkQuery.firstRows_take (rowsAt_ascending hkeys) fun _ _ _ => trivial

end

def threeKeys : List Key := [⟨[.int 1]⟩, ⟨[.int 2]⟩, ⟨[.int 3]⟩]

def orders : Table := ⟨"d", "a"⟩

def paid : Change := ⟨orders, .update, ⟨[.int 1]⟩, some (.bool true)⟩

def cancelled : Change := ⟨orders, .delete, ⟨[.int 2]⟩, none⟩

/-- One row is changed and another one deleted in a single transaction. -/
def settlement : Source where
  initial _ k := if k ∈ threeKeys then some .null else none
  log := [⟨⟨"s", 1⟩, [paid, cancelled]⟩]

theorem settlement_keys {n : Nat} {t : Table} {k : Key} (hk : settlement.tableAt n t k ≠ none) :
    k ∈ threeKeys := by
  by_contra hnot
  have hchanges : ∀ ch ∈ settlement.changes, ch.2.key ∈ threeKeys := by decide
  refine hk ((Source.after_eq_initial fun i p ch _ hch ⟨_, hkey⟩ => hnot ?_).trans (if_neg hnot))
  exact hkey ▸ hchanges _ (List.mem_of_getElem? hch)

theorem settlement_marks (n : Nat) : settlement.Marks n (executedAt settlement n) := by
  intro i tr htr
  cases i with
  | succ i => exact absurd htr (by simp [settlement])
  | zero =>
    obtain rfl := Option.some.inj htr
    cases n with
    | zero => decide
    | succ n =>
      have hcontains : (executedAt settlement 1).contains ⟨"s", 1⟩ = true := by decide
      simp only [executedAt, settlement, List.take_succ_cons, List.take_nil] at hcontains ⊢
      exact iff_of_true hcontains n.succ_pos

theorem settlement_boundary {n : Nat} (hn : 1 ≤ n) : 2 ≤ settlement.boundary n := by
  have hone : settlement.boundary 1 = 2 := by decide
  exact hone ▸ settlement.boundary_mono hn

def office : Environment Counts := busy settlement threeKeys

theorem office_serves : office.Serves (busyLedger settlement) fun _ _ => True :=
  busy_serves (by decide) (fun _ _ _ => settlement_keys) settlement_marks

def settlementRequests : List Request :=
  [.start 9 none, .add 9 [orders] .empty, .process 9 (unit 1 (.change paid)),
    .process 9 (unit 1 (.change cancelled)), .process 9 (unit 1 .heartbeat)]

theorem settlement_course {s₁ s' : Session (Recorded Counts)}
    (h₁ : Request.performAll office.recorded [.start 9 none, .add 9 [orders] .empty]
      ⟨{ settings := { chunkSize := 2 } }, ⟨⟨0, 0⟩, []⟩⟩ = .ok () s₁)
    (hcommitted : (busyLedger settlement).committed s₁.world.world = 1)
    (h : Request.performAll office.recorded settlementRequests
      ⟨{ settings := { chunkSize := 2 } }, ⟨⟨0, 0⟩, []⟩⟩ = .ok () s') :
    ∃ s₀, Course office (busyLedger settlement) orders (.first { chunkSize := 2 } none ⟨0, 0⟩)
        ⟨s₀, 0⟩ ∧
      Happens office (busyLedger settlement) orders (.ask (.add 9 [orders] .empty)) ⟨s₀, 0⟩ ⟨s₁, 0⟩ ∧
      Course office (busyLedger settlement) orders ⟨s₁, 0⟩ ⟨s', 2⟩ := by
  obtain ⟨s₀, hstart, hrest⟩ := each_cons_eq_ok.1 h
  obtain ⟨t₀, hstart₁, hrest₁⟩ := each_cons_eq_ok.1 h₁
  obtain rfl := eq_of_eq_ok hstart hstart₁
  obtain ⟨t₁, hadd, hrest⟩ := each_cons_eq_ok.1 hrest
  obtain ⟨t, hadd₁, hnil⟩ := each_cons_eq_ok.1 hrest₁
  obtain rfl := each_nil_eq_ok.1 hnil
  obtain rfl := eq_of_eq_ok hadd hadd₁
  obtain ⟨s₂, hpaid, hrest⟩ := each_cons_eq_ok.1 hrest
  obtain ⟨s₃, hcancelled, hrest⟩ := each_cons_eq_ok.1 hrest
  obtain ⟨s₄, hheartbeat, hnil⟩ := each_cons_eq_ok.1 hrest
  obtain rfl := each_nil_eq_ok.1 hnil
  have hfull {s : Session (Recorded Counts)} (hs : t₁.Precedes (busyLedger settlement) s) :
      2 ≤ settlement.boundary ((busyLedger settlement).committed s.world.world) :=
    settlement_boundary (hcommitted.ge.trans hs.committed)
  have hone : Happens office (busyLedger settlement) orders _ ⟨t₁, 0⟩ ⟨s₂, 1⟩ :=
    .delivered rfl (Nat.two_pos.trans_le (hfull (.refl _ _))) rfl rfl hpaid
  have htwo : Happens office (busyLedger settlement) orders _ ⟨s₂, 1⟩ ⟨s₃, 2⟩ :=
    .delivered rfl (hfull (.request office_serves hpaid)) rfl rfl hcancelled
  have hthree : Happens office (busyLedger settlement) orders _ ⟨s₃, 2⟩ ⟨s₄, 2⟩ :=
    .asked hheartbeat fun _ hkind => absurd hkind (by simp [unit])
  exact ⟨s₀, .single ⟨_, .asked hstart rfl⟩, .asked hadd fun _ _ _ => rfl,
    .tail (.tail (.single ⟨_, hone⟩) ⟨_, htwo⟩) ⟨_, hthree⟩⟩

/-- The row that the transaction changes is dropped from the first chunk, and the row that it deletes
was not found. -/
theorem settlement_reconstructed : ∃ s' : Session (Recorded Counts),
    Request.performAll office.recorded settlementRequests
      ⟨{ settings := { chunkSize := 2 } }, ⟨⟨0, 0⟩, []⟩⟩ = .ok () s' ∧
    s'.emitted.map (fun e => (e.record.operation, e.record.key)) =
      [(.update, ⟨[.int 1]⟩), (.delete, ⟨[.int 2]⟩), (.read, ⟨[.int 3]⟩)] ∧
    replay orders s'.emitted = settlement.tableAt 2 orders := by
  obtain ⟨s₁, h₁, hfirst⟩ := exists_of_endsIn
    (x := Request.performAll office.recorded [.start 9 none, .add 9 [orders] .empty])
    (s := ⟨{ settings := { chunkSize := 2 } }, ⟨⟨0, 0⟩, []⟩⟩)
    (p := fun s => (busyLedger settlement).committed s.world.world = 1) (by decide +kernel)
  obtain ⟨s', h, hlast⟩ := exists_of_endsIn
    (x := Request.performAll office.recorded settlementRequests)
    (s := ⟨{ settings := { chunkSize := 2 } }, ⟨⟨0, 0⟩, []⟩⟩)
    (p := fun s => s.emitted.map (fun e => (e.record.operation, e.record.key)) =
        [(.update, ⟨[.int 1]⟩), (.delete, ⟨[.int 2]⟩), (.read, ⟨[.int 3]⟩)] &&
      s.coordinator.queue = [] && (busyLedger settlement).committed s.world.world = 2)
    (by decide +kernel)
  simp only [Bool.and_eq_true, decide_eq_true_eq] at hfirst hlast
  obtain ⟨⟨hrecords, hqueue⟩, hcommitted⟩ := hlast
  obtain ⟨s₀, hbegin, hadd, hreads⟩ := settlement_course h₁ hfirst h
  refine ⟨s', h, hrecords, ?_⟩
  have hend : Scene.committed (busyLedger settlement) ⟨s', 2⟩ = 2 := hcommitted
  rw [← hend]
  refine (course_reconstructs office_serves (by decide) (fun _ hq => absurd hq (by simp)) hbegin hadd
    (List.mem_singleton.2 rfl) hreads (by simp [hqueue])).1 ⟨s', 2⟩ .refl ?_
  rw [hend]
  exact (by decide : settlement.boundary 2 ≤ 2)

end Rehearsal
end Backfill
