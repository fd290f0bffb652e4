import Backfill.Proofs.Forms
import Backfill.Proofs.TrackedRequests

/-! A run that a failure has broken off is taken up by another coordinator, as it was left or from its
document. Of the tables that are queued then no row is lost: the sink is told of it by the one or the
other. -/
namespace Backfill
open Procedure Session Environment
variable {σ : Type} {env : Environment σ} {contents : Table → Contents}
  {admits : String → Row → Prop}

/-- Whether a sink was told of a row while requests were made of a session: the row was read for the
snapshot and sent, or a change was passed on that had dropped it from the buffer. -/
def Session.Tells (env : Environment (Recorded σ)) (reqs : List Request)
    (s s' : Session (Recorded σ)) (t : Table) (row : Row) : Prop :=
  ∃ em ∈ s'.emitted, em.table = t ∧
    (em.isRead = true ∧ em.record = row.record ∨ Request.Replaced env t row em reqs s)

namespace Watched

def during (env : Environment (Recorded σ)) (reqs : List Request) (s : Session (Recorded σ))
    (t : Table) (row : Row) (before wanted : Prop) : Watched where
  table := t
  row := row
  supersedes em := Request.Replaced env t row em reqs s
  before := before
  wanted := wanted

/-- Whether a run can be taken up without losing the row: if the row lies before the chunk in
progress, it was told of. -/
structure TakesUp (g : Watched) (r : Run) : Prop where
  resumable : r.Resumable
  within : r.currentTable = some g.table → ∀ m, r.chunk.maximum = some m → g.row.key ≤ m
  begun : r.currentTable = some g.table → Reaches r.chunk.start g.row.key → g.before

variable {g : Watched} {r r' : Run}

theorem TakesUp.of_eq (h : g.TakesUp r) (hc : r'.chunk = r.chunk) (ht : r'.tables = r.tables) :
    g.TakesUp r' := by
  have hcurrent : r'.currentTable = r.currentTable := by rw [Run.currentTable, ht, Run.currentTable]
  refine ⟨h.resumable.of_eq hc ht, fun hcur => ?_, fun hcur => ?_⟩
  · rw [hc]
    exact h.within (hcurrent ▸ hcur)
  · rw [hc]
    exact h.begun (hcurrent ▸ hcur)

end Watched

namespace Session
variable {g : Watched} {settings : Settings} {commands : Option CommandQueue} {w : σ}
  {rounds : Nat} {restored : Option Run} {p : Phase} {s : Session (Recorded σ)} {f : Failure}

private theorem tracks_start
    (h : Enters env.recorded (.start rounds restored) ⟨{ settings, commands }, ⟨w, []⟩⟩ p s)
    (hsize : settings.chunkSize ≠ 0)
    (hcommands : ∀ q, commands = some q → ∀ cmd ∈ q.pending, g.LetsCommand cmd)
    (hres : ∀ r, restored = some r → g.TakesUp r)
    (hwanted : g.wanted → ∃ r, restored = some r ∧ g.table ∈ r.tables) :
    s.Tracks g admits ((restored.map (Run.visits σ)).getD []) False p := by
  have hregular : s.Regular g.LetsCommand p := by
    refine (Session.Regular.initial hsize hcommands).enter h ?_ nofun
    rintro rounds' r heq
    exact (hres r (Stage.start.inj heq).2).resumable
  cases h with
  | fresh version accepted positions =>
    refine ⟨hregular, trivial, fun r hr _ hm => ?_, fun hg => ?_⟩
    · obtain rfl := Option.some.inj hr
      exact absurd hm Bool.false_ne_true
    · obtain ⟨r, hr, -⟩ := hwanted hg
      exact absurd hr (by simp)
  | @restored _ _ _ _ _ _ executed r version accepted positions =>
    obtain ⟨v₁, -, rfl⟩ := recorded_version_eq_ok.1 version
    obtain ⟨v₂, -, rfl⟩ := recorded_positions_eq_ok.1 positions
    have hr := hres r rfl
    refine ⟨hregular, trivial, fun r' hr' hcur hm => ?_, fun hg _ => ?_⟩
    · obtain rfl := Option.some.inj hr'
      obtain ⟨m, hm⟩ := Option.isSome_iff_exists.1 hm
      obtain ⟨ts, ht⟩ := List.head?_eq_some_iff.1 hcur
      have hm : r.chunk.maximum = some m := hm
      have ht : r.tables = g.table :: ts := ht
      have hbegun (hb : Reaches r.chunk.start g.row.key) : g.before := hr.begun hcur hb
      refine ⟨⟨g.table, r.chunk.start, some m, [.positions executed], false⟩, ?_, rfl, hr.within hcur,
        fun _ hb => .inl (hbegun hb), fun _ hs => .inl (.inl (hbegun hs))⟩
      simp [Session.visits, Session.journal, Run.visits, hm, ht, Visit.ofJournal, Visit.follow,
        Visit.note]
    · obtain ⟨r', hr', hmem⟩ := hwanted hg
      obtain rfl := Option.some.inj hr'
      exact .inl hmem

private theorem tracks_of_performAll {reqs : List Request} (tables : env.HasTables contents admits)
    (hstored : contents g.table g.row.key = some g.row.data)
    (h : Request.performAll env.recorded (.start rounds restored :: reqs)
      ⟨{ settings, commands }, ⟨w, []⟩⟩ = .ok () s)
    (hsize : settings.chunkSize ≠ 0)
    (hcommands : ∀ q, commands = some q → ∀ cmd ∈ q.pending, g.LetsCommand cmd)
    (hres : ∀ r, restored = some r → g.TakesUp r)
    (hwanted : g.wanted → ∃ r, restored = some r ∧ g.table ∈ r.tables)
    (hreqs : ∀ req ∈ reqs, g.LetsRequest req)
    (hsupersedes : ∀ em, Request.Replaced env.recorded g.table g.row em
      (.start rounds restored :: reqs) ⟨{ settings, commands }, ⟨w, []⟩⟩ → g.supersedes em) :
    s.Tracks g admits ((restored.map (Run.visits σ)).getD []) False .idle := by
  obtain ⟨t, hstart, hrest⟩ := each_cons_eq_ok.1 h
  have hperform : (Stage.start rounds restored).perform env.recorded _ = .ok () t := hstart
  obtain ⟨p, u, henter, hmoves⟩ := perform_enters hperform
  have ht := Tracks.moves tables hstored hmoves (tracks_start henter hsize hcommands hres hwanted)
  exact ht.requests tables hstored hrest hreqs fun em hem => hsupersedes em (.later hstart hem)

/-- What is left of one where a request fails, be it the start. -/
private theorem leaves_of_performAll {reqs : List Request} (tables : env.HasTables contents admits)
    (hstored : contents g.table g.row.key = some g.row.data)
    (h : Request.performAll env.recorded (.start rounds restored :: reqs)
      ⟨{ settings, commands }, ⟨w, []⟩⟩ = .error (.failed f) s)
    (hsize : settings.chunkSize ≠ 0)
    (hcommands : ∀ q, commands = some q → ∀ cmd ∈ q.pending, g.LetsCommand cmd)
    (hres : ∀ r, restored = some r → g.TakesUp r)
    (hwanted : g.wanted → ∃ r, restored = some r ∧ g.table ∈ r.tables)
    (hreqs : ∀ req ∈ reqs, g.LetsRequest req)
    (hsupersedes : ∀ em, Request.Replaced env.recorded g.table g.row em
      (.start rounds restored :: reqs) ⟨{ settings, commands }, ⟨w, []⟩⟩ → g.supersedes em) :
    s.Leaves g admits ((restored.map (Run.visits σ)).getD []) := by
  rcases each_cons_eq_error.1 h with hstart | ⟨t, hstart, hrest⟩
  · have hfails : Fails env.recorded (.start rounds restored) _ f s := perform_fails hstart
    cases hfails with
    | unknown | unsupported | unlisted =>
      exact ⟨fun r hr => absurd hr (by simp), fun r hr => absurd hr (by simp)⟩
    | broken enters breaks =>
      exact Tracks.breaksOff tables hstored breaks
        (tracks_start enters hsize hcommands hres hwanted)
  · have hperform : (Stage.start rounds restored).perform env.recorded _ = .ok () t := hstart
    obtain ⟨p, u, henter, hmoves⟩ := perform_enters hperform
    have ht := Tracks.moves tables hstored hmoves (tracks_start henter hsize hcommands hres hwanted)
    exact ht.requests_fail tables hstored hrest hreqs fun em hem => hsupersedes em (.later hstart hem)

end Session

/-- Whether a run can be taken up and has a row of a table still before it. -/
structure Run.HasAhead (r : Run) (t : Table) (row : Row) : Prop where
  resumable : r.Resumable
  within : r.currentTable = some t → ∀ m, r.chunk.maximum = some m → row.key ≤ m
  unread : r.currentTable = some t → ¬ Reaches r.chunk.start row.key

/-- What the failure has left is enough to take up the run. -/
private theorem takesUp_of_leaves {seed : List (Visit σ)} {s : Session (Recorded σ)} {r : Run}
    {g g' : Watched} (h : s.Leaves g admits seed) (hr : s.coordinator.run = some r)
    (hpass : r.currentTable = some g.table → r.chunk.maximum.isSome →
      ∀ v, (s.visits seed).head? = some v → v.LetsPass admits g.row)
    (htable : g'.table = g.table) (hrow : g'.row = g.row)
    (htold : g.Told s.emitted → g'.before) : g'.TakesUp r := by
  have hres := h.resumable r hr
  refine ⟨hres, fun hcur m hm => ?_, fun hcur hb => ?_⟩ <;> rw [htable] at hcur
  · obtain ⟨v, -, -, hwithin, -⟩ := h.read r hr hcur (by rw [hm]; rfl)
    exact hrow ▸ hwithin m hm
  · have hknown : r.chunk.maximum.isSome := by
      obtain ⟨b, hb, -⟩ := hb
      rw [Option.isSome_iff_ne_none]
      intro hnone
      rw [(hres.unread hnone).1] at hb
      exact absurd hb (by simp)
    obtain ⟨v, hv, -, -, hbegun⟩ := h.read r hr hcur hknown
    exact htold (hbegun (hpass hcur hknown v hv) (hrow ▸ hb))

/-- An operation fails, and another coordinator goes on with the run that is left, until a table that
was queued at the failure is over. Then a sink was told of every row of the table that the queries let
pass, by the first coordinator or by the second. -/
theorem performAll_restarts {settings settings' : Settings} {commands commands' : Option CommandQueue}
    {w w' : σ} {rounds rounds' : Nat} {restored : Option Run} {reqs reqs' : List Request}
    {s s' : Session (Recorded σ)} {f : Failure} {r r' : Run} {t : Table} {row : Row}
    (tables : env.HasTables contents admits) (hstored : contents t row.key = some row.data)
    (hsize : settings.chunkSize ≠ 0) (hres : ∀ r, restored = some r → r.HasAhead t row)
    (hreqs : ∀ req ∈ reqs, ¬ req.Starts)
    (h : Request.performAll env.recorded (.start rounds restored :: reqs)
      ⟨{ settings, commands }, ⟨w, []⟩⟩ = .error (.failed f) s)
    (hr : s.coordinator.run = some r) (ht : t ∈ r.tables)
    (hpass : r.currentTable = some t → r.chunk.maximum.isSome →
      ∀ v, (s.visits ((restored.map (Run.visits σ)).getD [])).head? = some v →
        v.LetsPass admits row)
    (hsame : r' = r ∨ Run.restore r.persist = .ok r') (hsize' : settings'.chunkSize ≠ 0)
    (hcommands' : ∀ q, commands' = some q → ∀ cmd ∈ q.pending, cmd.Spares t)
    (hreqs' : ∀ req ∈ reqs', ¬ req.Starts ∧ req.Spares t)
    (h' : Request.performAll env.recorded (.start rounds' (some r') :: reqs')
      ⟨{ settings := settings', commands := commands' }, ⟨w', []⟩⟩ = .ok () s')
    (hpass' : ∀ v ∈ s'.visits (r'.visits σ), v.table = t → v.LetsPass admits row)
    (hended : t ∉ s'.coordinator.queue) :
    Session.Tells env.recorded (.start rounds restored :: reqs)
        ⟨{ settings, commands }, ⟨w, []⟩⟩ s t row ∨
      Session.Tells env.recorded (.start rounds' (some r') :: reqs')
        ⟨{ settings := settings', commands := commands' }, ⟨w', []⟩⟩ s' t row := by
  -- the first coordinator may leave the table off, the second one reads it to its end
  let first : Watched := .during env.recorded (.start rounds restored :: reqs)
    ⟨{ settings, commands }, ⟨w, []⟩⟩ t row False False
  let second : Watched := .during env.recorded (.start rounds' (some r') :: reqs')
    ⟨{ settings := settings', commands := commands' }, ⟨w', []⟩⟩ t row (first.Told s.emitted) True
  have hleaves : s.Leaves first admits ((restored.map (Run.visits σ)).getD []) :=
    leaves_of_performAll tables hstored h hsize (fun _ _ _ _ => False.elim)
      (fun r hr => ⟨(hres r hr).resumable, (hres r hr).within, (hres r hr).unread⟩) False.elim
      (fun req hreq => ⟨hreqs req hreq, False.elim⟩) fun _ hem => hem
  obtain ⟨hchunk, hqueued⟩ := Run.chunk_tables_of_handedOn hsame
  have hleft : second.TakesUp r := takesUp_of_leaves hleaves hr hpass rfl rfl id
  have htakes : second.TakesUp r' := hleft.of_eq hchunk hqueued
  have htracks : s'.Tracks second admits (r'.visits σ) False .idle :=
    tracks_of_performAll tables hstored h' hsize' (fun q hq cmd hcmd _ => hcommands' q hq cmd hcmd)
      (by rintro _ ⟨⟩; exact htakes) (fun _ => ⟨r', rfl, hqueued ▸ ht⟩)
      (fun req hreq => ⟨(hreqs' req hreq).1, fun _ => (hreqs' req hreq).2⟩) fun _ hem => hem
  rcases (htracks.wanted trivial hpass').resolve_left hended with hfirst | hsecond
  · exact .inl (hfirst.resolve_left id)
  · exact .inr hsecond

namespace Rehearsal

/-- Tables that never change, with a sink that refuses records once the script of executed positions
is over. -/
def leanShelf (rows : Table → List Row) : Environment (List PositionSet) :=
  { shelf rows with
    emit := fun _ w => if w.isEmpty then (.error (.other "the sink is full"), w) else (.ok (), w) }

theorem leanShelf_hasTables {rows : Table → List Row}
    (h : ∀ t, (rows t).Pairwise fun a b => a.key < b.key) :
    (leanShelf rows).HasTables (fun t => ChunkQuery.contentsOf (rows t)) fun _ _ => True := by
  refine ⟨fun {t k w w'} hmax => ?_, fun hquery => shelf_honest h _ _ _ _ hquery⟩
  obtain ⟨hmax, -⟩ := Prod.mk.inj hmax
  obtain rfl := Except.ok.inj hmax
  exact ChunkQuery.contentsOf_hasLargest (h t)

def tornRun : Run where
  id := "incr-snap-shelf"
  tables := [⟨"d", "a"⟩]
  chunk :=
    { sequence := 2, start := some ⟨[.int 1]⟩, stop := some ⟨[.int 2]⟩, maximum := some ⟨[.int 2]⟩,
      lastSent := some ⟨[.int 1]⟩ }
  startedAt := 0
  lastActivity := 0

/-- The sink refuses the second row of a table. From the document of the run that is left, the next
coordinator reads the row again. -/
theorem shelves_restarts : ∃ f s s',
    Request.performAll (leanShelf shelves).recorded [.start 9 none, .add 9 [⟨"d", "a"⟩] .empty,
      .process 9 ⟨⟨"p"⟩, ⟨none, false⟩, .heartbeat⟩]
      ⟨{ settings := { chunkSize := 1 } }, ⟨List.replicate 5 .empty, []⟩⟩ = .error (.failed f) s ∧
    s.coordinator.run = some tornRun ∧ Run.restore tornRun.persist = .ok tornRun ∧
    Request.performAll (leanShelf shelves).recorded [.start 9 (some tornRun),
      .process 9 ⟨⟨"p"⟩, ⟨none, false⟩, .heartbeat⟩]
      ⟨{ settings := {} }, ⟨List.replicate 9 .empty, []⟩⟩ = .ok () s' ∧
    s'.coordinator.queue = [] ∧
    (Session.Tells (leanShelf shelves).recorded [.start 9 none, .add 9 [⟨"d", "a"⟩] .empty,
        .process 9 ⟨⟨"p"⟩, ⟨none, false⟩, .heartbeat⟩]
        ⟨{ settings := { chunkSize := 1 } }, ⟨List.replicate 5 .empty, []⟩⟩ s ⟨"d", "a"⟩
        ⟨⟨[.int 2]⟩, .null⟩ ∨
      Session.Tells (leanShelf shelves).recorded [.start 9 (some tornRun),
        .process 9 ⟨⟨"p"⟩, ⟨none, false⟩, .heartbeat⟩]
        ⟨{ settings := {} }, ⟨List.replicate 9 .empty, []⟩⟩ s' ⟨"d", "a"⟩ ⟨⟨[.int 2]⟩, .null⟩) := by
  obtain ⟨f, s, h, hrun⟩ := exists_of_failsIn
    (x := Request.performAll (leanShelf shelves).recorded [.start 9 none,
      .add 9 [⟨"d", "a"⟩] .empty, .process 9 ⟨⟨"p"⟩, ⟨none, false⟩, .heartbeat⟩])
    (s := ⟨{ settings := { chunkSize := 1 } }, ⟨List.replicate 5 .empty, []⟩⟩)
    (p := fun s => s.coordinator.run = some tornRun) (by decide +kernel)
  obtain ⟨s', h', hqueue⟩ := exists_of_endsIn
    (x := Request.performAll (leanShelf shelves).recorded [.start 9 (some tornRun),
      .process 9 ⟨⟨"p"⟩, ⟨none, false⟩, .heartbeat⟩])
    (s := ⟨{ settings := {} }, ⟨List.replicate 9 .empty, []⟩⟩)
    (p := fun s => s.coordinator.queue = []) (by decide +kernel)
  have hrestore : Run.restore tornRun.persist = .ok tornRun := by rw [Run.restore_persist]; rfl
  have hended : s'.coordinator.queue = [] := of_decide_eq_true hqueue
  refine ⟨f, s, s', h, of_decide_eq_true hrun, hrestore, h', hended, ?_⟩
  exact performAll_restarts (leanShelf_hasTables shelves_ascending) rfl (by decide) (by simp)
    (by simp [Request.Starts]) h (of_decide_eq_true hrun) List.mem_cons_self
    (fun _ _ _ _ _ _ _ _ _ _ => trivial) (.inr hrestore) (by decide) (by simp)
    (by simp [Request.Starts, Request.Spares]) h' (fun _ _ _ _ _ _ _ _ _ => trivial)
    (by simp [hended])

end Rehearsal
end Backfill
