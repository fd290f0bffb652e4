import Backfill.Proofs.Account
import Backfill.Proofs.Buffer
import Backfill.Proofs.ReadOnce

/-! A snapshot of a table beside the stream of its changes: what a sink is told stays true, and every
row of a queued table is settled up to where its reading has come. The rows of a chunk were seen after
the low watermark was captured, so that a change within the low watermark is older than they are; any
other change drops the row that it is about, or ends the window before it is passed on. -/
namespace Backfill
open Procedure Session Environment
variable {σ : Type} {env : Environment σ}

/-- What a store knows in each state of the world. -/
structure Ledger (σ : Type) where
  source : Source
  /-- The number of transactions that are committed. -/
  committed : σ → Nat
  /-- The number of transactions that were committed when reading began. -/
  began : σ → Nat

/-- What an honest store promises. During any of its calls more transactions may be committed; what
is read is the state after one of them, and not before reading began. -/
structure Environment.Serves (env : Environment σ) (g : Ledger σ) (admits : String → Row → Prop) :
    Prop where
  version : ∀ {v w w'}, env.serverVersion w = (.ok v, w') → g.committed w ≤ g.committed w'
  commit : ∀ {w w'}, env.commit w = (.ok (), w') → g.committed w ≤ g.committed w'
  emit : ∀ {e w w'}, env.emit e w = (.ok (), w') → g.committed w ≤ g.committed w'
  positions : ∀ {executed w w'}, env.executedPositions w = (.ok executed, w') →
    ∃ n, g.committed w ≤ n ∧ n ≤ g.committed w' ∧ g.source.Marks n executed
  begins : ∀ {w w'}, env.beginRead w = (.ok (), w') →
    g.committed w ≤ g.began w' ∧ g.began w' ≤ g.committed w'
  maximum : ∀ {t k w w'}, env.maximumKey t w = (.ok k, w') →
    g.committed w ≤ g.committed w' ∧ g.began w' = g.began w ∧
      ∃ n, g.began w ≤ n ∧ n ≤ g.committed w' ∧ (g.source.tableAt n t).HasLargest k
  query : ∀ {q rows w w'}, env.rangeQuery q w = (.ok rows, w') →
    g.committed w ≤ g.committed w' ∧ g.began w' = g.began w ∧
      ∃ n, g.began w ≤ n ∧ n ≤ g.committed w' ∧ q.FirstRows admits (g.source.tableAt n q.table) rows

def Coordinator.lowMark (c : Coordinator) : Option PositionSet := c.run.bind fun r => r.watermarks.low

section Following
variable (g : Ledger σ) (t : Table) (H d d' : Nat)

/-- Whether the rows in the buffer were seen after the low watermark. `d'` counts also a change that
is about to be passed on. -/
def Coordinator.HoldsSeen (c : Coordinator) : Prop :=
  c.currentTable = some t → ∀ row ∈ c.buffer.rows, ∃ low n, c.lowMark = some low ∧
    g.source.Marks n low ∧ g.source.Shows t H (g.source.boundary n) d' row.key (some row.data)

/-- What is known in a phase of the rows that were read, or are going to be. -/
def Phase.Seen (p : Phase) (c : Coordinator) (w : σ) : Prop :=
  match p with
  | .sending _ u _ _ rows => c.currentTable = some u ∧
    (u = t → ∀ row ∈ rows, g.source.Shows t H 0 d row.key (some row.data))
  | .filling => ∃ low n, c.lowMark = some low ∧ g.source.Marks n low ∧ n ≤ g.began w ∧
    d' ≤ g.source.boundary (g.began w)
  | _ => c.HoldsSeen g t H d'

/-- How far the reading of a table has come while it is the current one. -/
structure Run.Covers (p : Phase) (c : Coordinator) (es : List Emission) (r : Run) : Prop where
  known : ∀ m, r.chunk.maximum = some m → ∀ k, k ≤ m ∨ g.source.Settled t H d es k
  read : ∀ k, Reaches r.chunk.stop k →
    g.source.Settled t H d es k ∨ ∃ row ∈ p.unsent c, row.key = k
  begun : ∀ k, Reaches r.chunk.start k → g.source.Settled t H d es k

theorem TextMap.get?_erase_of_none {β : Type} {m : TextMap β} {k l : String} (h : m.get? l = none) :
    (m.erase k).get? l = none := by
  rw [get?_erase, h]
  split <;> rfl

/-- A coordinator that follows a table. If the table was asked for, it is queued or it was read. -/
structure Coordinator.Follows (asked : Prop) (p : Phase) (c : Coordinator) (w : σ)
    (es : List Emission) : Prop where
  le : d ≤ d'
  delivered : d' ≤ g.source.boundary (g.committed w)
  told : g.source.Told t H d es
  wanted : asked → t ∈ c.queue ∨ ∀ k, g.source.Settled t H d es k
  seen : p.Seen g t H d d' c w
  covers : ∀ r, c.run = some r → r.currentTable = some t → r.Covers g t H d p c es
  unfiltered : ∀ r, c.run = some r → r.filters.get? t.text = none

end Following

theorem Coordinator.HoldsSeen.of_empty {g : Ledger σ} {t : Table} {H d' : Nat} {c : Coordinator}
    (h : c.buffer.rows = []) : c.HoldsSeen g t H d' := by
  intro _ row hrow
  rw [h] at hrow
  exact absurd hrow List.not_mem_nil

theorem Coordinator.HoldsSeen.of_eq {g : Ledger σ} {t : Table} {H d' : Nat} {c c' : Coordinator}
    (h : c.HoldsSeen g t H d') (hcur : c'.currentTable = c.currentTable)
    (hlow : c'.lowMark = c.lowMark) (hrows : c'.buffer.rows = c.buffer.rows) :
    c'.HoldsSeen g t H d' := by
  rw [HoldsSeen, hcur, hrows, hlow]
  exact h

theorem Coordinator.HoldsSeen.of_run {g : Ledger σ} {t : Table} {H d' : Nat} {c c' : Coordinator}
    (h : c.HoldsSeen g t H d') (f : Run → Run) (hrun : c'.run = c.run.map f)
    (htables : ∀ r, (f r).tables = r.tables) (hlow : ∀ r, (f r).watermarks.low = r.watermarks.low)
    (hrows : c'.buffer.rows = c.buffer.rows) : c'.HoldsSeen g t H d' := by
  refine h.of_eq ?_ ?_ hrows
  · rw [currentTable, hrun]
    exact currentTable_updateRun htables
  · rw [lowMark, hrun, Option.bind_map]
    exact congrArg c.run.bind (funext hlow)

namespace Coordinator.Follows
variable {g : Ledger σ} {admits : String → Row → Prop} {t u : Table} {ts : List Table} {H d d' : Nat}
  {asked : Prop} {p q : Phase} {c c' : Coordinator} {w w' : σ} {es : List Emission} {r : Run}

/-- What leaves the queue, the filters and the progress of the chunk alone. -/
theorem of_run (h : c.Follows g t H d d' asked p w es) (f : Run → Run)
    (hrun : c'.run = c.run.map f) (hchunk : ∀ r, (f r).chunk.maximum = r.chunk.maximum ∧
      (f r).chunk.stop = r.chunk.stop ∧ (f r).chunk.start = r.chunk.start)
    (htables : ∀ r, (f r).tables = r.tables) (hfilters : ∀ r, (f r).filters = r.filters)
    (hw : g.committed w ≤ g.committed w') (hunsent : q.unsent c' = p.unsent c)
    (hseen : p.Seen g t H d d' c w → q.Seen g t H d d' c' w') :
    c'.Follows g t H d d' asked q w' es := by
  have hback (r' : Run) (hr' : c'.run = some r') : ∃ r, c.run = some r ∧ f r = r' :=
    Option.map_eq_some_iff.1 (hrun.symm.trans hr')
  refine ⟨h.le, h.delivered.trans (g.source.boundary_mono hw), h.told, fun ha => ?_, hseen h.seen,
    fun r' hr' hcur => ?_, fun r' hr' => ?_⟩
  · rw [queue_of_run f hrun htables]
    exact h.wanted ha
  · obtain ⟨r, hr, rfl⟩ := hback r' hr'
    obtain ⟨hm, hstop, hstart⟩ := hchunk r
    rw [Run.currentTable, htables] at hcur
    have hcovers := h.covers r hr hcur
    exact ⟨hm ▸ hcovers.known, hstop ▸ hunsent ▸ hcovers.read, hstart ▸ hcovers.begun⟩
  · obtain ⟨r, hr, rfl⟩ := hback r' hr'
    rw [hfilters]
    exact h.unfiltered r hr

theorem of_same_run (h : c.Follows g t H d d' asked p w es) (hrun : c'.run = c.run)
    (hunsent : q.unsent c' = p.unsent c)
    (hseen : p.Seen g t H d d' c w → q.Seen g t H d d' c' w) :
    c'.Follows g t H d d' asked q w es :=
  h.of_run id (hrun.trans (congrFun Option.map_id _).symm) (fun _ => ⟨rfl, rfl, rfl⟩) (fun _ => rfl)
    (fun _ => rfl) le_rfl hunsent hseen

theorem mono {H' : Nat} (h : c.Follows g t H d d' asked p w es) (hH : H ≤ H') :
    c.Follows g t H' d d' asked p w es := by
  have hholds (hseen : c.HoldsSeen g t H d') : c.HoldsSeen g t H' d' := by
    intro hcur row hrow
    obtain ⟨low, n, hlow, hmarks, hshows⟩ := hseen hcur row hrow
    exact ⟨low, n, hlow, hmarks, hshows.mono hH⟩
  have hseen := h.seen
  refine ⟨h.le, h.delivered, h.told.mono hH, fun ha => ?_, ?_, fun r hr hcur => ?_, h.unfiltered⟩
  · exact (h.wanted ha).imp_right fun hall k => (hall k).mono hH
  · cases p with
    | sending => exact ⟨hseen.1, fun hu row hrow => (hseen.2 hu row hrow).mono hH⟩
    | filling => exact hseen
    | _ => exact hholds hseen
  · obtain ⟨hknown, hread, hbegun⟩ := h.covers r hr hcur
    exact ⟨fun m hm k => (hknown m hm k).imp_right fun hs => hs.mono hH,
      fun k hk => (hread k hk).imp_left fun hs => hs.mono hH, fun k hk => (hbegun k hk).mono hH⟩

theorem sent {pt : Partition} {o : Offset} {n : Nat} {row : Row} {rows : List Row}
    (h : c.Follows g t H d d' asked (.sending pt u o n (row :: rows)) w es)
    (hw : g.committed w ≤ g.committed w') :
    (c.updateRun fun r => r.recordSent row.key).Follows g t H d d' asked (.sending pt u o n rows) w'
      (es ++ [⟨pt, u, row.record, o⟩]) := by
  obtain ⟨hcurrent, hrows⟩ := h.seen
  have hsettled {k : Key} (hk : g.source.Settled t H d es k) :
      g.source.Settled t H d (es ++ [⟨pt, u, row.record, o⟩]) k := hk.snoc _
  refine ⟨h.le, h.delivered.trans (g.source.boundary_mono hw), ?_, fun ha => ?_, ⟨?_, ?_⟩,
    fun r' hr' hcur => ?_, fun r' hr' => ?_⟩
  · by_cases hu : u = t
    · exact h.told.snoc_row hu rfl (hrows hu row List.mem_cons_self)
    · exact h.told.snoc_of_ne hu
  · rw [queue_of_run (fun r => r.recordSent row.key) rfl fun _ => rfl]
    exact (h.wanted ha).imp_right fun hall k => hsettled (hall k)
  · exact (currentTable_updateRun (f := fun r => r.recordSent row.key) fun _ => rfl).trans hcurrent
  · exact fun hu row' hrow' => hrows hu row' (List.mem_cons_of_mem _ hrow')
  · obtain ⟨r, hr, rfl⟩ := Option.map_eq_some_iff.1 hr'
    obtain ⟨hknown, hread, hbegun⟩ := h.covers r hr hcur
    refine ⟨fun m hm k => (hknown m hm k).imp_right hsettled, fun k hk => ?_,
      fun k hk => hsettled (hbegun k hk)⟩
    rcases hread k hk with hk | ⟨row', hrow', rfl⟩
    · exact .inl (hsettled hk)
    · rcases List.mem_cons.1 hrow' with rfl | hrow'
      · have hu : u = t := by
          rw [currentTable, hr] at hcurrent
          exact Option.some.inj (hcurrent.symm.trans hcur)
        exact .inl (.inr (.inl (touched_snoc.2 (.inr ⟨hu, rfl⟩))))
      · exact .inr ⟨row', hrow', rfl⟩
  · obtain ⟨r, hr, rfl⟩ := Option.map_eq_some_iff.1 hr'
    exact h.unfiltered r hr

theorem began {low : PositionSet} {n : Nat} (h : c.Follows g t H d d' asked .due w es) (now : Int64)
    (hempty : c.buffer.rows = []) (hr : c.run = some r) (hw : g.committed w ≤ g.began w')
    (hw' : g.began w' ≤ g.committed w') (hn : n ≤ g.began w') (hmarks : g.source.Marks n low) :
    (((c.updateRun fun r => r.startChunk now).updateRun fun r => r.setLow low).count
      .windowOpened).Follows g t H d d' asked .filling w' es := by
  have hrun : (((c.updateRun fun r => r.startChunk now).updateRun fun r => r.setLow low).count
      .windowOpened).run = some ((r.startChunk now).setLow low) := by
    simp [updateRun, Coordinator.count, hr]
  have hdelivered := h.delivered.trans (g.source.boundary_mono hw)
  refine ⟨h.le, hdelivered.trans (g.source.boundary_mono hw'), h.told, fun ha => ?_,
    ⟨low, n, ?_, hmarks, hn, hdelivered⟩, fun r' hr' hcur => ?_, fun r' hr' => ?_⟩
  · rw [queue_of_run (fun r => (r.startChunk now).setLow low) (Option.map_map ..) fun _ => rfl]
    exact h.wanted ha
  · rw [lowMark, hrun]
    rfl
  · obtain rfl := Option.some.inj (hrun.symm.trans hr')
    obtain ⟨hknown, hread, -⟩ := h.covers r hr hcur
    refine ⟨hknown, hread, fun k hk => (hread k hk).resolve_right ?_⟩
    rintro ⟨row, hrow, -⟩
    rw [show Phase.due.unsent c = [] from hempty] at hrow
    exact absurd hrow List.not_mem_nil
  · obtain rfl := Option.some.inj (hrun.symm.trans hr')
    exact h.unfiltered r hr

/-- What a table has at a moment between the beginning of reading and now shows how every row is that
is not settled. -/
theorem tableAt_eq_initial {n : Nat} {k : Key} (h : c.Follows g t H d d' asked p w es) (hn : n ≤ H)
    (hk : ¬ g.source.Settled t H d es k) : g.source.tableAt n t k = g.source.initial t k ∧
      g.source.tableAt n t k ≠ none := by
  have heq : g.source.tableAt n t k = g.source.initial t k :=
    h.told.after_eq_of_not_settled hk (g.source.boundary_mono hn)
  exact ⟨heq, fun hnone => hk (.inl (heq ▸ hnone))⟩

theorem measured {n : Nat} {m : Key} (h : c.Follows g t H d d' asked .filling w es)
    (hr : c.run = some r) (ht : r.tables = u :: ts) (hw : g.committed w ≤ g.committed w')
    (hbegan : g.began w' = g.began w) (hH : u = t → n ≤ H)
    (hlargest : (g.source.tableAt n u).HasLargest (some m)) :
    (c.updateRun fun r => r.setMaximum m).Follows g t H d d' asked .filling w' es := by
  obtain ⟨low, nl, hlow, hmarks, hnl, hd⟩ := h.seen
  refine ⟨h.le, h.delivered.trans (g.source.boundary_mono hw), h.told, fun ha => ?_,
    ⟨low, nl, ?_, hmarks, hbegan ▸ hnl, hbegan ▸ hd⟩, fun r' hr' hcur => ?_, fun r' hr' => ?_⟩
  · rw [queue_of_run (fun r => r.setMaximum m) rfl fun _ => rfl]
    exact h.wanted ha
  · simpa [lowMark, updateRun, hr, Run.setMaximum] using hlow
  · obtain ⟨r, hr₁, rfl⟩ := Option.map_eq_some_iff.1 hr'
    obtain rfl := Option.some.inj (hr.symm.trans hr₁)
    obtain ⟨-, hread, hbegun⟩ := h.covers r hr hcur
    refine ⟨fun m' hm' k => ?_, hread, hbegun⟩
    obtain rfl : m = m' := Option.some.inj hm'
    have hu : u = t := by
      have hcur' : r.tables.head? = some t := hcur
      rw [ht] at hcur'
      exact Option.some.inj hcur'
    subst hu
    by_cases hk : g.source.Settled u H d es k
    · exact .inr hk
    · exact .inl (hlargest.2 k (h.tableAt_eq_initial (hH rfl) hk).2)
  · obtain ⟨r, hr₁, rfl⟩ := Option.map_eq_some_iff.1 hr'
    exact h.unfiltered r hr₁

/-- The current table is taken off the queue. If it is the one that is followed, its rows are
settled. -/
theorem finished (h : c.Follows g t H d d' asked .filling w es) (now : Int64) (hr : c.run = some r)
    (ht : r.tables = u :: ts) (hw : g.committed w ≤ g.committed w')
    (hbegan : g.began w' = g.began w)
    (hsettled : u = t → ∀ k, g.source.Settled t H d es k) :
    ((c.updateRun fun r => r.nextTable now).count .tableCompleted).Follows g t H d d' asked .filling
      w' es := by
  obtain ⟨low, nl, hlow, hmarks, hnl, hd⟩ := h.seen
  have hrun : ((c.updateRun fun r => r.nextTable now).count .tableCompleted).run =
      some (r.nextTable now) := by
    simp [updateRun, Coordinator.count, hr]
  refine ⟨h.le, h.delivered.trans (g.source.boundary_mono hw), h.told, fun ha => ?_,
    ⟨low, nl, ?_, hmarks, hbegan ▸ hnl, hbegan ▸ hd⟩, fun r' hr' hcur => ?_, fun r' hr' => ?_⟩
  · by_cases hu : u = t
    · exact .inr (hsettled hu)
    · refine (h.wanted ha).imp_left fun hmem => ?_
      have hmem : t ∈ u :: ts := by simpa [queue, hr, ht] using hmem
      have htail : t ∈ ts := (List.mem_cons.1 hmem).resolve_left fun he => hu he.symm
      rw [queue, hrun]
      simpa [Run.nextTable, Run.touch, ht] using htail
  · rw [lowMark, hr] at hlow
    rw [lowMark, hrun]
    exact hlow
  · obtain rfl := Option.some.inj (hrun.symm.trans hr')
    have hnone (k : Key) : ¬ Reaches none k := by
      rintro ⟨b, hb, -⟩
      exact absurd hb (by simp)
    exact ⟨fun m hm => absurd hm (by simp [Run.nextTable, Run.touch]),
      fun k hk => absurd hk (hnone k), fun k hk => absurd hk (hnone k)⟩
  · obtain rfl := Option.some.inj (hrun.symm.trans hr')
    have hfilters := h.unfiltered r hr
    simp only [Run.nextTable, Run.touch]
    split
    · exact TextMap.get?_erase_of_none hfilters
    · exact hfilters

/-- If the current table has no rows, nothing has to be read. -/
theorem settled_of_vacant {n : Nat} (h : c.Follows g t H d d' asked p w es) (hn : n ≤ H)
    (hlargest : (g.source.tableAt n t).HasLargest none) (k : Key) : g.source.Settled t H d es k := by
  by_contra hk
  exact (h.tableAt_eq_initial hn hk).2 (hlargest k)

/-- The query for the next chunk asks for every row that is not settled. -/
theorem asked_of_not_settled {n : Nat} {cq : ChunkQuery} {k : Key}
    (h : c.Follows g t H d d' asked .filling w es) (hempty : c.buffer.rows = []) (hr : c.run = some r)
    (hcur : r.currentTable = some t) (hn : n ≤ H) (hafter : cq.after = r.chunk.stop)
    (hupTo : cq.upTo = r.chunk.maximum) (hfilter : cq.filter = none)
    (hk : ¬ g.source.Settled t H d es k) :
    ∃ data, g.source.tableAt n t k = some data ∧ cq.Asks admits ⟨k, data⟩ := by
  obtain ⟨hknown, hread, -⟩ := h.covers r hr hcur
  obtain ⟨data, hdata⟩ := Option.ne_none_iff_exists'.1 (h.tableAt_eq_initial hn hk).2
  refine ⟨data, hdata, fun a ha => ?_, fun m hm => ?_, fun f hf => ?_⟩
  · refine lt_of_not_reaches (fun hreach => ?_) (hafter.symm.trans ha)
    rcases hread k hreach with hs | ⟨row, hrow, -⟩
    · exact hk hs
    · rw [show Phase.filling.unsent c = [] from hempty] at hrow
      exact absurd hrow List.not_mem_nil
  · exact (hknown m (hupTo.symm.trans hm) k).resolve_right hk
  · exact absurd (hfilter.symm.trans hf) (by simp)

/-- If the current table has no rows left, every row is settled. -/
theorem settled_of_exhausted {n : Nat} {cq : ChunkQuery}
    (h : c.Follows g t H d d' asked .filling w es) (hempty : c.buffer.rows = []) (hr : c.run = some r)
    (hcur : r.currentTable = some t) (hn : n ≤ H)
    (hrows : cq.FirstRows admits (g.source.tableAt n t) []) (hlimit : 0 < cq.limit)
    (hafter : cq.after = r.chunk.stop) (hupTo : cq.upTo = r.chunk.maximum) (hfilter : cq.filter = none)
    (k : Key) : g.source.Settled t H d es k := by
  by_contra hk
  have hleft : ∃ data, g.source.tableAt n t k = some data ∧ cq.Asks admits ⟨k, data⟩ :=
    h.asked_of_not_settled hempty hr hcur hn hafter hupTo hfilter hk
  obtain ⟨data, hdata, hasked⟩ := hleft
  exact absurd hasked (hrows.not_asked hlimit hdata)

theorem buffered {n : Nat} {cq : ChunkQuery} {rows : List Row}
    (h : c.Follows g t H d d' asked .filling w es) (hempty : c.buffer.rows = []) (hr : c.run = some r)
    (ht : r.currentTable = some cq.table) (hw : g.committed w ≤ g.committed w')
    (hn : g.began w ≤ n) (hn' : n ≤ g.committed w') (hH : cq.table = t → g.committed w' ≤ H)
    (hrows : cq.FirstRows admits (g.source.tableAt n cq.table) rows) (hfound : rows ≠ [])
    (hafter : cq.after = r.chunk.stop) (hupTo : cq.upTo = r.chunk.maximum)
    (hfilter : cq.table = t → cq.filter = none) :
    (c.bufferRows cq.table rows).Follows g t H d d' asked .filled w' es := by
  obtain ⟨last, hlast⟩ : ∃ last, rows.getLast? = some last :=
    ⟨_, List.getLast?_eq_some_getLast hfound⟩
  obtain ⟨hbuffer, hrun⟩ :=
    Standing.bufferRows_of_nodup (t := cq.table) hempty hrows.nodup hlast
  have hrun' : (c.bufferRows cq.table rows).run = some (r.chunkEndsAt last.key) := by
    rw [hrun, hr]
    rfl
  obtain ⟨low, nl, hlow, hmarks, hnl, hd⟩ := h.seen
  refine ⟨h.le, h.delivered.trans (g.source.boundary_mono hw), h.told, fun ha => ?_,
    fun hcur row hrow => ⟨low, nl, ?_, hmarks, ?_⟩, fun r' hr' hcur => ?_, fun r' hr' => ?_⟩
  · rw [queue_of_run (fun r => r.chunkEndsAt last.key) hrun fun _ => rfl]
    exact h.wanted ha
  · rw [lowMark, hr] at hlow
    rw [lowMark, hrun']
    exact hlow
  · rw [currentTable, hrun'] at hcur
    obtain rfl : cq.table = t := Option.some.inj (ht.symm.trans hcur)
    have hlower := g.source.boundary_mono (hnl.trans hn)
    have hbegan := g.source.boundary_mono hn
    have hupper := g.source.boundary_mono (hn'.trans (hH rfl))
    refine ⟨g.source.boundary n, hlower, hd.trans hbegan, hupper.trans (le_max_right _ _), ?_⟩
    exact hrows.stored row (hbuffer ▸ hrow)
  · obtain rfl := Option.some.inj (hrun'.symm.trans hr')
    obtain rfl : cq.table = t := Option.some.inj (ht.symm.trans hcur)
    obtain ⟨hknown, hread, hbegun⟩ := h.covers r hr hcur
    refine ⟨hknown, fun k hk => ?_, hbegun⟩
    obtain ⟨b, hb, hle⟩ := hk
    obtain rfl : last.key = b := Option.some.inj hb
    by_cases hs : g.source.Settled cq.table H d es k
    · exact .inl hs
    · obtain ⟨data, hdata, hasked⟩ := h.asked_of_not_settled hempty hr hcur (hn'.trans (hH rfl))
        hafter hupTo (hfilter rfl) hs
      refine .inr ⟨⟨k, data⟩, ?_, rfl⟩
      rw [show Phase.filled.unsent (c.bufferRows cq.table rows) = rows from hbuffer]
      exact hrows.mem_of_le hdata hasked (List.mem_of_getLast? hlast) hle
  · obtain rfl := Option.some.inj (hrun'.symm.trans hr')
    exact h.unfiltered r hr

theorem reverted (h : c.Follows g t H d d' asked .filled w es) (executed : PositionSet)
    (hw : g.committed w ≤ g.committed w') :
    (((c.updateRun fun r => r.setHigh executed).dropRows.updateRun Run.revertChunk).count
      .chunkReread).Follows g t H d d' asked .due w' es := by
  have hback (r' : Run) (hr' : ((c.run.map fun r => r.setHigh executed).map Run.revertChunk) =
      some r') : ∃ r, c.run = some r ∧ (r.setHigh executed).revertChunk = r' :=
    Option.map_eq_some_iff.1 ((Option.map_map ..).symm.trans hr')
  refine ⟨h.le, h.delivered.trans (g.source.boundary_mono hw), h.told, fun ha => ?_,
    fun _ row hrow => absurd hrow List.not_mem_nil, fun r' hr' hcur => ?_, fun r' hr' => ?_⟩
  · rw [queue_of_run (fun r => (r.setHigh executed).revertChunk) (Option.map_map ..) fun _ => rfl]
    exact h.wanted ha
  · obtain ⟨r, hr, rfl⟩ := hback r' hr'
    obtain ⟨hknown, -, hbegun⟩ := h.covers r hr hcur
    exact ⟨hknown, fun k hk => .inl (hbegun k hk), hbegun⟩
  · obtain ⟨r, hr, rfl⟩ := hback r' hr'
    exact h.unfiltered r hr

end Coordinator.Follows

def Ledger.recorded (g : Ledger σ) : Ledger (Recorded σ) where
  source := g.source
  committed w := g.committed w.world
  began w := g.began w.world

theorem Environment.Serves.recorded {admits : String → Row → Prop} {g : Ledger σ}
    (serves : env.Serves g admits) : env.recorded.Serves g.recorded admits where
  version h := by
    obtain ⟨v, hv, rfl⟩ := recorded_version_eq_ok.1 h
    exact serves.version hv
  commit h := by
    obtain ⟨v, hv, rfl⟩ := recorded_commit_eq_ok.1 h
    exact serves.commit hv
  emit h := by
    obtain ⟨v, hv, rfl⟩ := recorded_emit_eq_ok.1 h
    exact serves.emit hv
  positions h := by
    obtain ⟨v, hv, rfl⟩ := recorded_positions_eq_ok.1 h
    exact serves.positions hv
  begins h := by
    obtain ⟨v, hv, rfl⟩ := recorded_begin_eq_ok.1 h
    exact serves.begins hv
  maximum h := by
    obtain ⟨v, hv, rfl⟩ := recorded_maximum_eq_ok.1 h
    exact serves.maximum hv
  query h := by
    obtain ⟨v, hv, rfl⟩ := recorded_query_eq_ok.1 h
    exact serves.query hv

theorem Move.committed_le {admits : String → Row → Prop} {g : Ledger σ} (serves : env.Serves g admits)
    {p q : Phase} {s t : Session σ} (h : Move env p s q t) :
    g.committed s.world ≤ g.committed t.world := by
  cases h with
  | sent emit => exact serves.emit emit
  | began reads commit positions commit' begins =>
    obtain ⟨n, h₁, h₂, -⟩ := serves.positions positions
    obtain ⟨h₃, h₄⟩ := serves.begins begins
    have h₅ := serves.commit commit
    have h₆ := serves.commit commit'
    simp only
    omega
  | measured run tables unknown maximum | vacant run tables unknown maximum =>
    exact (serves.maximum maximum).1
  | exhausted run tables known query | buffered run tables known found query =>
    exact (serves.query query).1
  | kept running positions clear | reverted running positions ambiguous held =>
    obtain ⟨n, h₁, h₂, -⟩ := serves.positions positions
    exact h₁.trans h₂
  | _ => exact le_rfl

theorem Coordinator.mem_queue {c : Coordinator} {r : Run} {u : Table} {ts : List Table}
    (hr : c.run = some r) (ht : r.tables = u :: ts) : u ∈ c.queue := by
  simp [queue, hr, ht]

/-- What a move keeps. The table is read only while it is queued. -/
theorem Coordinator.Follows.move {g : Ledger σ} {admits : String → Row → Prop} {t : Table}
    {H d d' : Nat} {asked : Prop} {ok : Command → Prop} {p q : Phase} {s s' : Session (Recorded σ)}
    (serves : env.Serves g admits) (h : Move env.recorded p s q s') (hregular : s.Regular ok p)
    (hH : t ∈ s.coordinator.queue → g.committed s'.world.world ≤ H)
    (hs : s.coordinator.Follows g t H d d' asked p s.world.world s.emitted) :
    s'.coordinator.Follows g t H d d' asked q s'.world.world s'.emitted := by
  have hempty := hregular.consistent.rows
  have hsent (hp : p.records = []) (hq : q.records = []) : s'.emitted = s.emitted := by
    simpa only [hp, hq, List.append_nil] using emitted_move h
  cases h with
  | sent emit =>
    obtain ⟨v, hemit, rfl⟩ := recorded_emit_eq_ok.1 emit
    simp only [Session.emitted, Session.journal, List.filterMap_append]
    exact hs.sent (serves.emit hemit)
  | allSent => exact hs.of_same_run (q := .due) rfl hempty fun _ => .of_empty hempty
  | declined stays => exact hs.of_same_run (q := .idle) rfl rfl fun hseen => hseen
  | served run tables => exact hs.of_same_run (q := .filled) rfl rfl fun _ => .of_empty hempty
  | @began c w w₁ w₂ w₃ w₄ low reads commit positions commit' begins =>
    obtain ⟨r, hr, -⟩ := (Option.any_eq_true _ _).1 reads
    obtain ⟨n, h₁, h₂, hmarks⟩ := serves.recorded.positions positions
    obtain ⟨h₃, h₄⟩ := serves.recorded.begins begins
    have h₅ := serves.recorded.commit commit
    have h₆ := serves.recorded.commit commit'
    rw [hsent rfl rfl]
    exact hs.began _ hempty hr (h₅.trans (h₁.trans (h₂.trans (h₆.trans h₃)))) h₄
      (h₂.trans (h₆.trans h₃)) hmarks
  | measured run tables unknown maximum =>
    obtain ⟨hw, hbegan, n, -, hn, hlargest⟩ := serves.recorded.maximum maximum
    rw [hsent rfl rfl]
    refine hs.measured run tables hw hbegan (fun hu => ?_) hlargest
    exact hn.trans (hH (hu ▸ Coordinator.mem_queue run tables))
  | vacant run tables unknown maximum =>
    obtain ⟨hw, hbegan, n, -, hn, hlargest⟩ := serves.recorded.maximum maximum
    rw [hsent rfl rfl]
    refine hs.finished _ run tables hw hbegan fun hu => ?_
    subst hu
    exact hs.settled_of_vacant (hn.trans (hH (Coordinator.mem_queue run tables))) hlargest
  | @exhausted c w w' r u ts run tables known query =>
    obtain ⟨hw, hbegan, n, -, hn, hrows⟩ := serves.recorded.query query
    rw [hsent rfl rfl]
    refine hs.finished _ run tables hw hbegan fun hu => ?_
    subst hu
    obtain ⟨hcur, hafter, hupTo, hfilter⟩ := Coordinator.chunkQuery_of_run run tables
    exact hs.settled_of_exhausted hempty run hcur
      (hn.trans (hH (Coordinator.mem_queue run tables))) hrows (hregular.limit_pos u) hafter hupTo
      (hfilter.trans (hs.unfiltered r run))
  | @buffered c w w' r u ts rows run tables known found query =>
    obtain ⟨hw, -, n, hn, hn', hrows⟩ := serves.recorded.query query
    obtain ⟨hcur, hafter, hupTo, hfilter⟩ := Coordinator.chunkQuery_of_run run tables
    rw [hsent rfl rfl]
    refine hs.buffered hempty run hcur hw hn hn' (fun hu => ?_) hrows found hafter hupTo fun hu => ?_
    · exact hH (hu ▸ Coordinator.mem_queue run tables)
    · obtain rfl : u = t := hu
      exact hfilter.trans (hs.unfiltered r run)
  | kept running positions clear =>
    obtain ⟨n, h₁, h₂, -⟩ := serves.recorded.positions positions
    rw [hsent rfl rfl]
    refine hs.of_run (fun r => r.setHigh _) rfl (fun _ => ⟨rfl, rfl, rfl⟩) (fun _ => rfl)
      (fun _ => rfl) (h₁.trans h₂) rfl fun hseen => ?_
    exact Coordinator.HoldsSeen.of_run hseen (fun r => r.setHigh _) rfl (fun _ => rfl) (fun _ => rfl) rfl
  | reverted running positions ambiguous held =>
    obtain ⟨n, h₁, h₂, -⟩ := serves.recorded.positions positions
    rw [hsent rfl rfl]
    exact hs.reverted _ (h₁.trans h₂)
  | completed ended =>
    refine hs.of_run (fun r => r.closeWindow _) rfl (fun _ => ⟨rfl, rfl, rfl⟩) (fun _ => rfl)
      (fun _ => rfl) le_rfl rfl fun _ => ?_
    intro hcur
    obtain ⟨r', hr', hcur⟩ := Option.bind_eq_some_iff.1 hcur
    obtain ⟨r, hr, rfl⟩ := Option.map_eq_some_iff.1 hr'
    have hne : r.tables ≠ [] := by
      intro h
      simp [Run.currentTable, Run.closeWindow, Run.touch, h] at hcur
    simp only [Coordinator.isRunning, hr, Option.any_some, Run.isRunning] at ended
    exact absurd ended (by simpa using hne)

end Backfill
