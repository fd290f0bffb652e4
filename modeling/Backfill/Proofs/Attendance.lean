import Backfill.Proofs.Reconstruction

/-! What the stages of an operation do to a table that is followed. -/
namespace Backfill
open Procedure Session Environment
variable {σ : Type} {env : Environment σ}

/-- Whether tables are queued without a filter for a table. Filters go by the texts of tables. -/
def Unfiltered (t : Table) (tables : List Table) (filters : TextMap String) : Prop :=
  ∀ u ∈ tables, u.text = t.text → filters.get? u.text = none

def Command.Allows (t : Table) (cmd : Command) : Prop :=
  match cmd.action with
  | .stop => cmd.tables ≠ [] ∧ t ∉ cmd.tables
  | .execute => Unfiltered t cmd.tables cmd.filters
  | _ => True

/-- Whether a stage in which nothing is started and no change delivered neither takes a table off the
queue nor gives it a filter. -/
def Stage.Allows (t : Table) : Stage → Prop
  | .start .. | .pass .. => False
  | .place _ e => ∀ change, e.kind ≠ .change change
  | .stop tables => tables ≠ [] ∧ t ∉ tables
  | .add _ tables filters => Unfiltered t tables filters
  | .enqueue cmd => cmd.Allows t
  | _ => True

theorem Stage.Allows.not_starts {t : Table} {st : Stage} (h : st.Allows t) : ¬ st.Starts := by
  intro hstart
  cases st with
  | start rounds restored => exact h
  | _ => exact hstart

namespace Run
variable {r : Run} {t : Table} {now : Int64} {tables : List Table} {filters : TextMap String}

theorem mem_enqueue (r : Run) (filters : TextMap String) (t : Table) :
    t ∈ (r.enqueue filters t).tables := by
  unfold enqueue
  split
  · assumption
  · simp

theorem mem_addTables (h : t ∈ tables) : t ∈ (r.addTables now tables filters).tables := by
  obtain ⟨before, after, rfl⟩ := List.append_of_mem h
  obtain ⟨new, filters', heq⟩ :=
    ((before.foldl (enqueue filters) r).enqueue filters t).addTables_eq now after filters
  have hsplit : r.addTables now (before ++ t :: after) filters =
      ((before.foldl (enqueue filters) r).enqueue filters t).addTables now after filters := by
    simp only [addTables, List.foldl_append, List.foldl_cons]
  rw [hsplit, heq]
  exact List.mem_append_left _ (mem_enqueue _ _ _)

theorem unfiltered_addTables (h : Unfiltered t tables filters) (hr : r.filters.get? t.text = none) :
    (r.addTables now tables filters).filters.get? t.text = none := by
  suffices hall : (tables.foldl (enqueue filters) r).filters.get? t.text = none from hall
  induction tables generalizing r with
  | nil => exact hr
  | cons u us ih =>
    refine ih (fun v hv => h v (List.mem_cons_of_mem _ hv)) ?_
    unfold enqueue
    split
    · exact hr
    · have hu := h u List.mem_cons_self
      by_cases htext : u.text = t.text
      · simp only [hu htext]
        exact hr
      · simp only
        split
        · rw [TextMap.get?_insert, if_neg fun he => htext he.symm]
          exact hr
        · exact hr

theorem unfiltered_removeTables (hr : r.filters.get? t.text = none) :
    (r.removeTables now tables).filters.get? t.text = none := by
  suffices hall : ∀ m : TextMap String, m.get? t.text = none →
      (tables.foldl (fun m u => m.erase u.text) m).get? t.text = none from hall r.filters hr
  induction tables with
  | nil => exact fun m hm => hm
  | cons u us ih => exact fun m hm => ih _ (TextMap.get?_erase_of_none hm)

end Run

/-- A position outside the low watermark that does not end the window is compared with the rows. -/
theorem Watermarks.deduplicates_of_past {marks : Watermarks} {mode : WindowMode} {pos : Position}
    (hpast : isPast marks.low pos = true) (h : (marks.transition mode (some pos)).closes = false) :
    (marks.transition mode (some pos)).deduplicates = true := by
  cases mode <;> cases hhigh : isPast marks.high pos <;>
    simp_all [transition, Transition.closes, Transition.deduplicates]

namespace Run.Covers
variable {g : Ledger σ} {t : Table} {H d : Nat} {p q : Phase} {c : Coordinator} {es : List Emission}
  {r : Run}

theorem of_unread (hm : r.chunk.maximum = none) (hres : r.Resumable) : r.Covers g t H d p c es := by
  obtain ⟨hstart, hstop⟩ := hres.unread hm
  have hnone {bound : Option Key} (hb : bound = none) (k : Key) : ¬ Reaches bound k := by
    rintro ⟨b, hb', -⟩
    exact absurd (hb.symm.trans hb') (by simp)
  exact ⟨fun m hm' => absurd (hm.symm.trans hm') (by simp),
    fun k hk => absurd hk (hnone hstop k), fun k hk => absurd hk (hnone hstart k)⟩

end Run.Covers
namespace Coordinator.Follows
variable {g : Ledger σ} {t : Table} {H d d' : Nat} {asked : Prop} {p q : Phase} {c : Coordinator}
  {w : σ} {es : List Emission} {r : Run}

/-- What is only asked for is followed from then on. -/
theorem of_asked {asked' : Prop} (h : c.Follows g t H d d' asked p w es)
    (hasked : asked' → asked ∨ t ∈ c.queue) : c.Follows g t H d d' asked' p w es :=
  ⟨h.le, h.delivered, h.told, fun ha => (hasked ha).elim h.wanted .inl, h.seen, h.covers,
    h.unfiltered⟩

theorem of_kept {c' : Coordinator} (h : c.Follows g t H d d asked .idle w es) (f : Run → Run)
    (hrun : c'.run = c.run.map f) (hf : ∀ r, (f r).chunk = r.chunk ∧ (f r).tables = r.tables ∧
      (f r).filters = r.filters ∧ (f r).watermarks = r.watermarks)
    (hrows : c'.buffer.rows = c.buffer.rows) : c'.Follows g t H d d asked .idle w es := by
  refine h.of_run f hrun (fun r => ?_) (fun r => (hf r).2.1) (fun r => (hf r).2.2.1) le_rfl hrows
    fun hseen => ?_
  · rw [(hf r).1]
    exact ⟨rfl, rfl, rfl⟩
  · refine HoldsSeen.of_run hseen f hrun (fun r => (hf r).2.1) (fun r => ?_) hrows
    rw [(hf r).2.2.2]

theorem due (h : c.Follows g t H d d' asked .idle w es) : c.Follows g t H d d' asked .due w es :=
  h.of_same_run rfl rfl fun hseen => hseen

theorem added {tables : List Table} {filters : TextMap String}
    (h : c.Follows g t H d d' asked .idle w es) (hr : c.run = some r) (hres : r.Resumable)
    (now : Int64) (hfilters : Unfiltered t tables filters)
    (hseen : q.Seen g t H d d' { c with run := some (r.addTables now tables filters) } w)
    (hunsent : q.unsent c = Phase.idle.unsent c) :
    ({ c with run := some (r.addTables now tables filters) } : Coordinator).Follows g t H d d'
      (asked ∨ t ∈ tables) q w es := by
  obtain ⟨new, filters', heq⟩ := r.addTables_eq now tables filters
  have hchunk : (r.addTables now tables filters).chunk = r.chunk := by rw [heq]
  have htables : (r.addTables now tables filters).tables = r.tables ++ new := by rw [heq]
  refine ⟨h.le, h.delivered, h.told, fun ha => ?_, hseen, ?_, ?_⟩
  · rcases ha with ha | ha
    · refine (h.wanted ha).imp_left fun hmem => ?_
      have hmem : t ∈ r.tables := by simpa [queue, hr] using hmem
      simp only [queue, Option.map_some, Option.getD_some, htables]
      exact List.mem_append_left _ hmem
    · exact .inl (Run.mem_addTables ha)
  · rintro r' hr' hcur
    obtain rfl := Option.some.inj hr'
    cases ht : r.tables with
    | nil =>
      refine Run.Covers.of_unread (hchunk ▸ hres.ended ht) ?_
      exact ⟨hchunk ▸ hres.unread, fun _ => hchunk ▸ hres.ended ht⟩
    | cons u us =>
      have hcur : r.currentTable = some t := by
        rw [Run.currentTable, htables, ht] at hcur
        rw [Run.currentTable, ht]
        exact hcur
      obtain ⟨hknown, hread, hbegun⟩ := h.covers r hr hcur
      exact ⟨hchunk ▸ hknown, hchunk ▸ hunsent ▸ hread, hchunk ▸ hbegun⟩
  · rintro r' hr'
    obtain rfl := Option.some.inj hr'
    exact Run.unfiltered_addTables hfilters (h.unfiltered r hr)

theorem stopped {tables : List Table} (h : c.Follows g t H d d' asked .idle w es) (now : Int64)
    (hne : tables ≠ []) (ht : t ∉ tables) :
    (c.stopTables now tables).Follows g t H d d' asked .idle w es := by
  have hqueue {r : Run} (hr : c.run = some r) : asked → t ∈ (r.removeTables now tables).tables ∨
      ∀ k, g.source.Settled t H d es k := by
    refine fun ha => (h.wanted ha).imp_left fun hmem => ?_
    have hmem : t ∈ r.tables := by simpa [queue, hr] using hmem
    exact List.mem_filter.2 ⟨hmem, by simpa using ht⟩
  have hfilters {r : Run} (hr : c.run = some r) :
      (r.removeTables now tables).filters.get? t.text = none :=
    Run.unfiltered_removeTables (h.unfiltered r hr)
  rcases c.stopTables_cases now tables with ⟨heq, -⟩ | ⟨r, hr, -, ⟨hall, -⟩ | ⟨-, hcurrent, heq⟩ |
    ⟨-, hstays, heq⟩⟩
  · rw [heq]
    exact h
  · exact absurd hall hne
  · rw [heq]
    refine ⟨h.le, h.delivered, h.told, hqueue hr, .of_empty rfl, ?_, ?_⟩
    · rintro r' hr' -
      obtain rfl := Option.some.inj hr'
      have hchunk : (r.removeTables now tables).chunk = {} := by
        simp [Run.removeTables, Run.touch, hcurrent]
      exact .of_unread (hchunk ▸ rfl) (.of_empty hchunk)
    · rintro r' hr'
      exact Option.some.inj hr' ▸ hfilters hr
  · obtain ⟨hchunk, hcurrent⟩ := Run.removeTables_of_stays hstays now
    rw [heq]
    refine ⟨h.le, h.delivered, h.told, hqueue hr, ?_, ?_, ?_⟩
    · refine Coordinator.HoldsSeen.of_eq h.seen ?_ ?_ rfl
      · rw [currentTable, currentTable, hr]
        exact hcurrent
      · rw [lowMark, lowMark, hr]
        rfl
    · rintro r' hr' hcur
      obtain rfl := Option.some.inj hr'
      obtain ⟨hknown, hread, hbegun⟩ := h.covers r hr (hcurrent.symm.trans hcur)
      exact ⟨hchunk ▸ hknown, hchunk ▸ hread, hchunk ▸ hbegun⟩
    · rintro r' hr'
      exact Option.some.inj hr' ▸ hfilters hr

/-- The window ends, and its rows are to be sent. -/
theorem flushed (h : c.Follows g t H d d asked .idle w es) (hc : c.Consistent .idle)
    (hd : d ≤ d') (hd' : d' ≤ g.source.boundary (g.committed w)) (now : Int64) (pt : Partition)
    (o : Offset) : ((c.closeWindow now).flushing pt o).2.Follows g t H d d' asked
      ((c.closeWindow now).flushing pt o).1 w es := by
  rw [flushing_coordinator]
  rcases hc.flushing now pt o with ⟨hempty, hp⟩ | ⟨u, hu, hp⟩
  · rw [hp]
    have h' : (c.closeWindow now).dropRows.Follows g t H d d asked .due w es :=
      h.of_run (fun r => r.closeWindow now) rfl (fun _ => ⟨rfl, rfl, rfl⟩) (fun _ => rfl)
        (fun _ => rfl) le_rfl hempty.symm fun _ => .of_empty rfl
    exact ⟨hd, hd', h'.told, h'.wanted, .of_empty rfl, h'.covers, h'.unfiltered⟩
  · rw [hp]
    have hcur : (c.closeWindow now).dropRows.currentTable = some u :=
      (currentTable_updateRun (f := fun r => r.closeWindow now) fun _ => rfl).trans hu
    have hrows : u = t → ∀ row ∈ c.buffer.rows,
        g.source.Shows t H 0 d row.key (some row.data) := by
      rintro rfl row hrow
      obtain ⟨low, n, -, -, hshows⟩ := h.seen hu row hrow
      exact hshows.of_low
    have h' : (c.closeWindow now).dropRows.Follows g t H d d asked
        (.sending pt u o.forSnapshot c.buffer.size c.buffer.rows) w es :=
      h.of_run (fun r => r.closeWindow now) rfl (fun _ => ⟨rfl, rfl, rfl⟩) (fun _ => rfl)
        (fun _ => rfl) le_rfl rfl fun _ => ⟨hcur, hrows⟩
    exact ⟨hd, hd', h'.told, h'.wanted, ⟨hcur, hrows⟩, h'.covers, h'.unfiltered⟩

/-- The window moves to the position of a unit that is no change. -/
theorem placed {e : Event} (h : c.Follows g t H d d asked .idle w es)
    (he : ∀ change, e.kind ≠ .change change) : (c.moveTo e).Follows g t H d d asked .idle w es :=
  h.of_kept _ (c.moveTo_run e) (fun _ => ⟨rfl, rfl, rfl, rfl⟩) (moveTo_rows_of_not_change he c)

/-- A change outside the low watermark that does not end the window drops the row it is about. -/
theorem key_ne_of_placed {e : Event} {pos : Position} {ch : Change} {low : PositionSet} {row : Row}
    (hlow : c.lowMark = some low) (hpos : e.position = some pos) (hkind : e.kind = .change ch)
    (hpast : low.contains pos = false) (hstays : (c.transition e).closes = false)
    (hcur : c.currentTable = some ch.table) (hrow : row ∈ (c.moveTo e).buffer.rows) :
    row.key ≠ ch.key := by
  obtain ⟨r, hr, hlow⟩ := Option.bind_eq_some_iff.1 hlow
  have hded : (c.transition e).deduplicates = true := by
    simp only [transition, hr, Option.map_some, Option.getD_some, Run.transition, hpos] at hstays ⊢
    exact Watermarks.deduplicates_of_past (by simp [Watermarks.isPast, hlow, hpast]) hstays
  rw [moveTo_rows_of_change hkind, if_pos ⟨hded, hcur⟩] at hrow
  simpa using (List.mem_filter.1 hrow).2

/-- The window moves to the position of the next change. A row that was seen before the change is
the row of the change, and dropped. -/
theorem holdsSeen_placed {e : Event} {pos : Position} {ch : Change} (h : c.HoldsSeen g t H d)
    (hch : g.source.changes[d]? = some (pos, ch)) (hkind : e.kind = .change ch)
    (hpos : e.position = some pos) (hstays : (c.transition e).closes = false) :
    (c.moveTo e).HoldsSeen g t H (d + 1) := by
  intro hcur row hrow
  obtain ⟨keep, hkeep, -⟩ := c.moveTo_rows e
  rw [moveTo_currentTable] at hcur
  have hmem : row ∈ c.buffer.rows := (List.mem_filter.1 (hkeep ▸ hrow)).1
  obtain ⟨low, n, hlow, hmarks, hshows⟩ := h hcur row hmem
  refine ⟨low, n, ?_, hmarks, hshows.succ hch ?_⟩
  · rw [lowMark, moveTo_run, Option.bind_map]
    exact hlow
  · cases hcontains : low.contains pos with
    | true => exact .inl (Source.lt_boundary hmarks hch hcontains)
    | false =>
      refine .inr fun hsame => ?_
      have hcur' : c.currentTable = some ch.table := hcur.trans (congrArg some hsame.1.symm)
      exact key_ne_of_placed hlow hpos hkind hcontains hstays hcur' hrow hsame.2.symm

/-- A row that the next change drops is settled by the change. -/
theorem placedChange {e : Event} {pos : Position} {ch : Change}
    (h : c.Follows g t H d d asked .idle w es) (hch : g.source.changes[d]? = some (pos, ch))
    (hd : d < g.source.boundary (g.committed w)) (hH : t ∈ c.queue → g.committed w ≤ H)
    (hkind : e.kind = .change ch) (hpos : e.position = some pos)
    (hstays : (c.transition e).closes = false) :
    (c.moveTo e).Follows g t H d (d + 1) asked .idle w es := by
  obtain ⟨keep, hkeep, hdropped⟩ := c.moveTo_rows e
  have hback (r' : Run) (hr' : (c.moveTo e).run = some r') : ∃ r, c.run = some r ∧
      { r with mode := (r.transition e.position).mode } = r' :=
    Option.map_eq_some_iff.1 ((c.moveTo_run e).symm.trans hr')
  refine ⟨Nat.le_succ d, hd, h.told, fun ha => ?_, holdsSeen_placed h.seen hch hkind hpos hstays,
    fun r' hr' hcur => ?_, fun r' hr' => ?_⟩
  · rw [queue_of_run _ (c.moveTo_run e) fun _ => rfl]
    exact h.wanted ha
  · obtain ⟨r, hr, rfl⟩ := hback r' hr'
    obtain ⟨hknown, hread, hbegun⟩ := h.covers r hr hcur
    have hmem : t ∈ c.queue := by
      rw [queue, hr]
      exact List.mem_of_head? hcur
    refine ⟨hknown, fun k hk => ?_, hbegun⟩
    rcases hread k hk with hs | ⟨row, hrow, rfl⟩
    · exact .inl hs
    · cases hkept : keep row with
      | true =>
        refine .inr ⟨row, ?_, rfl⟩
        rw [show Phase.idle.unsent (c.moveTo e) = _ from hkeep]
        exact List.mem_filter.2 ⟨hrow, hkept⟩
      | false =>
        have hcur' : c.currentTable = some t := by
          rw [currentTable, hr]
          exact hcur
        have hnamed := hdropped row hkept t hcur'
        simp only [Event.named, hkind, Option.some.injEq, Prod.mk.injEq] at hnamed
        have hcommitted := g.source.boundary_mono (hH hmem)
        exact .inl (.inr (.inr ⟨d, pos, ch, le_rfl, by omega, hch, hnamed.1, hnamed.2⟩))
  · obtain ⟨r, hr, rfl⟩ := hback r' hr'
    exact h.unfiltered r hr

theorem passed {e : Emission} {pos : Position} {ch : Change} {w' : σ}
    (h : c.Follows g t H d (d + 1) asked .idle w es) (hch : g.source.changes[d]? = some (pos, ch))
    (hw : g.committed w ≤ g.committed w') (ht : e.table = ch.table) (hr : e.record = ch.record) :
    c.Follows g t H (d + 1) (d + 1) asked .idle w' (es ++ [e]) := by
  have hsettled {k : Key} (hk : g.source.Settled t H d es k) :
      g.source.Settled t H (d + 1) (es ++ [e]) k := hk.pass hch ht hr
  refine ⟨le_rfl, h.delivered.trans (g.source.boundary_mono hw), h.told.pass hch ht hr, fun ha => ?_,
    h.seen, fun r hrun hcur => ?_, h.unfiltered⟩
  · exact (h.wanted ha).imp_right fun hall k => hsettled (hall k)
  · obtain ⟨hknown, hread, hbegun⟩ := h.covers r hrun hcur
    exact ⟨fun m hm k => (hknown m hm k).imp_right hsettled,
      fun k hk => (hread k hk).imp_left hsettled, fun k hk => hsettled (hbegun k hk)⟩

theorem started {c' : Coordinator} {w' : σ} {token : String}
    (h : c.Follows g t H d d asked .idle w es) (hr : c.run = none)
    (hw : g.committed w ≤ g.committed w') (now : Int64) :
    ({ c'.dropWindow with run := some (Run.fresh token now) } : Coordinator).Follows g t H d d asked
      .idle w' es := by
  refine ⟨le_rfl, h.delivered.trans (g.source.boundary_mono hw), h.told, fun ha => ?_, .of_empty rfl,
    ?_, ?_⟩
  · exact .inr ((h.wanted ha).resolve_left (by simp [queue, hr]))
  · rintro r hr' -
    obtain rfl := Option.some.inj hr'
    exact .of_unread rfl (.fresh token now)
  · rintro r hr'
    obtain rfl := Option.some.inj hr'
    rfl

/-- A run is taken up again by another coordinator. -/
theorem restarted {c' : Coordinator} {w' : σ} (h : c.Follows g t H d d asked .idle w es)
    (hr : c.run = some r) (hw : g.committed w ≤ g.committed w') (now : Int64) :
    ({ c'.dropWindow with run := some (r.prepareResume now) } : Coordinator).Follows g t H d d asked
      .due w' es := by
  refine ⟨le_rfl, h.delivered.trans (g.source.boundary_mono hw), h.told, fun ha => ?_, .of_empty rfl,
    ?_, ?_⟩
  · have hwanted := h.wanted ha
    rw [queue, hr] at hwanted
    exact hwanted
  · rintro r' hr' hcur
    obtain rfl := Option.some.inj hr'
    obtain ⟨hknown, -, hbegun⟩ := h.covers r hr hcur
    exact ⟨hknown, fun k hk => .inl (hbegun k hk), hbegun⟩
  · rintro r' hr'
    obtain rfl := Option.some.inj hr'
    exact h.unfiltered r hr

end Coordinator.Follows
end Backfill
