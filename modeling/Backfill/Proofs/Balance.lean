import Backfill.Proofs.FlushedRows
import Backfill.Proofs.ReadOnce
import Backfill.Proofs.Tally

/-! The statistics account for every row and for every window. What is counted along different ways,
by a unit that closes the window, by a heartbeat that has reached its end, by a chunk that is read
again, by a change that supersedes a row and by a run that completes, adds up over every row of
requests. -/
namespace Backfill
open Procedure Session Environment
variable {σ : Type} {env : Environment σ}

theorem RowBuffer.size_erase {b : RowBuffer} {k : Key} (hkeys : (b.rows.map Row.key).Nodup)
    (hk : b.holds k = true) : (b.erase k).size + 1 = b.size := by
  have hmem : k ∈ b.rows.map Row.key := by
    obtain ⟨row, hrow, hkey⟩ := List.any_eq_true.1 hk
    exact List.mem_map.2 ⟨row, hrow, of_decide_eq_true hkey⟩
  have herase : (b.erase k).rows.map Row.key = (b.rows.map Row.key).erase k := by
    rw [hkeys.erase_eq_filter, List.filter_map]
    refine congrArg (List.map Row.key) (List.filter_congr fun row _ => ?_)
    exact Bool.eq_iff_iff.2 (by simp)
  have hlength := congrArg List.length herase
  rw [List.length_map, List.length_erase_of_mem hmem, List.length_map] at hlength
  have hpos : 0 < b.rows.length := by simpa using List.length_pos_of_mem hmem
  rw [size, hlength, size]
  omega

theorem Coordinator.moveTo_cases (c : Coordinator) (e : Event) :
    (c.moveTo e).statistics = c.statistics ∧ (c.moveTo e).buffer = c.buffer ∨
      ∃ k, c.buffer.holds k = true ∧ (c.moveTo e).statistics = c.statistics.rowDeduplicated ∧
        (c.moveTo e).buffer = c.buffer.erase k := by
  unfold moveTo
  split
  · rename_i change _
    split
    · rcases deduplicate_cases _ change with heq | ⟨-, hheld, heq⟩ <;> rw [heq]
      · exact .inl ⟨rfl, rfl⟩
      · exact .inr ⟨change.key, hheld, rfl, rfl⟩
    · exact .inl ⟨rfl, rfl⟩
  · exact .inl ⟨rfl, rfl⟩

theorem Run.addTables_keeps (r : Run) (now : Int64) (tables : List Table)
    (filters : TextMap String) : (r.addTables now tables filters).watermarks = r.watermarks ∧
      (r.isRunning = true → (r.addTables now tables filters).isRunning = true) := by
  obtain ⟨new, filters', heq⟩ := r.addTables_eq now tables filters
  rw [heq]
  refine ⟨rfl, fun hrunning => ?_⟩
  cases htables : r.tables with
  | nil => simp [Run.isRunning, htables] at hrunning
  | cons t ts => simp [Run.isRunning]

theorem Coordinator.isPending_of_closes {c : Coordinator} {e : Event}
    (h : (c.transition e).closes = true) : c.isPending = true := by
  obtain ⟨r, hr⟩ := exists_run_of_closes h
  rw [isPending, hr]
  cases hhigh : r.watermarks.high with
  | some high => simp [hhigh]
  | none =>
    have hpast (p : Option Position) : (p.any fun p => Watermarks.isPast none p) = false := by
      cases p <;> rfl
    simp [transition, hr, Run.transition, Watermarks.transition, Transition.closes, hhigh,
      hpast] at h

theorem Coordinator.isPending_of_isReachedBy {c : Coordinator} {position : Option Position}
    (h : c.isReachedBy position = true) : c.isPending = true := by
  obtain ⟨r, hr, hreached⟩ := (Option.any_eq_true _ _).1 h
  rw [isPending, hr]
  cases hhigh : r.watermarks.high with
  | some high => simp [hhigh]
  | none => simp [Watermarks.isReached, hhigh] at hreached

namespace Stage

def isStart : Stage → Bool
  | .start .. => true
  | _ => false

def isStop : Stage → Bool
  | .stop _ => true
  | _ => false

/-- Whether a change is passed on with an offset of a snapshot. -/
def isFlagged : Stage → Bool
  | .pass e _ => e.offset.fromSnapshot
  | _ => false

def rowsDropped (st : Stage) (s t : Session σ) : Nat :=
  if st.isStop then s.coordinator.buffer.size - t.coordinator.buffer.size else 0

/-- Whether the run completes in a stage: a chunk is begun, and no table is left. -/
def completions (_ : Stage) (s t : Session (Recorded σ)) : Nat :=
  (t.coordinator.hasCompleted (Answer.windowsBegun s.journal) t.journal).toNat

def total (env : Environment σ) (count : Stage → Session σ → Session σ → Nat) :
    List Stage → Session σ → Nat
  | [], _ => 0
  | st :: sts, s =>
    match st.perform env s with
    | .ok _ t => count st s t + total env count sts t
    | .error _ _ => 0

end Stage

namespace Tally
variable {l : Tally} {p : Phase} {st : Stage} {s t s' : Session (Recorded σ)} {u : Unit}

theorem Accounts.moveTo {c : Coordinator} {j : List (Answer σ)} (h : l.Accounts .idle c j)
    {e : Event} (hnext : (c.moveTo e).Consistent .idle) : ∃ l' : Tally,
    l'.Accounts .idle (c.moveTo e) j ∧ l.Follows l' 0 0 0 := by
  have hpending : (c.moveTo e).isPending = c.isPending := by
    rw [Coordinator.isPending, Coordinator.moveTo_run, Option.any_map]
    rfl
  rcases c.moveTo_cases e with ⟨hshown, hbuffer⟩ | ⟨k, hheld, hshown, hbuffer⟩
  · exact ⟨l, h.transfer hnext hshown hbuffer (congrArg Bool.toNat hpending) ⟨rfl, rfl⟩, .refl l⟩
  · have hsize := RowBuffer.size_erase h.distinct hheld
    have hrows := h.rows
    refine ⟨{ l with superseded := l.superseded + 1 }, ⟨hnext, ?_, h.opened, h.buffered, ?_, ?_,
      h.sent, h.flagged, ?_⟩, (Follows.refl l).congr ⟨rfl, rfl, rfl, rfl⟩⟩
    · rw [hshown, h.shown, rowDeduplicated_shown]
    · simpa only [Phase.windows, hpending] using h.windows
    · rw [hbuffer]
      simp only [Phase.uncounted] at hrows ⊢
      omega
    · rw [hbuffer]
      exact h.distinct.sublist (List.filter_sublist.map _)

theorem Accounts.closeWindow {c : Coordinator} {j : List (Answer σ)} (h : l.Accounts .idle c j)
    (hpending : c.isPending = true) (now : Int64) (e : Event)
    (hnext : ((c.closeWindow now).flushing e.partition e.offset).2.Consistent
      ((c.closeWindow now).flushing e.partition e.offset).1) :
    { l with closed := l.closed + 1 }.Accounts
        ((c.closeWindow now).flushing e.partition e.offset).1
        ((c.closeWindow now).flushing e.partition e.offset).2 j ∧
      ((c.closeWindow now).flushing e.partition e.offset).1.Since (Answer.windowsBegun j)
        ((c.closeWindow now).flushing e.partition e.offset).2 j ∧
      ((c.closeWindow now).flushing e.partition e.offset).1.Tends
        ((c.closeWindow now).flushing e.partition e.offset).2 := by
  rw [Coordinator.flushing_coordinator] at hnext ⊢
  have hclosed : (c.closeWindow now).dropRows.isPending = false := by
    simp [Coordinator.isPending_eq, Coordinator.closeWindow, Option.any_map]
  have hshown : (c.closeWindow now).dropRows.statistics = { l with closed := l.closed + 1 }.shown :=
    (congrArg _ h.shown).trans l.windowClosed_shown
  have hempty : (c.closeWindow now).dropRows.buffer.size = 0 := rfl
  have hwindows := h.windows
  have hrows := h.rows
  have hsent := h.sent
  simp only [Phase.windows, hpending, Bool.toNat_true, Phase.uncounted, Phase.records,
    List.length_nil] at hwindows hrows hsent
  rcases h.consistent.flushing now e.partition e.offset with ⟨hnone, hp⟩ | ⟨t, -, hp⟩
  · have hheld : c.buffer.size = 0 := congrArg List.length hnone
    rw [hp] at hnext ⊢
    refine ⟨⟨hnext, hshown, h.opened, h.buffered, ?_, ?_, ?_, List.forall_mem_nil _, .nil⟩, .inl rfl,
      fun hpending => absurd (hclosed.symm.trans hpending) Bool.false_ne_true⟩
    · simp only [Phase.windows, hclosed, Bool.false_and, Bool.toNat_false]
      omega
    · simp only [hempty, Phase.uncounted]
      omega
    · simpa [Phase.records, Phase.uncounted] using hsent
  · rw [hp] at hnext ⊢
    refine ⟨⟨hnext, hshown, h.opened, h.buffered, ?_, ?_, ?_, fun x hx => ?_, .nil⟩, ⟨rfl, hclosed⟩,
      trivial⟩
    · simp only [Phase.windows]
      omega
    · simp only [hempty, Phase.uncounted]
      omega
    · simp only [Phase.records, Phase.uncounted, List.length_map]
      exact congrArg (· + c.buffer.size) hsent
    · obtain ⟨row, -, rfl⟩ := List.mem_map.1 hx
      rfl

theorem Accounts.drop {c c' : Coordinator} {j : List (Answer σ)} (h : l.Accounts .idle c j)
    (hnext : c'.Consistent .idle) (hshown : c'.statistics = c.statistics)
    (hbuffer : c'.buffer = c.buffer ∨ c'.buffer = .empty)
    (hpending : c'.isPending = true → c.isPending = true) :
    ∃ l' : Tally, l'.Accounts .idle c' j ∧
      l.Follows l' (c.buffer.size - c'.buffer.size) (c.isPending.toNat - c'.isPending.toNat) 0 := by
  have hwindows := h.windows
  have hrows := h.rows
  have hle : c'.isPending.toNat ≤ c.isPending.toNat := by
    cases hp : c'.isPending with
    | false => exact Nat.zero_le _
    | true => exact hpending hp ▸ Nat.le_refl _
  have hsize : c'.buffer.size ≤ c.buffer.size := by
    rcases hbuffer with heq | heq
    · exact heq ▸ Nat.le_refl _
    · exact heq ▸ Nat.zero_le _
  have hkeys : (c'.buffer.rows.map Row.key).Nodup := by
    rcases hbuffer with heq | heq <;> rw [heq]
    · exact h.distinct
    · exact .nil
  simp only [Phase.windows, Phase.uncounted] at hwindows hrows
  refine ⟨{ l with
      ended := l.ended + (c.isPending.toNat - c'.isPending.toNat)
      lost := l.lost + (c.buffer.size - c'.buffer.size) },
    ⟨hnext, hshown.trans h.shown, h.opened, h.buffered, ?_, ?_, h.sent, h.flagged, hkeys⟩,
    Nat.le_refl _, fun _ => rfl, rfl, rfl⟩
  · simp only [Phase.windows]
    omega
  · simp only [Phase.uncounted]
    omega

theorem Accounts.stopTables {c : Coordinator} {j : List (Answer σ)} (h : l.Accounts .idle c j)
    {now : Int64} {tables : List Table} (hnext : (c.stopTables now tables).Consistent .idle) :
    ∃ (l' : Tally) (ended : Nat), l'.Accounts .idle (c.stopTables now tables) j ∧
      l.Follows l' (c.buffer.size - (c.stopTables now tables).buffer.size) ended 0 := by
  have hremoved {r : Run} (hr : c.run = some r) (b : Option Run)
      (hb : b = some (r.removeTables now tables)) :
      (b.any fun r => r.watermarks.high.isSome) = true → c.isPending = true := by
    simp [Coordinator.isPending, hr, hb, Run.removeTables, Run.touch]
  rcases c.stopTables_cases now tables with ⟨heq, -⟩ | ⟨r, hr, -, ⟨-, heq⟩ | ⟨-, -, heq⟩ |
    ⟨-, -, heq⟩⟩ <;> rw [heq] at hnext ⊢
  · obtain ⟨l', hl', hfollows⟩ := h.drop hnext rfl (.inl rfl) id
    exact ⟨l', _, hl', hfollows⟩
  · obtain ⟨l', hl', hfollows⟩ := h.drop hnext rfl (.inr rfl)
      fun hpending => absurd hpending Bool.false_ne_true
    exact ⟨l', _, hl', hfollows⟩
  · obtain ⟨l', hl', hfollows⟩ := h.drop hnext rfl (.inr rfl) (hremoved hr _ rfl)
    exact ⟨l', _, hl', hfollows⟩
  · obtain ⟨l', hl', hfollows⟩ := h.drop hnext rfl (.inl rfl) (hremoved hr _ rfl)
    exact ⟨l', _, hl', hfollows⟩

/-- How the books go on when a stage begins: rows are dropped, a change is passed on, and if nothing
was stopped no window ends. -/
def Turns (l : Tally) (st : Stage) (p : Phase) (s t : Session (Recorded σ)) : Prop :=
  ∃ (l' : Tally) (ended : Nat), l'.Accounts p t.coordinator t.journal ∧
    l.Follows l' (st.rowsDropped s t) ended st.isFlagged.toNat ∧
    p.Since (Answer.windowsBegun s.journal) t.coordinator t.journal ∧
    (st.isStop = false → Phase.idle.Tends s.coordinator → ended = 0 ∧ p.Tends t.coordinator)

theorem Accounts.turns_same {c c' : Coordinator} {w : Recorded σ}
    (hl : l.Accounts .idle c w.journal) (hnext : c'.Consistent .idle)
    (hcounts : c'.statistics = c.statistics) (hbuffer : c'.buffer = c.buffer)
    (hpending : c'.isPending = c.isPending) (hrunning : c.isRunning = true → c'.isRunning = true)
    (hst : st.isStop = false ∧ st.isFlagged = false) : l.Turns st .idle ⟨c, w⟩ ⟨c', w⟩ := by
  obtain ⟨hstop, hflag⟩ := hst
  refine ⟨l, 0, hl.transfer hnext hcounts hbuffer (congrArg Bool.toNat hpending) ⟨rfl, rfl⟩, ?_,
    trivial, fun _ htends => ⟨rfl, ?_⟩⟩
  · simpa [Stage.rowsDropped, hstop, hflag] using Follows.refl l
  · exact fun h => hrunning (htends (hpending.symm.trans h))

theorem Accounts.of_no_run {c : Coordinator} {j : List (Answer σ)} (h : l.Accounts .idle c j)
    (hrun : c.run = none) : c.buffer.rows = [] ∧ c.isPending = false ∧ c.isRunning = false := by
  refine ⟨Decidable.byContradiction fun hrows => ?_, ?_, ?_⟩
  · obtain ⟨⟨r, -, -, hr, -⟩, -⟩ := h.consistent.rows hrows
    exact absurd (hrun.symm.trans hr) (by simp)
  · simp [Coordinator.isPending, hrun]
  · simp [Coordinator.isRunning, hrun]

/-- A run begins anew. A window that is still remembered, since its tables were stopped, ends then. -/
theorem Accounts.begin {c : Coordinator} {w : Recorded σ} {rounds : Nat} {tables : List Table}
    {filters : TextMap String} {now : Int64} {r : Run} (hl : l.Accounts .idle c w.journal)
    (hnext : ({ c with run := some (r.addTables now tables filters) } : Coordinator).Consistent .due)
    (hrun : c.run = some r) (hended : r.isRunning = false) :
    l.Turns (.add rounds tables filters) .due ⟨c, w⟩
      ⟨{ c with run := some (r.addTables now tables filters) }, w⟩ := by
  obtain ⟨hmarks, -⟩ := r.addTables_keeps now tables filters
  generalize hadded : ({ c with run := some (r.addTables now tables filters) } : Coordinator) = c'
    at hnext ⊢
  have hpending : c'.isPending = c.isPending := by
    simp only [← hadded, Coordinator.isPending, Option.any_some, hrun, hmarks]
  have hwindows := hl.windows
  refine ⟨{ l with ended := l.ended + (c.isPending && c'.mayRead).toNat },
    (c.isPending && c'.mayRead).toNat, ⟨hnext, hadded ▸ hl.shown, hl.opened, hl.buffered, ?_,
      hadded ▸ hl.rows, hl.sent, hl.flagged, hadded ▸ hl.distinct⟩,
    ⟨Nat.le_refl _, fun _ => rfl, rfl, rfl⟩, .inl rfl, fun _ htends => ?_⟩
  · have hsplit (a b : Bool) : a.toNat = (a && b).toNat + (a && !b).toNat := by
      cases a <;> cases b <;> rfl
    have hpart := hsplit c.isPending c'.mayRead
    simp only [Phase.windows, hpending] at hwindows ⊢
    omega
  · have hidle : c.isPending = false := by
      refine Bool.eq_false_iff.2 fun h => ?_
      have hrunning := htends h
      simp [Coordinator.isRunning, hrun, hended] at hrunning
    refine ⟨by simp [hidle], fun h => ?_⟩
    exact absurd (hidle.symm.trans (hpending.symm.trans h)) Bool.false_ne_true

theorem Accounts.enter (h : Enters env.recorded st s p t)
    (hl : l.Accounts .idle s.coordinator s.journal)
    (hstart : st.isStart = true → s.coordinator.run = none) : l.Turns st p s t := by
  have hnext := hl.consistent.enter h
  obtain ⟨c, w⟩ := s
  obtain ⟨c', w'⟩ := t
  dsimp only [journal] at *
  cases h with
  | fresh version accepted positions =>
    obtain ⟨v₁, -, rfl⟩ := recorded_version_eq_ok.1 version
    obtain ⟨v₂, -, rfl⟩ := recorded_positions_eq_ok.1 positions
    obtain ⟨hrows, hpending, -⟩ := hl.of_no_run (hstart rfl)
    have hbuffer : RowBuffer.empty = c.buffer := congrArg RowBuffer.mk hrows.symm
    exact ⟨l, 0, (hl.answered ⟨rfl, rfl, rfl⟩).transfer hnext rfl hbuffer
      (congrArg Bool.toNat hpending.symm) ⟨rfl, rfl⟩, .refl l, trivial,
      fun _ _ => ⟨rfl, fun h => absurd h Bool.false_ne_true⟩⟩
  | restored version accepted positions =>
    obtain ⟨v₁, -, rfl⟩ := recorded_version_eq_ok.1 version
    obtain ⟨v₂, -, rfl⟩ := recorded_positions_eq_ok.1 positions
    obtain ⟨hrows, hpending, -⟩ := hl.of_no_run (hstart rfl)
    have hbuffer : RowBuffer.empty = c.buffer := congrArg RowBuffer.mk hrows.symm
    refine ⟨l, 0, (hl.answered ⟨rfl, rfl, rfl⟩).transfer hnext rfl hbuffer ?_ ⟨rfl, rfl⟩, .refl l,
      .inl ?_, fun _ _ => ⟨rfl, fun h => absurd h Bool.false_ne_true⟩⟩
    · simp only [Phase.windows, hpending]
      rfl
    · simp [journal, Answer.isBegan]
  | enqueued | taken => exact hl.turns_same hnext rfl rfl rfl id ⟨rfl, rfl⟩
  | @added rounds tables filters c w r run running =>
    obtain ⟨hmarks, hrunning⟩ := r.addTables_keeps (env.now w.world) tables filters
    refine hl.turns_same hnext rfl rfl ?_ (fun _ => hrunning running) ⟨rfl, rfl⟩
    simp only [Coordinator.isPending, Option.any_some, run]
    exact congrArg (fun m => m.high.isSome) hmarks
  | @begun rounds tables filters c w r run ended => exact hl.begin hnext run ended
  | stopped =>
    obtain ⟨l', ended, hl', hfollows⟩ := hl.stopTables hnext
    exact ⟨l', ended, hl', hfollows, trivial, fun hstop => absurd hstop Bool.noConfusion⟩
  | paused =>
    exact hl.turns_same hnext rfl rfl (c.any_updateRun fun _ => rfl)
      (fun h => (c.isRunning_updateRun (f := fun r => { r with paused := true }) fun _ => rfl).trans h)
      ⟨rfl, rfl⟩
  | unpaused stays | unreached stays => exact hl.turns_same hnext rfl rfl rfl id ⟨rfl, rfl⟩
  | pending run pending =>
    refine hl.turns_same hnext rfl rfl ?_ ?_ ⟨rfl, rfl⟩
    · simp [Coordinator.isPending, run]
    · simp [Coordinator.isRunning, run, Run.isRunning]
  | @resumed rounds c w r run free =>
    have hpending : c.isPending = false := by simp [Coordinator.isPending, run, free]
    have hpending' : ({ c with run := some { r with paused := false } } : Coordinator).isPending =
        false := by
      simp [Coordinator.isPending, free]
    refine ⟨l, 0, hl.transfer hnext rfl rfl ?_ ⟨rfl, rfl⟩, .refl l, .inl rfl, fun _ _ => ⟨rfl, ?_⟩⟩
    · simp only [Phase.windows, hpending, hpending', Bool.false_and]
    · exact fun h => absurd (hpending'.symm.trans h) Bool.false_ne_true
  | @noted cmd c w =>
    have hpending : (c.note cmd).isPending = c.isPending := c.any_updateRun fun _ => rfl
    refine ⟨{ l with commands := l.commands + 1 }, 0,
      ⟨hnext, (congrArg _ hl.shown).trans l.signalApplied_shown, hl.opened, hl.buffered, ?_, hl.rows,
        hl.sent, hl.flagged, hl.distinct⟩, (Follows.refl l).congr ⟨rfl, rfl, rfl, rfl⟩, trivial,
      fun _ htends => ⟨rfl, fun h => ?_⟩⟩
    · simpa only [Phase.windows, hpending] using hl.windows
    · exact (c.isRunning_updateRun (f := fun r => { r with commandOffset := some cmd.offset })
        fun _ => rfl).trans (htends (hpending.symm.trans h))
  | @placed rounds e c w stays =>
    obtain ⟨l', hl', hfollows⟩ := hl.moveTo hnext
    refine ⟨l', 0, hl', hfollows, trivial, fun _ htends => ⟨rfl, fun h => ?_⟩⟩
    simp only [Coordinator.isPending, Coordinator.isRunning, Coordinator.moveTo_run,
      Option.any_map] at h ⊢
    exact htends h
  | closed closes =>
    obtain ⟨hl', hsince, htends⟩ :=
      hl.closeWindow (Coordinator.isPending_of_closes closes) _ _ hnext
    exact ⟨_, 0, hl', (Follows.refl l).congr ⟨rfl, rfl, rfl, rfl⟩, hsince, fun _ _ => ⟨rfl, htends⟩⟩
  | reached reached =>
    obtain ⟨hl', hsince, htends⟩ :=
      hl.closeWindow (Coordinator.isPending_of_isReachedBy reached) _ _ hnext
    exact ⟨_, 0, hl', (Follows.refl l).congr ⟨rfl, rfl, rfl, rfl⟩, hsince, fun _ _ => ⟨rfl, htends⟩⟩
  | @passed e change c w w' emit =>
    obtain ⟨v, -, rfl⟩ := recorded_emit_eq_ok.1 emit
    have hsent := hl.sent
    refine ⟨{ l with passed := l.passed + e.offset.fromSnapshot.toNat }, 0,
      ⟨hnext, hl.shown, ?_, ?_, hl.windows, hl.rows, ?_, hl.flagged, hl.distinct⟩,
      ⟨Nat.le_refl _, fun _ => rfl, rfl, rfl⟩, trivial, fun _ htends => ⟨rfl, htends⟩⟩
    · simpa [journal, Answer.isBegan] using hl.opened
    · simpa [journal, Answer.rows] using hl.buffered
    · simp only [journal, Answer.flaggedRecords_append, Answer.flaggedRecords_cons,
        Answer.flaggedRecords_nil, Answer.isFlagged]
      omega

theorem windowsBegun_of_enters (h : Enters env.recorded st s p t) :
    Answer.windowsBegun t.journal = Answer.windowsBegun s.journal := by
  cases h with
  | fresh version accepted positions | restored version accepted positions =>
    obtain ⟨v₁, -, rfl⟩ := recorded_version_eq_ok.1 version
    obtain ⟨v₂, -, rfl⟩ := recorded_positions_eq_ok.1 positions
    simp [journal, Answer.isBegan]
  | passed emit =>
    obtain ⟨v, -, rfl⟩ := recorded_emit_eq_ok.1 emit
    simp [journal, Answer.isBegan]
  | _ => rfl

/-- How the books go on in a stage. If nothing is stopped, a window that ends without being closed
is the last one of a run. -/
theorem Accounts.perform (hdistinct : ∀ q w rows w', env.rangeQuery q w = (.ok rows, w') →
      (rows.map Row.key).Nodup)
    (h : st.perform env.recorded s = .ok u s') (hl : l.Accounts .idle s.coordinator s.journal)
    (hstart : st.isStart = true → s.coordinator.run = none) :
    ∃ (l' : Tally) (ended : Nat), l'.Accounts .idle s'.coordinator s'.journal ∧
      l.Follows l' (st.rowsDropped s s') ended st.isFlagged.toNat ∧
      (st.isStop = false → Phase.idle.Tends s.coordinator →
        ended = st.completions s s' ∧ Phase.idle.Tends s'.coordinator) := by
  obtain ⟨p, t, henter, hmoves⟩ := perform_enters h
  obtain ⟨l₁, ended, hl₁, hfollows, hsince, htends⟩ := hl.enter henter hstart
  have hnone : p.completions (Answer.windowsBegun s.journal) t.coordinator t.journal = 0 := by
    cases p with
    | idle => simp [Phase.completions, Coordinator.hasCompleted, windowsBegun_of_enters henter]
    | _ => rfl
  -- the reading goes on with the books of the beginning
  have hreckons : l₁.Reckons (Answer.windowsBegun s.journal) p t.coordinator t.journal :=
    ⟨hsince, l₁, hl₁, hnone ▸ .refl l₁⟩
  obtain ⟨⟨-, l₂, hl₂, hrest⟩, htended⟩ := hmoves.keeps
    (I := fun q x => l₁.Reckons (Answer.windowsBegun s.journal) q x.coordinator x.journal ∧
      (p.Tends t.coordinator → q.Tends x.coordinator))
    (fun hmove hbefore => ⟨hbefore.1.move hdistinct hmove,
      fun h => Phase.Tends.move hmove hbefore.1.since (hbefore.2 h)⟩) ⟨hreckons, id⟩
  have hdropped : st.rowsDropped s t = st.rowsDropped s s' := by
    cases henter with
    | stopped =>
      obtain ⟨-, rfl⟩ := hmoves.of_idle
      rfl
    | _ => rfl
  refine ⟨l₂, ended + st.completions s s', hl₂, hdropped ▸ hfollows.trans hrest, fun hstop hs => ?_⟩
  obtain ⟨rfl, ht⟩ := htends hstop hs
  exact ⟨Nat.zero_add _, htended ht⟩

/-- Only a start makes a run where there was none. -/
theorem run_none_of_perform (h : st.perform env.recorded s = .ok u s') (hst : st.isStart = false)
    (hrun : s.coordinator.run = none) : s'.coordinator.run = none := by
  obtain ⟨p, t, henter, hmoves⟩ := perform_enters h
  cases henter with
  | fresh version accepted positions | restored version accepted positions =>
    exact absurd hst Bool.noConfusion
  | added run running | begun run ended | pending run pending | resumed run free =>
    exact absurd (hrun.symm.trans run) nofun
  | closed closes =>
    obtain ⟨r, hr⟩ := exists_run_of_closes closes
    exact absurd (hrun.symm.trans hr) nofun
  | reached reached =>
    obtain ⟨r, hr⟩ := exists_run_of_isReachedBy reached
    exact absurd (hrun.symm.trans hr) nofun
  | enqueued | taken | unpaused stays | unreached stays | passed emit =>
    obtain ⟨-, rfl⟩ := hmoves.of_idle
    exact hrun
  | paused | noted =>
    obtain ⟨-, rfl⟩ := hmoves.of_idle
    exact congrArg (Option.map _) hrun
  | placed stays =>
    obtain ⟨-, rfl⟩ := hmoves.of_idle
    rw [Coordinator.moveTo_run]
    exact congrArg (Option.map _) hrun
  | @stopped tables c w =>
    obtain ⟨-, rfl⟩ := hmoves.of_idle
    rcases c.stopTables_cases (env.recorded.now w) tables with ⟨heq, -⟩ | ⟨r, hr, -⟩
    · rw [heq]
      exact hrun
    · exact absurd (hrun.symm.trans hr) nofun

theorem total_cons {count : Stage → Session σ → Session σ → Nat} {sts : List Stage}
    {s t : Session σ} (h : st.perform env s = .ok () t) :
    Stage.total env count (st :: sts) s = count st s t + Stage.total env count sts t := by
  simp only [Stage.total, h]

theorem Accounts.performAll {sts : List Stage}
    (hdistinct : ∀ q w rows w', env.rangeQuery q w = (.ok rows, w') → (rows.map Row.key).Nodup)
    (h : Stage.performAll env.recorded sts s = .ok u s')
    (hl : l.Accounts .idle s.coordinator s.journal)
    (hstarts : sts.countP Stage.isStart ≤ s.coordinator.run.isNone.toNat) :
    ∃ (l' : Tally) (ended : Nat), l'.Accounts .idle s'.coordinator s'.journal ∧
      l.Follows l' (Stage.total env.recorded Stage.rowsDropped sts s) ended
        (sts.countP Stage.isFlagged) ∧
      ((∀ st ∈ sts, st.isStop = false) → Phase.idle.Tends s.coordinator →
        ended = Stage.total env.recorded Stage.completions sts s) := by
  induction sts generalizing l s with
  | nil => exact ⟨l, 0, each_nil_eq_ok.1 h ▸ hl, .refl l, fun _ _ => rfl⟩
  | cons st sts ih =>
    obtain ⟨t, hst, h⟩ := each_cons_eq_ok.1 h
    -- a stage that starts finds no run, and none of the later ones starts
    have hle := Bool.toNat_le s.coordinator.run.isNone
    have hstart (hs : st.isStart = true) : s.coordinator.run = none := by
      rw [List.countP_cons_of_pos hs] at hstarts
      exact Option.isNone_iff_eq_none.1 (Bool.toNat_eq_one.1 (by omega))
    have hrest : sts.countP Stage.isStart ≤ t.coordinator.run.isNone.toNat := by
      cases hs : st.isStart with
      | true =>
        rw [List.countP_cons_of_pos hs] at hstarts
        omega
      | false =>
        rw [List.countP_cons_of_neg (by simp [hs])] at hstarts
        cases hrun : s.coordinator.run with
        | none => simpa [hrun, run_none_of_perform hst hs hrun] using hstarts
        | some r =>
          simp only [hrun, Option.isNone_some, Bool.toNat_false] at hstarts
          omega
    obtain ⟨l₁, ended, hl₁, hfollows, hended⟩ := hl.perform hdistinct hst hstart
    obtain ⟨l₂, ended', hl₂, hfollows', hended'⟩ := ih h hl₁ hrest
    have hflagged : (st :: sts).countP Stage.isFlagged =
        st.isFlagged.toNat + sts.countP Stage.isFlagged := by
      cases hf : st.isFlagged <;> simp [hf, Nat.add_comm]
    refine ⟨l₂, ended + ended', hl₂, ?_, fun hstops hs => ?_⟩
    · rw [total_cons hst, hflagged]
      exact hfollows.trans hfollows'
    · obtain ⟨heq, ht⟩ := hended (hstops st List.mem_cons_self) hs
      rw [total_cons hst, heq, hended' (fun x hx => hstops x (List.mem_cons_of_mem _ hx)) ht]

end Tally

def Request.isStart : Request → Bool
  | .start .. => true
  | _ => false

theorem Request.countP_isStart_stages (req : Request) (c : Coordinator) (windows : Nat) :
    (req.stages c windows).countP Stage.isStart = req.isStart.toNat := by
  cases req with
  | start rounds restored => rfl
  | _ =>
    refine List.countP_eq_zero.2 fun st hst hstart => ?_
    cases st with
    | start rounds restored => exact nomatch Request.of_start_mem_stages hst
    | _ => exact Bool.noConfusion hstart

theorem Unfolds.countP_isStart {reqs : List Request} {sts : List Stage} {s s' : Session σ}
    (h : Unfolds env s reqs sts s') : sts.countP Stage.isStart = reqs.countP Request.isStart := by
  induction h with
  | nil => rfl
  | @cons s t u req reqs sts windows req_ok done rest ih =>
    rw [List.countP_append, Request.countP_isStart_stages, ih]
    cases hreq : req.isStart <;> simp [hreq, Nat.add_comm]

/-- What the statistics say about rows and windows after stages that a session was led through. The
counters wrap around at 64 bits; what they stand for is counted in the journal. -/
structure Session.Balanced (env : Environment σ) (s : Session (Recorded σ)) (sts : List Stage)
    (s' : Session (Recorded σ)) : Prop where
  /-- The emitted rows are the records that the sink was given with an offset of a snapshot, apart
  from changes that came with such an offset. -/
  sent : UInt64.ofNat (s'.emitted.countP fun e => e.offset.fromSnapshot) =
    s'.coordinator.statistics.rowsEmitted + .ofNat (sts.countP Stage.isFlagged)
  buffered : s'.coordinator.statistics.rowsBuffered = .ofNat (Answer.rowsRead s'.journal)
  opened : s'.coordinator.statistics.windowsOpened = .ofNat (Answer.windowsBegun s'.journal)
  /-- No more rows are sent, superseded and held than were read, whether or not a counter has wrapped
  around. -/
  rows_le : s'.coordinator.statistics.rowsEmitted.toNat +
    s'.coordinator.statistics.rowsDeduplicated.toNat + s'.coordinator.buffer.size ≤
      Answer.rowsRead s'.journal
  /-- If no chunk was read again, the other rows were dropped when their table was stopped. -/
  rows_eq : Answer.windowsBegun s'.journal < UInt64.size →
    s'.coordinator.statistics.chunkRereads = 0 →
    s'.coordinator.statistics.rowsBuffered = s'.coordinator.statistics.rowsEmitted +
      s'.coordinator.statistics.rowsDeduplicated + .ofNat s'.coordinator.buffer.size +
      .ofNat (Stage.total env.recorded Stage.rowsDropped sts s)
  /-- No more windows are closed and given up than were begun. -/
  windows_le : s'.coordinator.statistics.windowsClosed.toNat +
    s'.coordinator.statistics.chunkRereads.toNat ≤ Answer.windowsBegun s'.journal
  /-- If nothing was stopped, the other windows ended with the run or are pending. -/
  windows_eq : (∀ st ∈ sts, st.isStop = false) →
    s'.coordinator.statistics.windowsOpened = s'.coordinator.statistics.windowsClosed +
      s'.coordinator.statistics.chunkRereads +
      .ofNat (Stage.total env.recorded Stage.completions sts s) +
      if s'.coordinator.isPending then 1 else 0

namespace Session.Balanced
variable {s s' : Session (Recorded σ)} {sts : List Stage}

/-- As long as the counters do not wrap around, they can be read as they are. -/
theorem rows_le_of_lt (h : s.Balanced env sts s')
    (hrows : Answer.rowsRead s'.journal < UInt64.size) :
    s'.coordinator.statistics.rowsEmitted.toNat +
      s'.coordinator.statistics.rowsDeduplicated.toNat + s'.coordinator.buffer.size ≤
        s'.coordinator.statistics.rowsBuffered.toNat := by
  rw [h.buffered, UInt64.toNat_ofNat_of_lt' hrows]
  exact h.rows_le

theorem windows_le_of_lt (h : s.Balanced env sts s')
    (hwindows : Answer.windowsBegun s'.journal < UInt64.size) :
    s'.coordinator.statistics.windowsClosed.toNat + s'.coordinator.statistics.chunkRereads.toNat ≤
      s'.coordinator.statistics.windowsOpened.toNat := by
  rw [h.opened, UInt64.toNat_ofNat_of_lt' hwindows]
  exact h.windows_le

end Session.Balanced

theorem Tally.Accounts.balanced {l : Tally} {ended : Nat} {sts : List Stage}
    {s s' : Session (Recorded σ)} (hl : l.Accounts .idle s'.coordinator s'.journal)
    (hfollows : Tally.Follows {} l (Stage.total env.recorded Stage.rowsDropped sts s) ended
      (sts.countP Stage.isFlagged))
    (hended : (∀ st ∈ sts, st.isStop = false) →
      ended = Stage.total env.recorded Stage.completions sts s) : s.Balanced env sts s' := by
  have hsent := hl.sent
  have hrows := hl.rows
  have hwindows := hl.windows
  simp only [Phase.records, Phase.uncounted, Phase.windows, List.length_nil, Nat.add_zero,
    hfollows.passed, hfollows.ended, Nat.zero_add] at hsent hrows hwindows
  have hshows (n : Nat) : (UInt64.ofNat n).toNat ≤ n := Nat.mod_le _ _
  refine ⟨?_, ?_, ?_, ?_, fun hlt hrereads => ?_, ?_, fun hstops => ?_⟩
  · have hcount : (s'.emitted.countP fun e => e.offset.fromSnapshot) =
        Answer.flaggedRecords s'.journal := by
      rw [Session.emitted, List.countP_filterMap]
      exact congrArg (List.countP · _) (funext fun a => by cases a <;> rfl)
    rw [hcount, hsent, hl.shown, UInt64.ofNat_add]
    rfl
  · rw [hl.shown, ← hl.buffered]
    rfl
  · rw [hl.shown, ← hl.opened]
    rfl
  · rw [hl.shown, ← hl.buffered]
    have hemitted := hshows l.emitted
    have hsuperseded := hshows l.superseded
    simp only [Tally.shown]
    omega
  · rw [hl.shown] at hrereads ⊢
    have hfew : l.rereads < UInt64.size := by
      rw [← hl.opened] at hlt
      omega
    have hnone : l.rereads = 0 := by
      have hshown : (UInt64.ofNat l.rereads).toNat = 0 := congrArg UInt64.toNat hrereads
      rwa [UInt64.toNat_ofNat_of_lt' hfew] at hshown
    have hlost := hfollows.lost hnone
    have hsum : l.buffered = l.emitted + l.superseded + s'.coordinator.buffer.size +
        Stage.total env.recorded Stage.rowsDropped sts s := by
      simp only [Nat.zero_add] at hlost
      omega
    simp only [Tally.shown, hsum, UInt64.ofNat_add]
  · rw [hl.shown, ← hl.opened]
    have hclosed := hshows l.closed
    have hrereads := hshows l.rereads
    simp only [Tally.shown]
    omega
  · rw [hended hstops] at hwindows
    simp only [hl.shown, Tally.shown, hwindows, UInt64.ofNat_add]
    cases s'.coordinator.isPending <;> rfl

/-- Whatever is asked of a new coordinator that is started once, over a store whose answers have
distinct keys, its statistics account for every row and for every window. -/
theorem performAll_balances {settings : Settings} {commands : Option CommandQueue} {w : σ}
    {reqs : List Request} {s' : Session (Recorded σ)}
    (hdistinct : ∀ q w rows w', env.rangeQuery q w = (.ok rows, w') → (rows.map Row.key).Nodup)
    (honce : reqs.countP Request.isStart ≤ 1)
    (h : Request.performAll env.recorded reqs ⟨{ settings, commands }, ⟨w, []⟩⟩ = .ok () s') :
    ∃ sts, Unfolds env.recorded ⟨{ settings, commands }, ⟨w, []⟩⟩ reqs sts s' ∧
      Session.Balanced env ⟨{ settings, commands }, ⟨w, []⟩⟩ sts s' := by
  obtain ⟨sts, hsts⟩ := performAll_unfolds h
  have hinitial : Tally.Accounts {} .idle { settings, commands } ([] : List (Answer σ)) :=
    ⟨.initial settings commands, rfl, rfl, rfl, rfl, rfl, rfl, List.forall_mem_nil _, .nil⟩
  obtain ⟨l, ended, hl, hfollows, hended⟩ :=
    hinitial.performAll hdistinct hsts.performs (hsts.countP_isStart ▸ honce)
  exact ⟨sts, hsts, hl.balanced hfollows fun hstops => hended hstops nofun⟩

namespace Rehearsal

def shelvesTwice : Session (Recorded (List PositionSet)) where
  coordinator := { settings := { chunkSize := 2 } }
  world :=
    { world := [.empty, .empty, (upTo 5).insert ⟨"t", 1⟩, (upTo 5).insert ⟨"t", 1⟩,
        (upTo 6).insert ⟨"t", 1⟩, upTo 7, upTo 7, upTo 7, upTo 7]
      journal := [] }

/-- Of four windows two are closed, one is given up and one ends with the run. Of five rows two are
read again, one is superseded and two are sent. -/
theorem shelvesTwice_balances : ∃ s',
    Request.performAll (shelf shelves).recorded [.start 9 none,
      .add 9 [⟨"d", "a"⟩, ⟨"d", "b"⟩] .empty, .process 9 (unit 6 (update 1)),
      .process 9 (unit 7 .heartbeat)] shelvesTwice = .ok () s' ∧
    s'.coordinator.statistics.values = [4, 2, 3, 1, 5, 1, 2, 2, 0] ∧
    ∃ sts, Unfolds (shelf shelves).recorded shelvesTwice [.start 9 none,
        .add 9 [⟨"d", "a"⟩, ⟨"d", "b"⟩] .empty, .process 9 (unit 6 (update 1)),
        .process 9 (unit 7 .heartbeat)] sts s' ∧
      Session.Balanced (shelf shelves) shelvesTwice sts s' := by
  obtain ⟨s', h, hvalues⟩ := exists_of_endsIn
    (x := Request.performAll (shelf shelves).recorded [.start 9 none,
      .add 9 [⟨"d", "a"⟩, ⟨"d", "b"⟩] .empty, .process 9 (unit 6 (update 1)),
      .process 9 (unit 7 .heartbeat)])
    (s := shelvesTwice)
    (p := fun s => s.coordinator.statistics.values = [4, 2, 3, 1, 5, 1, 2, 2, 0])
    (by decide +kernel)
  refine ⟨s', h, by simpa using hvalues, performAll_balances (fun q w rows w' hquery => ?_)
    (by decide) h⟩
  exact (shelf_honest shelves_ascending q rows w w' hquery).nodup

end Rehearsal
end Backfill
