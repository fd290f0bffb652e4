import Backfill.Proofs.Buffer
import Backfill.Proofs.Journal

/-! What a coordinator has counted, as if its counters did not wrap around, and what it does not
count. Every window that was opened has closed, was given up with its chunk, has ended otherwise or
is still pending; every row that was read was sent, superseded, lost or is still held. -/
namespace Backfill
open Procedure Session Environment
variable {σ : Type} {env : Environment σ}

/-- The counts of a coordinator, and what they do not say. -/
structure Tally where
  opened : Nat := 0
  closed : Nat := 0
  chunks : Nat := 0
  rereads : Nat := 0
  buffered : Nat := 0
  superseded : Nat := 0
  emitted : Nat := 0
  tables : Nat := 0
  commands : Nat := 0
  /-- Windows that ended without a position that closed them and without reading their chunk again. -/
  ended : Nat := 0
  /-- Rows that were given up. -/
  lost : Nat := 0
  /-- Changes that were passed on although their offset is one of a snapshot. -/
  passed : Nat := 0

namespace Tally

/-- What counters of 64 bits show. -/
def shown (l : Tally) : Statistics where
  windowsOpened := .ofNat l.opened
  windowsClosed := .ofNat l.closed
  chunksRead := .ofNat l.chunks
  chunkRereads := .ofNat l.rereads
  rowsBuffered := .ofNat l.buffered
  rowsDeduplicated := .ofNat l.superseded
  rowsEmitted := .ofNat l.emitted
  tablesCompleted := .ofNat l.tables
  signalsApplied := .ofNat l.commands

variable (l : Tally)

theorem windowOpened_shown : l.shown.windowOpened = { l with opened := l.opened + 1 }.shown := by
  simp [shown, Statistics.windowOpened]

theorem windowClosed_shown : l.shown.windowClosed = { l with closed := l.closed + 1 }.shown := by
  simp [shown, Statistics.windowClosed]

theorem chunkRead_shown (n : Nat) : l.shown.chunkRead (UInt64.ofNat n) =
    { l with chunks := l.chunks + 1, buffered := l.buffered + n }.shown := by
  simp [shown, Statistics.chunkRead]

theorem chunkReread_shown : l.shown.chunkReread = { l with rereads := l.rereads + 1 }.shown := by
  simp [shown, Statistics.chunkReread]

theorem rowDeduplicated_shown :
    l.shown.rowDeduplicated = { l with superseded := l.superseded + 1 }.shown := by
  simp [shown, Statistics.rowDeduplicated]

theorem rowsSent_shown (n : Nat) :
    l.shown.rowsSent (UInt64.ofNat n) = { l with emitted := l.emitted + n }.shown := by
  simp [shown, Statistics.rowsSent]

theorem tableCompleted_shown : l.shown.tableCompleted = { l with tables := l.tables + 1 }.shown := by
  simp [shown, Statistics.tableCompleted]

theorem signalApplied_shown :
    l.shown.signalApplied = { l with commands := l.commands + 1 }.shown := by
  simp [shown, Statistics.signalApplied]

/-- How a tally goes on if no chunk is read again: so many rows are dropped, so many windows end
without being closed, and so many changes are passed on although their offset is one of a
snapshot. -/
structure Follows (l l' : Tally) (dropped ended passed : Nat) : Prop where
  rereads : l.rereads ≤ l'.rereads
  lost : l'.rereads = l.rereads → l'.lost = l.lost + dropped
  ended : l'.ended = l.ended + ended
  passed : l'.passed = l.passed + passed

theorem Follows.refl : l.Follows l 0 0 0 := ⟨Nat.le_refl _, fun _ => rfl, rfl, rfl⟩

theorem Follows.trans {l l' l'' : Tally} {m n o m' n' o' : Nat} (h : l.Follows l' m n o)
    (h' : l'.Follows l'' m' n' o') : l.Follows l'' (m + m') (n + n') (o + o') where
  rereads := Nat.le_trans h.rereads h'.rereads
  lost hsame := by
    have hfirst := h.rereads
    have hrest := h'.rereads
    rw [h'.lost (by omega), h.lost (by omega), Nat.add_assoc]
  ended := by rw [h'.ended, h.ended, Nat.add_assoc]
  passed := by rw [h'.passed, h.passed, Nat.add_assoc]

end Tally

namespace Answer

def isBegan : Answer σ → Bool
  | .began => true
  | _ => false

def rows : Answer σ → List Row
  | .query _ _ rows => rows
  | _ => []

/-- Whether a record was sent with an offset of a snapshot. -/
def isFlagged : Answer σ → Bool
  | .sent e => e.offset.fromSnapshot
  | _ => false

def windowsBegun (j : List (Answer σ)) : Nat := j.countP isBegan

def rowsRead (j : List (Answer σ)) : Nat := (j.flatMap rows).length

def flaggedRecords (j : List (Answer σ)) : Nat := j.countP isFlagged

section Counts
variable (j j' : List (Answer σ)) (a : Answer σ)

@[simp] theorem windowsBegun_append : windowsBegun (j ++ j') = windowsBegun j + windowsBegun j' :=
  List.countP_append

@[simp] theorem windowsBegun_cons : windowsBegun (a :: j) = a.isBegan.toNat + windowsBegun j := by
  cases h : a.isBegan <;> simp [windowsBegun, h, Nat.add_comm]

@[simp] theorem windowsBegun_nil : windowsBegun ([] : List (Answer σ)) = 0 := rfl

@[simp] theorem rowsRead_append : rowsRead (j ++ j') = rowsRead j + rowsRead j' := by
  simp [rowsRead]

@[simp] theorem rowsRead_cons : rowsRead (a :: j) = a.rows.length + rowsRead j := by
  simp [rowsRead]

@[simp] theorem rowsRead_nil : rowsRead ([] : List (Answer σ)) = 0 := rfl

@[simp] theorem flaggedRecords_append :
    flaggedRecords (j ++ j') = flaggedRecords j + flaggedRecords j' :=
  List.countP_append

@[simp] theorem flaggedRecords_cons :
    flaggedRecords (a :: j) = a.isFlagged.toNat + flaggedRecords j := by
  cases h : a.isFlagged <;> simp [flaggedRecords, h, Nat.add_comm]

@[simp] theorem flaggedRecords_nil : flaggedRecords ([] : List (Answer σ)) = 0 := rfl

end Counts

end Answer

def Coordinator.isPending (c : Coordinator) : Bool := c.run.any fun r => r.watermarks.high.isSome

theorem Coordinator.isPending_eq (c : Coordinator) :
    c.isPending = c.window.any fun m => m.2.high.isSome := by
  rw [isPending, window, Option.any_map]

theorem Coordinator.any_updateRun (c : Coordinator) {f : Run → Run} {b : Run → Bool}
    (h : ∀ r, b (f r) = b r) : (c.updateRun f).run.any b = c.run.any b := by
  rw [updateRun, Option.any_map]
  exact congrArg (fun b => c.run.any b) (funext h)

theorem Coordinator.isRunning_updateRun (c : Coordinator) {f : Run → Run}
    (h : ∀ r, (f r).isRunning = r.isRunning) : (c.updateRun f).isRunning = c.isRunning :=
  c.any_updateRun h

/-- The number of windows that are neither closed nor given up and have not ended. A chunk that has
to be read again is given up, although its watermarks are kept until the next ones are captured. -/
def Phase.windows (p : Phase) (c : Coordinator) : Nat :=
  match p with
  | .idle => c.isPending.toNat
  | .sending .. => 0
  | .due => (c.isPending && !c.mayRead).toNat
  | .filling | .filled => 1

def Phase.uncounted : Phase → Nat
  | .sending _ _ _ n _ => n
  | _ => 0

/-- Whether a tally accounts for every window that was begun and for every row that was read. -/
structure Tally.Accounts (l : Tally) (p : Phase) (c : Coordinator) (j : List (Answer σ)) : Prop where
  consistent : c.Consistent p
  shown : c.statistics = l.shown
  opened : l.opened = Answer.windowsBegun j
  buffered : l.buffered = Answer.rowsRead j
  windows : l.opened = l.closed + l.rereads + l.ended + p.windows c
  rows : l.buffered = l.emitted + l.superseded + l.lost + c.buffer.size + p.uncounted
  sent : Answer.flaggedRecords j + p.records.length = l.emitted + l.passed + p.uncounted
  flagged : ∀ x ∈ p.records, x.offset.fromSnapshot = true
  distinct : (c.buffer.rows.map Row.key).Nodup

def Coordinator.hasCompleted (c : Coordinator) (begun : Nat) (j : List (Answer σ)) : Bool :=
  begun < Answer.windowsBegun j && !c.isRunning

def Phase.Since (begun : Nat) (p : Phase) (c : Coordinator) (j : List (Answer σ)) : Prop :=
  match p with
  | .idle => True
  | .sending .. => Answer.windowsBegun j = begun ∧ c.isPending = false
  | .due => Answer.windowsBegun j = begun ∨ begun ≤ Answer.windowsBegun j ∧ c.mayRead = true
  | .filling | .filled => begun < Answer.windowsBegun j ∧ c.run.any Run.paused = false

def Phase.completions (begun : Nat) (p : Phase) (c : Coordinator) (j : List (Answer σ)) : Nat :=
  match p with
  | .idle => (c.hasCompleted begun j).toNat
  | _ => 0

/-- What holds in a phase if no tables were stopped: while a window is pending a table is queued, and
the window of a chunk that has to be read again is pending only until it is read. -/
def Phase.Tends (p : Phase) (c : Coordinator) : Prop :=
  match p with
  | .idle => c.isPending = true → c.isRunning = true
  | .due => c.isPending = true → c.mayRead = true
  | _ => True

theorem mayRead_of_reverted {c : Coordinator} (hrunning : c.isRunning = true)
    (hpaused : c.run.any Run.paused = false) (executed : PositionSet) :
    ((((c.updateRun fun r => r.setHigh executed).dropRows).updateRun Run.revertChunk).count
      .chunkReread).mayRead = true := by
  obtain ⟨r, hr, hqueued⟩ := (Option.any_eq_true _ _).1 hrunning
  have hunpaused : r.paused = false := by simpa [hr] using hpaused
  have htables : r.tables ≠ [] := by simpa [Run.isRunning] using hqueued
  simp [Coordinator.mayRead, Coordinator.updateRun, Coordinator.dropRows, Coordinator.count, hr,
    Run.isRunning, Run.revertChunk, Run.setHigh, htables, hunpaused]

theorem Phase.Tends.move {begun : Nat} {p q : Phase} {s t : Session (Recorded σ)}
    (h : Move env.recorded p s q t) (hsince : p.Since begun s.coordinator s.journal)
    (hs : p.Tends s.coordinator) : q.Tends t.coordinator := by
  cases h with
  | sent | began | measured | vacant | exhausted | buffered | served => exact trivial
  | allSent =>
    intro hpending
    exact absurd (hsince.2.symm.trans hpending) Bool.false_ne_true
  | declined stays =>
    intro hpending
    exact absurd (hs hpending) (by simp [stays])
  | @kept c w w' executed running positions clear =>
    exact fun _ =>
      (c.isRunning_updateRun (f := fun r => r.setHigh executed) fun _ => rfl).trans running
  | reverted running positions ambiguous held =>
    exact fun _ => mayRead_of_reverted running hsince.2 _
  | completed ended =>
    intro hpending
    exact absurd hpending (by simp [Coordinator.isPending_eq, Option.any_map])

theorem Phase.Since.answered {begun : Nat} {c c' : Coordinator} {j : List (Answer σ)} {a : Answer σ}
    (h : Phase.filling.Since begun c j) (ha : a.isBegan = false)
    (hpaused : c'.run.any Run.paused = c.run.any Run.paused) :
    Phase.filling.Since begun c' (j ++ [a]) :=
  ⟨by simpa [ha] using h.1, hpaused.trans h.2⟩

/-- The account of a reading that began with a tally, after so many windows. -/
structure Tally.Reckons (l : Tally) (begun : Nat) (p : Phase) (c : Coordinator)
    (j : List (Answer σ)) : Prop where
  since : p.Since begun c j
  accounts : ∃ l' : Tally, l'.Accounts p c j ∧ l.Follows l' 0 (p.completions begun c j) 0

namespace Tally
variable {begun : Nat} {l : Tally} {p q : Phase} {s t : Session (Recorded σ)}

theorem Follows.congr {l l' l'' : Tally} {m n o : Nat} (h : l.Follows l' m n o)
    (hsame : l''.rereads = l'.rereads ∧ l''.lost = l'.lost ∧ l''.ended = l'.ended ∧
      l''.passed = l'.passed) : l.Follows l'' m n o := by
  obtain ⟨hrereads, hlost, hended, hpassed⟩ := hsame
  exact ⟨hrereads ▸ h.rereads, hrereads ▸ hlost ▸ h.lost, hended ▸ h.ended, hpassed ▸ h.passed⟩

section Accounts
variable {c c' : Coordinator} {j : List (Answer σ)}

/-- A call that begins no window, reads no rows and sends no row changes no balance. -/
theorem Accounts.answered {a : Answer σ} (h : l.Accounts p c j)
    (ha : a.isBegan = false ∧ a.rows = [] ∧ a.isFlagged = false) :
    l.Accounts p c (j ++ [a]) := by
  obtain ⟨hbegan, hcount, hflag⟩ := ha
  refine ⟨h.consistent, h.shown, ?_, ?_, h.windows, h.rows, ?_, h.flagged, h.distinct⟩
  · simpa [hbegan] using h.opened
  · simpa [hcount] using h.buffered
  · simpa [hflag] using h.sent

/-- What changes neither the counters nor the rows nor the windows changes no balance. -/
theorem Accounts.transfer (h : l.Accounts p c j) (hnext : c'.Consistent q)
    (hcounts : c'.statistics = c.statistics) (hbuffer : c'.buffer = c.buffer)
    (hwindows : q.windows c' = p.windows c)
    (hrows : q.records = p.records ∧ q.uncounted = p.uncounted) : l.Accounts q c' j := by
  obtain ⟨hrecords, huncounted⟩ := hrows
  refine ⟨hnext, hcounts.trans h.shown, h.opened, h.buffered, ?_, ?_, ?_, ?_, ?_⟩
  · exact hwindows ▸ h.windows
  · exact hbuffer ▸ huncounted ▸ h.rows
  · exact hrecords ▸ huncounted ▸ h.sent
  · exact hrecords ▸ h.flagged
  · exact hbuffer ▸ h.distinct

/-- A row that is sent is counted when all are. -/
theorem Accounts.rowSent {e : Emission} {es : List Emission} (h : l.Accounts p c j)
    (hnext : c'.Consistent q) (hcounts : c'.statistics = c.statistics)
    (hbuffer : c'.buffer = c.buffer) (hwindows : q.windows c' = p.windows c)
    (hp : p.records = e :: es) (hq : q.records = es) (huncounted : q.uncounted = p.uncounted) :
    l.Accounts q c' (j ++ [.sent e]) := by
  have hflagged := h.flagged
  have hsent := h.sent
  rw [hp] at hflagged hsent
  refine ⟨hnext, hcounts.trans h.shown, ?_, ?_, hwindows ▸ h.windows,
    hbuffer ▸ huncounted ▸ h.rows, ?_, ?_, hbuffer ▸ h.distinct⟩
  · simpa [Answer.isBegan] using h.opened
  · simpa [Answer.rows] using h.buffered
  · simp only [Answer.flaggedRecords_append, Answer.flaggedRecords_cons,
      Answer.flaggedRecords_nil, Answer.isFlagged, hflagged e List.mem_cons_self, Bool.toNat_true,
      hq, huncounted, List.length_cons] at hsent ⊢
    omega
  · exact hq ▸ fun x hx => hflagged x (List.mem_cons_of_mem _ hx)

theorem Accounts.allSent {x : Partition} {t : Table} {o : Offset} {n : Nat}
    (h : l.Accounts (.sending x t o n []) c j) (hidle : c.isPending = false)
    (hnext : (c.count fun s => s.rowsSent (UInt64.ofNat n)).Consistent .due) :
    { l with emitted := l.emitted + n }.Accounts .due
      (c.count fun s => s.rowsSent (UInt64.ofNat n)) j := by
  have hrows := h.rows
  have hsent := h.sent
  have hcounted : (c.count fun s => s.rowsSent (UInt64.ofNat n)).isPending = false := hidle
  refine ⟨hnext, (congrArg (Statistics.rowsSent · (UInt64.ofNat n)) h.shown).trans
    (l.rowsSent_shown n), h.opened, h.buffered, ?_, ?_, ?_,
    List.forall_mem_nil _, h.distinct⟩
  · simpa only [Phase.windows, hcounted, Bool.false_and, Bool.toNat_false] using h.windows
  · simp only [Phase.uncounted, Coordinator.count] at hrows ⊢
    omega
  · simp only [Phase.records, Phase.uncounted, List.map_nil, List.length_nil] at hsent ⊢
    omega

/-- A window is opened. The one before it is over or was given up, since its chunk is read again. -/
theorem Accounts.openWindow (h : l.Accounts .due c j) (hreads : c.mayRead = true)
    (hnext : c'.Consistent .filling) (hcounts : c'.statistics = c.statistics.windowOpened)
    (hbuffer : c'.buffer = c.buffer) :
    { l with opened := l.opened + 1 }.Accounts .filling c' (j ++ [Answer.began]) := by
  have hwindows := h.windows
  refine ⟨hnext, ?_, ?_, ?_, ?_, hbuffer ▸ h.rows, ?_, h.flagged, hbuffer ▸ h.distinct⟩
  · rw [hcounts, h.shown, windowOpened_shown]
  · simpa [Answer.isBegan] using h.opened
  · simpa [Answer.rows] using h.buffered
  · simp only [Phase.windows, hreads, Bool.not_true, Bool.and_false, Bool.toNat_false] at hwindows ⊢
    omega
  · simpa [Answer.isFlagged, Phase.records, Phase.uncounted] using h.sent

theorem Accounts.finishTable {f : Run → Run} (h : l.Accounts .filling c j)
    (hnext : ((c.updateRun f).count .tableCompleted).Consistent .filling) :
    { l with tables := l.tables + 1 }.Accounts .filling ((c.updateRun f).count .tableCompleted) j :=
  ⟨hnext, (congrArg _ h.shown).trans l.tableCompleted_shown, h.opened, h.buffered, h.windows, h.rows,
    h.sent, h.flagged, h.distinct⟩

theorem Accounts.bufferRows {t : Table} {rows : List Row} {q : ChunkQuery} {x : σ}
    (h : l.Accounts .filling c j) (hnext : (c.bufferRows t rows).Consistent .filled)
    (hrows : (rows.map Row.key).Nodup) :
    { l with chunks := l.chunks + 1, buffered := l.buffered + rows.length }.Accounts .filled
      (c.bufferRows t rows) (j ++ [Answer.query x q rows]) := by
  have hempty : c.buffer.rows = [] := h.consistent.rows
  have hheld : (c.buffer.insertAll rows).rows = rows := by
    have hbuffer : c.buffer = .empty := congrArg RowBuffer.mk hempty
    rw [hbuffer, RowBuffer.insertAll_empty hrows]
  have hsize : c.buffer.size = 0 := congrArg List.length hempty
  have hsize' : (c.bufferRows t rows).buffer.size = rows.length := congrArg List.length hheld
  refine ⟨hnext, (congrArg (Statistics.chunkRead · _) h.shown).trans (l.chunkRead_shown _), ?_, ?_,
    h.windows, ?_, ?_, h.flagged, ?_⟩
  · simpa [Answer.isBegan] using h.opened
  · simpa [Answer.rows] using h.buffered
  · have hbefore := h.rows
    simp only [hsize, hsize', Phase.uncounted] at hbefore ⊢
    omega
  · simpa [Answer.isFlagged, Phase.records, Phase.uncounted] using h.sent
  · exact hheld.symm ▸ hrows

/-- The rows of a chunk that has to be read again are lost, and its window is given up. -/
theorem Accounts.giveUp (h : l.Accounts .filled c j) (hnext : c'.Consistent .due)
    (hcounts : c'.statistics = c.statistics.chunkReread) (hbuffer : c'.buffer = .empty)
    (hreads : c'.mayRead = true) :
    { l with rereads := l.rereads + 1, lost := l.lost + c.buffer.size }.Accounts .due c' j := by
  have hwindows := h.windows
  have hrows := h.rows
  have hnone : c'.buffer.size = 0 := hbuffer ▸ rfl
  refine ⟨hnext, ?_, h.opened, h.buffered, ?_, ?_, h.sent, h.flagged, hbuffer ▸ .nil⟩
  · rw [hcounts, h.shown, chunkReread_shown]
    rfl
  · simp only [Phase.windows, hreads, Bool.not_true, Bool.and_false, Bool.toNat_false] at hwindows ⊢
    omega
  · simp only [hnone, Phase.uncounted] at hrows ⊢
    omega

/-- The window of the last chunk ends with the run. -/
theorem Accounts.complete (h : l.Accounts .filled c j) (now : Int64)
    (hnext : (c.updateRun fun r => r.closeWindow now).Consistent .idle) :
    { l with ended := l.ended + 1 }.Accounts .idle (c.updateRun fun r => r.closeWindow now) j := by
  have hpending : (c.updateRun fun r => r.closeWindow now).isPending = false := by
    simp [Coordinator.isPending_eq, Option.any_map]
  have hwindows := h.windows
  refine ⟨hnext, h.shown, h.opened, h.buffered, ?_, h.rows, h.sent, h.flagged, h.distinct⟩
  simp only [Phase.windows, hpending, Bool.toNat_false] at hwindows ⊢
  omega

end Accounts

theorem Reckons.move (hdistinct : ∀ q w rows w', env.rangeQuery q w = (.ok rows, w') →
      (rows.map Row.key).Nodup)
    (h : Move env.recorded p s q t) (hs : l.Reckons begun p s.coordinator s.journal) :
    l.Reckons begun q t.coordinator t.journal := by
  obtain ⟨hsince, l', hl', hfollows⟩ := hs
  have hnext := hl'.consistent.move h
  obtain ⟨c, w⟩ := s
  obtain ⟨c', w'⟩ := t
  dsimp only [journal] at *
  cases h with
  | @sent p t o n row rows c w w' emit =>
    obtain ⟨v, -, rfl⟩ := recorded_emit_eq_ok.1 emit
    refine ⟨?_, l', hl'.rowSent hnext rfl rfl rfl rfl rfl rfl, hfollows⟩
    simpa [Phase.Since, Answer.isBegan, Coordinator.isPending_eq] using hsince
  | allSent =>
    exact ⟨.inl hsince.1, _, hl'.allSent hsince.2 hnext, hfollows.congr ⟨rfl, rfl, rfl, rfl⟩⟩
  | declined stays =>
    refine ⟨trivial, l', hl'.transfer hnext rfl rfl ?_ ⟨rfl, rfl⟩, ?_⟩
    · simp [Phase.windows, stays]
    · have hbegun := hsince.resolve_right fun hreads => by simp [stays] at hreads
      simpa [Phase.completions, Coordinator.hasCompleted, hbegun] using hfollows
  | @began c w w₁ w₂ w₃ w₄ low reads commit positions commit' begins =>
    obtain ⟨v₁, v₂, rfl, rfl⟩ := recorded_opening commit positions commit' begins
    have hlooked := ((hl'.answered (a := .committed) ⟨rfl, rfl, rfl⟩).answered
      (a := .positions low) ⟨rfl, rfl, rfl⟩).answered (a := .committed) ⟨rfl, rfl, rfl⟩
    refine ⟨⟨?_, ?_⟩, _, hlooked.openWindow reads hnext rfl rfl, hfollows.congr ⟨rfl, rfl, rfl, rfl⟩⟩
    · have hbefore : begun ≤ Answer.windowsBegun w.journal :=
        hsince.elim (fun heq => heq ▸ Nat.le_refl _) And.left
      simp [Answer.isBegan]
      omega
    · obtain ⟨r, hr, hreads⟩ := (Option.any_eq_true _ _).1 reads
      simpa [Coordinator.count, Coordinator.updateRun, hr, Run.setLow, Run.startChunk, Run.touch]
        using (Bool.and_eq_true_iff.1 hreads).2
  | @measured c w w' r t ts k run tables unknown maximum =>
    obtain ⟨v, -, rfl⟩ := recorded_maximum_eq_ok.1 maximum
    exact ⟨hsince.answered rfl (c.any_updateRun fun _ => rfl), l',
      (hl'.answered ⟨rfl, rfl, rfl⟩).transfer hnext rfl rfl rfl ⟨rfl, rfl⟩, hfollows⟩
  | @vacant c w w' r t ts run tables unknown maximum =>
    obtain ⟨v, -, rfl⟩ := recorded_maximum_eq_ok.1 maximum
    exact ⟨hsince.answered rfl (c.any_updateRun fun _ => rfl), _,
      (hl'.answered ⟨rfl, rfl, rfl⟩).finishTable hnext, hfollows.congr ⟨rfl, rfl, rfl, rfl⟩⟩
  | @exhausted c w w' r t ts run tables known query =>
    obtain ⟨v, -, rfl⟩ := recorded_query_eq_ok.1 query
    exact ⟨hsince.answered rfl (c.any_updateRun fun _ => rfl), _,
      (hl'.answered ⟨rfl, rfl, rfl⟩).finishTable hnext, hfollows.congr ⟨rfl, rfl, rfl, rfl⟩⟩
  | @buffered c w w' r t ts rows run tables known found query =>
    obtain ⟨v, hquery, rfl⟩ := recorded_query_eq_ok.1 query
    refine ⟨hsince.answered rfl ?_, _, hl'.bufferRows hnext (hdistinct _ _ _ _ hquery),
      hfollows.congr ⟨rfl, rfl, rfl, rfl⟩⟩
    simp only [Coordinator.bufferRows]
    cases (c.buffer.insertAll rows).lastKey? with
    | none => rfl
    | some k => exact c.any_updateRun fun _ => rfl
  | served run tables =>
    exact ⟨hsince, l', hl'.transfer hnext rfl rfl rfl ⟨rfl, rfl⟩, hfollows⟩
  | @kept c w w' executed running positions clear =>
    obtain ⟨v, -, rfl⟩ := recorded_positions_eq_ok.1 positions
    have hpending : (c.updateRun fun r => r.setHigh executed).isPending = true := by
      obtain ⟨r, hr, -⟩ := (Option.any_eq_true _ _).1 running
      simp [Coordinator.isPending, Coordinator.updateRun, hr, Run.setHigh]
    have hrunning : (c.updateRun fun r => r.setHigh executed).isRunning = true :=
      (c.isRunning_updateRun (f := fun r => r.setHigh executed) fun _ => rfl).trans running
    refine ⟨trivial, l', (hl'.answered ⟨rfl, rfl, rfl⟩).transfer hnext rfl rfl ?_ ⟨rfl, rfl⟩, ?_⟩
    · simp [Phase.windows, hpending]
    · simpa [Phase.completions, Coordinator.hasCompleted, hrunning] using hfollows
  | @reverted c w w' executed running positions ambiguous held =>
    obtain ⟨v, -, rfl⟩ := recorded_positions_eq_ok.1 positions
    have hreads := mayRead_of_reverted running hsince.2 executed
    refine ⟨.inr ⟨?_, hreads⟩, _,
      (hl'.answered ⟨rfl, rfl, rfl⟩).giveUp hnext rfl rfl hreads, ?_⟩
    · simpa [Answer.isBegan] using Nat.le_of_lt hsince.1
    · -- from here on chunks were read again, so nothing more is said about what is lost
      have hbefore := hfollows.rereads
      refine ⟨Nat.le_succ_of_le hbefore, fun hsame => ?_, hfollows.ended, hfollows.passed⟩
      simp only at hsame
      omega
  | @completed c w ended =>
    have hended : (c.updateRun fun r => r.closeWindow (env.recorded.now w)).isRunning = false :=
      (c.isRunning_updateRun (f := fun r => r.closeWindow (env.recorded.now w)) fun _ => rfl).trans
        ended
    refine ⟨trivial, _, hl'.complete _ hnext, hfollows.rereads, hfollows.lost, ?_, hfollows.passed⟩
    have hbefore := hfollows.ended
    simp only [Phase.completions, Coordinator.hasCompleted, hsince.1, hended, decide_true,
      Bool.not_false, Bool.and_self, Bool.toNat_true] at hbefore ⊢
    omega

end Tally
end Backfill
