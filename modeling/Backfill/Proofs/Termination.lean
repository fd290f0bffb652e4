import Backfill.Proofs.Buffer
import Backfill.Proofs.Canonical
import Backfill.Proofs.Consistency
import Backfill.Proofs.ReadOnce
import Backfill.Proofs.Returning
import Backfill.Proofs.Served
import Mathlib.Data.Finset.Card

/-! Why reading comes to an end over a store with finitely many rows. A chunk is read again only if
something was executed while it was read, which happens as often as the executed positions change. A
chunk that is kept has come further: there are fewer keys ahead in the tables that are left. -/
namespace Backfill
open Procedure Session
variable {σ : Type} {env : Environment σ}

/-- A store with finitely many rows, all under known keys, whose executed positions follow a script
and stay as they are when it is over. A query gives rows that it asks for; how many does not matter,
and any call may fail. -/
structure Environment.Scripted (env : Environment σ) (keys : Table → Finset Key)
    (script : σ → List PositionSet) (latest : σ → PositionSet) : Prop where
  rows : ∀ q w rows w', env.rangeQuery q w = (.ok rows, w') → ∀ row ∈ rows,
    row.key ∈ keys q.table ∧ (∀ a, q.after = some a → a < row.key) ∧
      ∀ m, q.upTo = some m → row.key ≤ m
  positions : ∀ w executed w', env.executedPositions w = (.ok executed, w') →
    executed = (script w).headD (latest w) ∧ script w' = (script w).tail ∧ latest w' = executed
  commit : ∀ w u w', env.commit w = (.ok u, w') → script w' = script w ∧ latest w' = latest w
  begin : ∀ w u w', env.beginRead w = (.ok u, w') → script w' = script w ∧ latest w' = latest w
  maximum : ∀ t w k w', env.maximumKey t w = (.ok k, w') →
    script w' = script w ∧ latest w' = latest w
  query : ∀ q w rows w', env.rangeQuery q w = (.ok rows, w') →
    script w' = script w ∧ latest w' = latest w

def keysAfter (after : Option Key) (ks : Finset Key) : Nat :=
  (ks.filter fun k => after.all (· < k) = true).card

theorem keysAfter_le_card (after : Option Key) (ks : Finset Key) : keysAfter after ks ≤ ks.card :=
  Finset.card_filter_le _ _

theorem keysAfter_lt {after : Option Key} {ks : Finset Key} {k : Key} (hk : k ∈ ks)
    (hafter : ∀ a, after = some a → a < k) : keysAfter (some k) ks < keysAfter after ks := by
  refine Finset.card_lt_card (Finset.ssubset_iff_of_subset ?_ |>.2 ⟨k, ?_, ?_⟩)
  · intro l hl
    obtain ⟨hmem, hlt⟩ := Finset.mem_filter.1 hl
    refine Finset.mem_filter.2 ⟨hmem, (Option.all_eq_true _ _).2 fun a ha => ?_⟩
    exact decide_eq_true ((hafter a ha).trans (by simpa using hlt))
  · exact Finset.mem_filter.2 ⟨hk, (Option.all_eq_true _ _).2 fun a ha => decide_eq_true (hafter a ha)⟩
  · simp

namespace Run
variable {r : Run} {keys : Table → Finset Key} {t : Table} {ts : List Table} {after : Option Key}

/-- How much there may be to read after a key of the current table: the keys of all queued tables,
and each table once. -/
def ahead (keys : Table → Finset Key) (after : Option Key) (r : Run) : Nat :=
  match r.tables with
  | [] => 0
  | t :: ts => keysAfter after (keys t) + 1 + (ts.map fun t => (keys t).card + 1).sum

theorem ahead_cons (ht : r.tables = t :: ts) : r.ahead keys after =
    keysAfter after (keys t) + 1 + (ts.map fun t => (keys t).card + 1).sum := by
  rw [ahead, ht]

/-- When a table is finished, less is ahead. -/
theorem ahead_nextTable_lt (ht : r.tables = t :: ts) (now : Int64) :
    (r.nextTable now).ahead keys none < r.ahead keys after := by
  have htail : (r.nextTable now).tables = ts := by simp [nextTable, touch, ht]
  rw [ahead_cons ht]
  cases ts with
  | nil => simp [ahead, htail]
  | cons u us =>
    have hle := keysAfter_le_card none (keys u)
    rw [ahead_cons htail, List.map_cons, List.sum_cons]
    omega

end Run

/-- If nothing was executed while a chunk was read, its high watermark is empty. -/
theorem Watermarks.isAmbiguous_of_same (executed : PositionSet) :
    (⟨some executed, some (executed.subtract executed)⟩ : Watermarks).isAmbiguous = false := by
  have hnone : (executed.subtract executed).sourceCount = 0 :=
    List.length_eq_zero_iff.2 (List.isEmpty_iff.1 executed.isEmpty_subtract_self)
  simp [isAmbiguous, hnone]

section Reading
variable {keys : Table → Finset Key} {script : σ → List PositionSet} {latest : σ → PositionSet}
  {p q : Phase} {s s' : Session σ} {m l : Nat}

/-- Whether the positions captured last are the low watermark, and at most `l` sets are still to
come in the script. -/
structure Captured (script : σ → List PositionSet) (latest : σ → PositionSet) (l : Nat) (r : Run)
    (w : σ) : Prop where
  low : r.watermarks.low = some (latest w)
  script : script w = [] ∨ (script w).length < l

/-- What holds while a chunk is read for which `m` was ahead and `l` sets were in the script: it is
read again only when fewer are left in the script, and when it is kept less is ahead. -/
def Phase.Lessens (keys : Table → Finset Key) (script : σ → List PositionSet)
    (latest : σ → PositionSet) (m l : Nat) (p : Phase) (s : Session σ) : Prop :=
  match p with
  | .sending .. => False
  | .due => s.coordinator.buffer.rows = [] ∧ (script s.world).length < l ∧
    ∃ r, s.coordinator.run = some r ∧ r.isRunning = true ∧ r.paused = false ∧
      r.ahead keys r.chunk.stop ≤ m
  | .filling => s.coordinator.buffer.rows = [] ∧
    ∃ r, s.coordinator.run = some r ∧ r.paused = false ∧ r.chunk.start = r.chunk.stop ∧
      r.ahead keys r.chunk.stop ≤ m ∧ Captured script latest l r s.world
  | .filled => ∃ r, s.coordinator.run = some r ∧ r.paused = false ∧
      (r.isRunning = true → r.ahead keys r.chunk.stop < m) ∧ r.ahead keys r.chunk.start ≤ m ∧
      Captured script latest l r s.world
  | .idle => ∃ r, s.coordinator.run = some r ∧
      (r.isRunning = true → r.ahead keys r.chunk.stop < m)

namespace Captured
variable {r r' : Run} {w w' : σ}

theorem of_eq (h : Captured script latest l r w) (hmarks : r'.watermarks = r.watermarks)
    (hsame : script w' = script w ∧ latest w' = latest w) : Captured script latest l r' w' :=
  ⟨by rw [hmarks, hsame.2, h.low], by rw [hsame.1]; exact h.script⟩

theorem not_ambiguous {executed : PositionSet} (h : Captured script latest l r w)
    (hscript : script w = []) (hexecuted : executed = (script w).headD (latest w)) :
    (r.setHigh executed).watermarks.isAmbiguous = false := by
  have hsame : executed = latest w := by rw [hexecuted, hscript]; rfl
  simpa [Run.setHigh, h.low, hsame] using Watermarks.isAmbiguous_of_same (latest w)

end Captured

/-- The beginning of a chunk takes a set from the script, if one is left. -/
theorem lessens_began (store : env.Scripted keys script latest) {c : Coordinator} {r : Run}
    {w w₁ w₂ w₃ w₄ : σ} {low : PositionSet} (hrows : c.buffer.rows = [])
    (hscript : (script w).length ≤ l) (hrun : c.run = some r) (hpaused : r.paused = false)
    (hahead : r.ahead keys r.chunk.stop ≤ m) (commit : env.commit w = (.ok (), w₁))
    (positions : env.executedPositions w₁ = (.ok low, w₂))
    (commit' : env.commit w₂ = (.ok (), w₃)) (begins : env.beginRead w₃ = (.ok (), w₄)) :
    Phase.filling.Lessens keys script latest m l
      ⟨((c.updateRun fun r => r.startChunk (env.now w₁)).updateRun fun r => r.setLow low).count
        .windowOpened, w₄⟩ := by
  obtain ⟨-, htail, hlow⟩ := store.positions _ _ _ positions
  obtain ⟨hfirst, -⟩ := store.commit _ _ _ commit
  obtain ⟨hsecond, hkept⟩ := store.commit _ _ _ commit'
  obtain ⟨hthird, hkept'⟩ := store.begin _ _ _ begins
  have hscript' : script w₄ = (script w).tail := by rw [hthird, hsecond, htail, hfirst]
  refine ⟨hrows, (r.startChunk (env.now w₁)).setLow low, ?_, hpaused, rfl, hahead, ?_, ?_⟩
  · simp [Coordinator.updateRun, Coordinator.count, hrun]
  · rw [hkept', hkept, hlow]
    rfl
  · rw [hscript', ← List.length_eq_zero_iff, List.length_tail]
    omega

theorem Move.lessens (store : env.Scripted keys script latest) (h : Move env p s q s')
    (hs : p.Lessens keys script latest m l s) : q.Lessens keys script latest m l s' := by
  have next {c : Coordinator} {w w' : σ} {r : Run} {t : Table} {ts : List Table} (now : Int64)
      (hrun : c.run = some r) (htables : r.tables = t :: ts)
      (hs : Phase.filling.Lessens keys script latest m l ⟨c, w⟩)
      (hsame : script w' = script w ∧ latest w' = latest w) :
      Phase.filling.Lessens keys script latest m l
        ⟨(c.updateRun fun r => r.nextTable now).count .tableCompleted, w'⟩ := by
    obtain ⟨hrows, r', hr', hpaused, -, hahead, hcaptured⟩ := hs
    obtain rfl := Option.some.inj (hrun.symm.trans hr')
    refine ⟨hrows, r.nextTable now, by simp [Coordinator.updateRun, Coordinator.count, hrun],
      hpaused, rfl, ?_, hcaptured.of_eq rfl hsame⟩
    exact (Run.ahead_nextTable_lt htables now).le.trans hahead
  cases h with
  | sent | allSent => exact hs.elim
  | declined stays =>
    obtain ⟨-, -, r, hr, hrunning, hpaused, -⟩ := hs
    exact absurd stays (by simp [Coordinator.mayRead, hr, hrunning, hpaused])
  | began reads commit positions commit' begins =>
    obtain ⟨hrows, hscript, r, hr, -, hpaused, hahead⟩ := hs
    exact lessens_began store hrows hscript.le hr hpaused hahead commit positions commit' begins
  | @measured c w w' r t ts k run tables unknown maximum =>
    obtain ⟨hrows, r', hr', hpaused, hstart, hahead, hcaptured⟩ := hs
    obtain rfl := Option.some.inj (run.symm.trans hr')
    exact ⟨hrows, r.setMaximum k, by simp [Coordinator.updateRun, run], hpaused, hstart, hahead,
      hcaptured.of_eq rfl (store.maximum _ _ _ _ maximum)⟩
  | vacant run tables unknown maximum =>
    exact next _ run tables hs (store.maximum _ _ _ _ maximum)
  | exhausted run tables known query => exact next _ run tables hs (store.query _ _ _ _ query)
  | @buffered c w w' r t ts rows run tables known found query =>
    obtain ⟨hrows, r', hr', hpaused, hstart, hahead, hcaptured⟩ := hs
    obtain rfl := Option.some.inj (run.symm.trans hr')
    obtain ⟨row, hrow, hkey⟩ := RowBuffer.lastKey?_insertAll hrows found
    obtain ⟨hmem, hafter, -⟩ := store.rows _ _ _ _ query row hrow
    refine ⟨r.chunkEndsAt row.key, ?_, hpaused, fun _ => ?_, ?_,
      hcaptured.of_eq rfl (store.query _ _ _ _ query)⟩
    · simp only [Coordinator.bufferRows, hkey, run, Option.map_some]
    · refine lt_of_lt_of_le ?_ hahead
      have hstop : (c.chunkQuery t).after = r.chunk.stop := by simp [Coordinator.chunkQuery, run]
      have hlt := keysAfter_lt (show row.key ∈ keys t from hmem) (hstop ▸ hafter)
      rw [Run.ahead_cons (r := r.chunkEndsAt row.key) tables, Run.ahead_cons tables]
      exact Nat.add_lt_add_right (Nat.add_lt_add_right hlt 1) _
    · change r.ahead keys r.chunk.start ≤ m
      rw [hstart]
      exact hahead
  | @served s r run tables =>
    obtain ⟨-, r', hr', hpaused, hstart, hahead, hcaptured⟩ := hs
    obtain rfl := Option.some.inj (run.symm.trans hr')
    exact ⟨r, run, hpaused, fun hrunning => by simp [Run.isRunning, tables] at hrunning,
      hstart ▸ hahead, hcaptured⟩
  | @kept c w w' executed running positions clear =>
    obtain ⟨r, (hr : c.run = some r), -, hahead, -⟩ := hs
    exact ⟨r.setHigh executed, by simp [Coordinator.updateRun, hr], hahead⟩
  | @reverted c w w' executed running positions ambiguous held =>
    obtain ⟨r, (hr : c.run = some r), hpaused, -, hahead, hcaptured⟩ := hs
    obtain ⟨hexecuted, htail, -⟩ := store.positions _ _ _ positions
    have hleft : script w ≠ [] := by
      intro hscript
      have hclear := hcaptured.not_ambiguous hscript hexecuted
      simp [Coordinator.updateRun, hr, hclear] at ambiguous
    refine ⟨rfl, ?_, (r.setHigh executed).revertChunk, ?_, ?_, hpaused, hahead⟩
    · have hlt : (script w).length < l := hcaptured.script.resolve_left hleft
      rw [htail, List.length_tail]
      omega
    · simp [Coordinator.updateRun, Coordinator.count, Coordinator.dropRows, hr]
    · change r.isRunning = true
      simpa [Coordinator.isRunning, hr] using running
  | @completed c w ended =>
    obtain ⟨r, (hr : c.run = some r), -⟩ := hs
    refine ⟨r.closeWindow (env.now w), by simp [Coordinator.updateRun, hr], fun hrunning => ?_⟩
    have hended : r.isRunning = false := by simpa [Coordinator.isRunning, hr] using ended
    exact absurd hrunning (by simpa [Run.isRunning, Run.closeWindow, Run.touch] using hended)

def Coordinator.ahead (keys : Table → Finset Key) (c : Coordinator) : Nat :=
  (c.run.map fun r => r.ahead keys r.chunk.stop).getD 0

theorem Coordinator.ahead_of_run {c : Coordinator} {r : Run} (hr : c.run = some r) :
    c.ahead keys = r.ahead keys r.chunk.stop := by
  rw [ahead, hr]
  rfl

/-- A chunk that has to be read again leaves fewer sets in the script, and one that is kept leaves
less ahead, unless nothing is left at all. -/
theorem lessens_readOnce (store : env.Scripted keys script latest) {b : Bool}
    (hrows : s.coordinator.buffer.rows = []) (hread : s.coordinator.mayRead = true)
    (h : readOnce env s = .ok b s') :
    (if b then Phase.due else Phase.idle).Lessens keys script latest (s.coordinator.ahead keys)
      (script s.world).length s' := by
  obtain ⟨t, hfirst, hrest⟩ := readOnce_began hread h
  refine hrest.keeps (I := fun p s' => p.Lessens keys script latest (s.coordinator.ahead keys)
    (script s.world).length s') (fun hmove => hmove.lessens store) ?_
  obtain ⟨r, hr, hmay⟩ := (Option.any_eq_true _ _).1 hread
  have hpaused : r.paused = false := by simpa using (Bool.and_eq_true_iff.1 hmay).2
  cases hfirst with
  | began reads commit positions commit' begins =>
    exact lessens_began store hrows le_rfl hr hpaused (Coordinator.ahead_of_run hr).ge commit
      positions commit' begins

/-- A reading that ends well leaves less ahead, unless nothing is left at all. -/
theorem ahead_lt_of_readChunk (store : env.Scripted keys script latest) {rounds : Nat} {u : Unit}
    (hrows : s.coordinator.buffer.rows = []) (hread : s.coordinator.mayRead = true)
    (h : readChunk env rounds s = .ok u s') (hrunning : s'.coordinator.isRunning = true) :
    s'.coordinator.ahead keys < s.coordinator.ahead keys := by
  induction rounds generalizing s with
  | zero =>
    simp only [readChunk, bind_eq_ok, checkInterrupted_eq_ok, current_eq_ok] at h
    obtain ⟨_, _, ⟨_, rfl⟩, _, _, ⟨rfl, rfl⟩, h⟩ := h
    rw [if_pos hread] at h
    exact absurd h throw_ne_ok
  | succ rounds ih =>
    simp only [readChunk, bind_eq_ok, checkInterrupted_eq_ok, current_eq_ok] at h
    obtain ⟨_, _, ⟨_, rfl⟩, _, _, ⟨rfl, rfl⟩, h⟩ := h
    rw [if_pos hread, bind_eq_ok] at h
    obtain ⟨b, t, honce, h⟩ := h
    have hless := lessens_readOnce store hrows hread honce
    cases b with
    | true =>
      obtain ⟨hrows', -, r, hr, hrunning', hpaused, hahead⟩ := hless
      rw [if_pos rfl] at h
      rw [← Coordinator.ahead_of_run hr] at hahead
      have hread' : t.coordinator.mayRead = true := by
        simp [Coordinator.mayRead, hr, hrunning', hpaused]
      exact (ih hrows' hread' h).trans_le hahead
    | false =>
      obtain ⟨r, hr, hahead⟩ := hless
      obtain ⟨-, rfl⟩ := pure_eq_ok.1 h
      rw [Coordinator.ahead_of_run hr]
      exact hahead (by simpa [Coordinator.isRunning, hr] using hrunning)

/-- The reading of a chunk comes to an end: it is repeated at most as often as sets are left in the
script. -/
theorem readChunk_returns (store : env.Scripted keys script latest)
    (hrows : s.coordinator.buffer.rows = []) (k : Nat) :
    Returns (fun n => readChunk env (n - k)) s := by
  induction hl : (script s.world).length using Nat.strong_induction_on generalizing s k with
  | h l ih =>
    refine .of_eventually (k + 1) (g := fun n => readChunk env (n - (k + 1) + 1)) (fun n hn => ?_) ?_
    · rw [Nat.sub_add_eq, Nat.sub_add_cancel (by omega)]
    refine .after (.checkInterrupted env) fun _ t ht => .after .current fun c t' hc => ?_
    obtain ⟨-, rfl⟩ := checkInterrupted_eq_ok.1 ht
    obtain ⟨rfl, rfl⟩ := current_eq_ok.1 hc
    refine .ite (fun hread => .after readOnce_ends fun b t honce => ?_) fun _ => .of_ends (.pure ()) s
    refine .ite (fun hb => ?_) fun _ => .of_ends (.pure ()) t
    have hless := lessens_readOnce store hrows hread honce
    rw [if_pos hb] at hless
    exact ih _ (hl ▸ hless.2.1) hless.1 (k + 1) rfl

/-- To send rows moves nothing but the last key that was sent. -/
theorem emitRows_run {β : Type} {g : Run → β} (hg : ∀ r k, g (r.recordSent k) = g r) {p : Partition}
    {t : Table} {o : Offset} {rows : List Row} {u : Unit}
    (h : emitRows env p t o rows s = .ok u s') :
    s'.coordinator.run.map g = s.coordinator.run.map g ∧
      s'.coordinator.buffer = s.coordinator.buffer := by
  induction rows generalizing s with
  | nil =>
    obtain ⟨-, rfl⟩ := pure_eq_ok.1 h
    exact ⟨rfl, rfl⟩
  | cons row rows ih =>
    simp only [emitRows, bind_eq_ok, call_eq_ok, updateRun_eq_ok] at h
    obtain ⟨_, _, ⟨w, hw, rfl⟩, _, _, rfl, h⟩ := h
    obtain ⟨hrun, hbuffer⟩ := ih h
    refine ⟨hrun.trans ?_, hbuffer⟩
    simp [Coordinator.updateRun, Function.comp_def, hg]

theorem sendBuffer_run {β : Type} {g : Run → β} (hg : ∀ r k, g (r.recordSent k) = g r)
    {p : Partition} {o : Offset} {u : Unit} (h : sendBuffer env p o s = .ok u s') :
    s'.coordinator.run.map g = s.coordinator.run.map g ∧ s'.coordinator.buffer.rows = [] := by
  simp only [sendBuffer, bind_eq_ok, checkInterrupted_eq_ok, current_eq_ok] at h
  obtain ⟨_, _, ⟨_, rfl⟩, _, _, ⟨rfl, rfl⟩, h⟩ := h
  split at h
  · rename_i hempty
    obtain ⟨-, rfl⟩ := pure_eq_ok.1 h
    exact ⟨rfl, List.isEmpty_iff.1 hempty⟩
  · simp only [bind_eq_ok, update_eq_ok] at h
    obtain ⟨_, _, rfl, h⟩ := h
    cases ht : s.coordinator.tableOfBuffer with
    | none =>
      simp only [ht, pure_eq_ok] at h
      obtain ⟨-, rfl⟩ := h
      exact ⟨rfl, rfl⟩
    | some t =>
      simp only [ht, bind_eq_ok, count_eq_ok] at h
      obtain ⟨_, _, hrows, rfl⟩ := h
      obtain ⟨hrun, hbuffer⟩ := emitRows_run hg hrows
      exact ⟨hrun, congrArg RowBuffer.rows hbuffer⟩

theorem flushAndAdvance_returns (store : env.Scripted keys script latest) (p : Partition)
    (o : Offset) (s : Session σ) : Returns (fun n => flushAndAdvance env n p o) s :=
  .after (sendBuffer_ends p o) fun _ _ hsend =>
    readChunk_returns store (sendBuffer_run (g := Run.tables) (fun _ _ => rfl) hsend).2 0

theorem isReachedBy_of_high_eq_none {c : Coordinator}
    (h : ∀ r, c.run = some r → r.watermarks.high = none) (position : Option Position) :
    c.isReachedBy position = false := by
  cases hr : c.run with
  | none => simp [Coordinator.isReachedBy, hr]
  | some r => simp [Coordinator.isReachedBy, hr, Watermarks.isReached, h r hr]

theorem eq_of_readChunk {rounds : Nat} {u : Unit} (hread : s.coordinator.mayRead = false)
    (h : readChunk env rounds s = .ok u s') : s' = s := by
  cases rounds <;>
  · simp only [readChunk, bind_eq_ok, checkInterrupted_eq_ok, current_eq_ok] at h
    obtain ⟨_, _, ⟨_, rfl⟩, _, _, ⟨rfl, rfl⟩, h⟩ := h
    rw [if_neg (by simp [hread])] at h
    exact (pure_eq_ok.1 h).2.symm

/-- After a window that has ended, the next one is not reached, or less is ahead. -/
theorem ahead_lt_of_flushAndAdvance (store : env.Scripted keys script latest) {rounds : Nat}
    {p : Partition} {o : Offset} {u : Unit} {position : Option Position}
    (hended : ∀ r, s.coordinator.run = some r → r.watermarks.high = none)
    (h : flushAndAdvance env rounds p o s = .ok u s')
    (hreached : s'.coordinator.isReachedBy position = true) :
    s'.coordinator.ahead keys < s.coordinator.ahead keys := by
  simp only [flushAndAdvance, bind_eq_ok] at h
  obtain ⟨_, t, hsend, hread⟩ := h
  have hrows := (sendBuffer_run (g := Run.tables) (fun _ _ => rfl) hsend).2
  cases hmay : t.coordinator.mayRead with
  | true =>
    have hrunning : s'.coordinator.isRunning = true := by
      obtain ⟨r, hr, hboth⟩ := (Option.any_eq_true _ _).1 hreached
      simpa [Coordinator.isRunning, hr] using (Bool.and_eq_true_iff.1 hboth).1
    have hsame : t.coordinator.ahead keys = s.coordinator.ahead keys := congrArg (·.getD 0)
      (sendBuffer_run (g := fun r => r.ahead keys r.chunk.stop) (fun _ _ => rfl) hsend).1
    exact hsame ▸ ahead_lt_of_readChunk store hrows hmay hread hrunning
  | false =>
    obtain rfl := eq_of_readChunk hmay hread
    refine absurd hreached (Bool.eq_false_iff.1 (isReachedBy_of_high_eq_none ?_ position))
    intro r hr
    have hhigh := (sendBuffer_run (g := fun r => r.watermarks.high) (fun _ _ => rfl) hsend).1
    rw [hr, Option.map_some] at hhigh
    obtain ⟨r', hr', hsame⟩ := Option.map_eq_some_iff.1 hhigh.symm
    exact hsame.symm.trans (hended r' hr')

theorem advance_of_unreached {e : Event} (h : s.coordinator.isReachedBy e.position = false)
    (rounds windows : Nat) : Session.advance env rounds e windows s = .ok () s := by
  cases windows <;>
  · simp only [Session.advance, bind_eq_ok, current_eq_ok]
    exact ⟨_, _, ⟨rfl, rfl⟩, by rw [if_neg (by simp [h])]; exact pure_eq_ok.2 ⟨rfl, rfl⟩⟩

/-- The closing of one window after the other comes to an end: each time less is ahead. -/
theorem advance_returns (store : env.Scripted keys script latest) (e : Event) (k : Nat)
    (s : Session σ) : Returns (fun n => Session.advance env n e (n - k)) s := by
  induction hm : s.coordinator.ahead keys using Nat.strong_induction_on generalizing s k with
  | h m ih =>
    cases hreached : s.coordinator.isReachedBy e.position with
    | false => exact .of_eq (fun n => advance_of_unreached hreached n _) (.of_ends (.pure ()) s)
    | true =>
      refine .of_eventually (k + 1) (g := fun n => Session.advance env n e (n - (k + 1) + 1))
        (fun n hn => ?_) ?_
      · rw [Nat.sub_add_eq, Nat.sub_add_cancel (by omega)]
      refine .after .current fun c t hc => ?_
      obtain ⟨rfl, rfl⟩ := current_eq_ok.1 hc
      refine .ite (fun _ => ?_) fun _ => .of_ends (.pure ()) s
      refine .after (.now env) fun now t ht => .after (.updateRun _) fun _ t₁ hclose =>
        .after (.count _) fun _ t₂ hcount => ?_
      obtain ⟨rfl, rfl⟩ := now_eq_ok.1 ht
      obtain rfl := updateRun_eq_ok.1 hclose
      obtain rfl := count_eq_ok.1 hcount
      refine (flushAndAdvance_returns store e.partition e.offset _).bind
        (h := fun n _ => Session.advance env n e (n - (k + 1))) fun _ t n hflush => ?_
      cases hagain : t.coordinator.isReachedBy e.position with
      | false => exact .of_eq (fun n => advance_of_unreached hagain n _) (.of_ends (.pure ()) t)
      | true =>
        refine ih _ ?_ (k + 1) t rfl
        have hended : ∀ r, ((s.coordinator.updateRun fun r => r.closeWindow (env.now s.world)).count
            .windowClosed).run = some r → r.watermarks.high = none := by
          intro r hr
          obtain ⟨r', -, rfl⟩ := Option.map_eq_some_iff.1 hr
          rfl
        have hlt := ahead_lt_of_flushAndAdvance store hended hflush hagain
        refine hm ▸ hlt.trans_eq ?_
        simp only [Coordinator.ahead, Coordinator.count, Coordinator.updateRun, Option.map_map]
        rfl

theorem updateWindow_returns (store : env.Scripted keys script latest) (e : Event)
    (s : Session σ) : Returns (fun n => updateWindow env n e) s := by
  refine .after .current fun c t _ => ?_
  cases c.run with
  | none => exact .of_ends (.pure _) t
  | some r =>
    refine .after (.now env) fun now t₁ _ => .after (.updateRun _) fun _ t₂ _ => ?_
    refine .ite (fun _ => .after (.count _) fun _ t₃ _ => ?_) fun _ => .of_ends (.pure _) t₂
    exact (flushAndAdvance_returns store e.partition e.offset t₃).before fun _ => .pure _

theorem windowChange_returns (store : env.Scripted keys script latest) (e : Event)
    (change : Change) (s : Session σ) : Returns (fun n => windowChange env n e change) s :=
  (updateWindow_returns store e s).before fun _ => .ite (.update _) (.pure ())

theorem start_returns (store : env.Scripted keys script latest) (restored : Option Run)
    (s : Session σ) : Returns (fun n => Session.start env n restored) s := by
  refine .after (.call _) fun version t _ => .after .current fun c t₁ _ => ?_
  cases c.settings.checkServerVersion version with
  | error f => exact .of_ends (.fail f) t₁
  | ok =>
    refine .after (.call _) fun _ t₂ _ => .after (.now env) fun now t₃ _ =>
      .after .get fun w t₄ _ => .after (.update _) fun _ t₅ hreset => ?_
    have hrows : t₅.coordinator.buffer.rows = [] := by rw [update_eq_ok.1 hreset]; rfl
    exact .ite (fun _ => (readChunk_returns store hrows 0).before fun _ => .pure _) fun _ =>
      .of_ends (.pure _) t₅

theorem addTables_returns (store : env.Scripted keys script latest) (tables : List Table)
    (filters : TextMap String) (hs : s.coordinator.Consistent .idle) :
    Returns (fun n => addTables env n tables filters) s := by
  refine .after .current fun c t hc => ?_
  obtain ⟨rfl, rfl⟩ := current_eq_ok.1 hc
  cases hr : s.coordinator.run with
  | none => exact .of_ends (.fail _) s
  | some r =>
    refine .after (.now env) fun now t ht => .after (.updateRun _) fun _ t' hadded =>
      .ite (fun hbegins => ?_) fun _ => .of_ends (.pure ()) t'
    obtain ⟨rfl, rfl⟩ := now_eq_ok.1 ht
    obtain rfl := updateRun_eq_ok.1 hadded
    have hended : r.isRunning = false := by simpa using (Bool.and_eq_true_iff.1 hbegins).1
    have hbegun : Enters env (.add 0 tables filters) s .due _ := .begun (w := s.world) hr hended
    exact readChunk_returns store (s := ⟨s.coordinator.updateRun _, s.world⟩) (hs.enter hbegun).rows 0

theorem resume_returns (store : env.Scripted keys script latest)
    (hs : s.coordinator.Consistent .idle) : Returns (fun n => Session.resume env n) s := by
  refine .after .current fun c t hc => ?_
  obtain ⟨rfl, rfl⟩ := current_eq_ok.1 hc
  cases hr : s.coordinator.run with
  | none => exact .of_ends (.pure ()) s
  | some r =>
    refine .ite (fun _ => .after (.updateRun _) fun _ t hresumed => .ite (fun hfree => ?_) fun _ =>
      .of_ends (.pure ()) t) fun _ => .of_ends (.pure ()) s
    obtain rfl := updateRun_eq_ok.1 hresumed
    have hresumed : Enters env (.resume 0) s .due _ :=
      .resumed (w := s.world) hr (Option.isNone_iff_eq_none.1 hfree)
    exact readChunk_returns store (s := ⟨s.coordinator.updateRun _, s.world⟩) (hs.enter hresumed).rows 0

theorem apply_returns (store : env.Scripted keys script latest) (cmd : Command)
    (hs : s.coordinator.Consistent .idle) : Returns (fun n => Session.apply env n cmd) s := by
  have hnote (u : Unit) : (do
      updateRun fun r => { r with commandOffset := some cmd.offset }
      count .signalApplied : Procedure σ Unit).Ends := .bind (.updateRun _) fun _ => .count _
  unfold Session.apply
  cases cmd.action with
  | execute => exact (addTables_returns store cmd.tables cmd.filters hs).before hnote
  | stop => exact .of_ends (.bind (.bind (.now env) fun _ => .update _) hnote) s
  | pause => exact .of_ends (.bind (.updateRun _) hnote) s
  | resume => exact (resume_returns store hs).before hnote

theorem applyAll_returns (store : env.Scripted keys script latest) (cmds : List Command)
    (hs : s.coordinator.Consistent .idle) : Returns (fun n => applyAll env n cmds) s := by
  induction cmds generalizing s with
  | nil => exact .of_ends (.pure ()) s
  | cons cmd cmds ih =>
    refine (apply_returns store cmd hs).bind (h := fun n _ => applyAll env n cmds)
      fun _ t n happly => ih ?_
    exact each_keeps (f := Stage.perform env) (I := fun s => s.coordinator.Consistent .idle)
      (fun _ _ _ _ hst hi => hi.perform hst) (apply_stages happly) hs

theorem applyPending_returns (store : env.Scripted keys script latest)
    (hs : s.coordinator.Consistent .idle) : Returns (fun n => applyPending env n) s := by
  refine .after .current fun c t hc => ?_
  obtain ⟨rfl, rfl⟩ := current_eq_ok.1 hc
  cases s.coordinator.commands with
  | none => exact .of_ends (.pure ()) s
  | some q =>
    refine .after (.update _) fun _ t htaken => ?_
    obtain rfl := update_eq_ok.1 htaken
    exact applyAll_returns store q.pending ⟨hs.marks, hs.rows⟩

theorem process_returns (store : env.Scripted keys script latest) (e : Event)
    (hs : s.coordinator.Consistent .idle) : Returns (fun n => Session.process env n e) s := by
  have hpass (change : Change) : (passOn env e change).Ends := .call _
  refine .after .current fun c t hc => ?_
  obtain ⟨rfl, rfl⟩ := current_eq_ok.1 hc
  refine .ite (fun _ => ?_) fun _ => ?_
  · cases e.kind with
    | change change => exact .of_ends (hpass change) s
    | _ => exact .of_ends (.pure ()) s
  · refine (applyPending_returns store hs).bind fun _ t _ _ => ?_
    cases e.kind with
    | change change => exact (windowChange_returns store e change t).before fun _ => hpass change
    | filtered | begin => exact (updateWindow_returns store e t).discard
    | heartbeat | commit =>
      exact (updateWindow_returns store e t).discard.bind fun _ t' _ _ => advance_returns store e 0 t'

end Reading

/-- A request that is given a number of rounds for its loops. -/
def Request.within (rounds : Nat) : Request → Request
  | .start _ restored => .start rounds restored
  | .add _ tables filters => .add rounds tables filters
  | .resume _ => .resume rounds
  | .apply _ cmd => .apply rounds cmd
  | .process _ e => .process rounds e
  | req => req

/-- Whether a session comes back from whatever is asked of it, well or with a failure. -/
structure Session.ComesBack (env : Environment σ) (s : Session σ) : Prop where
  start : ∀ restored, Returns (fun n => Session.start env n restored) s
  request : ∀ req : Request, Returns (fun n => (req.within n).perform env) s
  /-- The search for a table with rows, the repeated reading of a chunk and the closing of windows,
  which requests are made of, come to an end one by one. -/
  filling : ∀ ts t s', fillFrom env ts t ≠ .error .exhausted s'
  reading : ∀ t : Session σ, t.coordinator.buffer.rows = [] → Returns (readChunk env) t
  closing : ∀ e t, Returns (fun n => Session.advance env n e n) t
  /-- A heartbeat or a commit leaves no window that it has reached. -/
  unreached : ∀ rounds e s', e.kind = .heartbeat ∨ e.kind = .commit →
    Session.process env rounds e s = .ok () s' → s'.coordinator.isReachedBy e.position = false

/-- Over a store with finitely many rows whose executed positions follow a script, every operation
comes to an end. -/
theorem Served.comesBack {keys : Table → Finset Key} {script : σ → List PositionSet}
    {latest : σ → PositionSet} {taken : Run → Prop} {s : Session σ}
    (store : env.Scripted keys script latest) (hs : Served env taken s) : s.ComesBack env where
  start restored := start_returns store restored s
  request req := by
    cases req with
    | start rounds restored => exact (start_returns store restored s).discard
    | enqueue cmd => exact .of_ends (.update fun c => c.enqueue cmd) s
    | add rounds tables filters => exact addTables_returns store tables filters hs.consistent
    | stop tables =>
      exact .of_ends (.bind (.now env) fun now => .update fun c => c.stopTables now tables) s
    | pause => exact .of_ends (.updateRun fun r => { r with paused := true }) s
    | resume rounds => exact resume_returns store hs.consistent
    | apply rounds cmd => exact apply_returns store cmd hs.consistent
    | process rounds e => exact process_returns store e hs.consistent
  filling ts := fillFrom_ends ts
  reading _ hrows := readChunk_returns store hrows 0
  closing e t := advance_returns store e 0 t
  unreached _ _ _ hkind h := unreached_of_process hkind h

namespace Rehearsal

def archive (rows : Table → List Row) : Environment (List PositionSet × PositionSet) where
  serverVersion w := (.ok "8.0.34-log", w)
  executedPositions w := (.ok (w.1.headD w.2), w.1.tail, w.1.headD w.2)
  beginRead w := (.ok (), w)
  commit w := (.ok (), w)
  maximumKey t w := (.ok ((rows t).getLast?.map Row.key), w)
  rangeQuery q w := (.ok (((rows q.table).filter fun r => q.within r.key).take q.limit), w)
  emit _ w := (.ok (), w)
  isInterrupted _ := false
  now _ := 0
  freshToken _ := "archive"

theorem archive_scripted (rows : Table → List Row) :
    (archive rows).Scripted (fun t => ((rows t).map Row.key).toFinset) Prod.fst Prod.snd where
  rows := by
    rintro q w found w' hquery row hrow
    obtain rfl := Except.ok.inj (Prod.mk.inj hquery).1
    obtain ⟨hmem, hwithin⟩ := List.mem_filter.1 (List.mem_of_mem_take hrow)
    simp only [ChunkQuery.within, Bool.and_eq_true, Option.all_eq_true, decide_eq_true_eq] at hwithin
    exact ⟨List.mem_toFinset.2 (List.mem_map_of_mem hmem), hwithin.1, hwithin.2⟩
  positions := by
    rintro w executed w' hpositions
    obtain ⟨hexecuted, rfl⟩ := Prod.mk.inj hpositions
    obtain rfl := Except.ok.inj hexecuted
    exact ⟨rfl, rfl, rfl⟩
  commit _ _ _ h := by cases h; exact ⟨rfl, rfl⟩
  begin _ _ _ h := by cases h; exact ⟨rfl, rfl⟩
  maximum _ _ _ _ h := by cases h; exact ⟨rfl, rfl⟩
  query _ _ _ _ h := by cases h; exact ⟨rfl, rfl⟩

/-- A first chunk that was read twice waits for its window to be reached; the capture for the next
one will be ambiguous as well. -/
def ambiguousCaptures : Session (List PositionSet × PositionSet) where
  coordinator := { settings := { chunkSize := 1 } }
  world := ([.empty, upTo 4, (upTo 5).insert ⟨"t", 1⟩, upTo 5, upTo 6, upTo 6,
    (upTo 7).insert ⟨"t", 2⟩, upTo 8], .empty)

theorem ambiguousCaptures_comesBack : ∃ s,
    Request.performAll (archive shelves) [.start 9 none, .add 9 [⟨"d", "a"⟩, ⟨"d", "b"⟩] .empty]
      ambiguousCaptures = .ok () s ∧
    s.coordinator.statistics.chunkRereads = 1 ∧ s.coordinator.isReachedBy none = true ∧
    (archive shelves).Scripted (fun t => ((shelves t).map Row.key).toFinset) Prod.fst Prod.snd ∧
    Served (archive shelves) (fun _ => True) s ∧ s.ComesBack (archive shelves) := by
  obtain ⟨s, h, hshown⟩ := exists_of_endsIn
    (x := Request.performAll (archive shelves) [.start 9 none,
      .add 9 [⟨"d", "a"⟩, ⟨"d", "b"⟩] .empty])
    (s := ambiguousCaptures)
    (p := fun s => s.coordinator.statistics.chunkRereads = 1 && s.coordinator.isReachedBy none)
    (by decide +kernel)
  simp only [Bool.and_eq_true, decide_eq_true_eq] at hshown
  have hs : Served (archive shelves) (fun _ => True) s :=
    (Served.fresh _ _ _).performAll (fun _ _ _ _ _ => trivial) h
  exact ⟨s, h, hshown.1, hshown.2, archive_scripted shelves, hs, hs.comesBack (archive_scripted _)⟩

end Rehearsal
end Backfill
