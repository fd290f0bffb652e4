import Backfill.Proofs.Buffer
import Backfill.Proofs.ReadOnce

/-! What becomes of a chunk whose high watermark spans several sources. The calls of one reading
fall into stretches, one for each chunk that was read to the end: every stretch but the last is of
a chunk that was discarded, the next query repeats the one that found its rows, and what is held in
the end is of the last stretch alone. -/
namespace Backfill
open Procedure Session Environment
variable {σ : Type} {env : Environment σ}

namespace Answer

def asked? : Answer σ → Option ChunkQuery
  | .query _ q _ => some q
  | _ => none

def isSearch : Answer σ → Bool
  | .maximum .. | .query _ _ [] => true
  | _ => false

end Answer

def nextQuery? (calls : List (Answer σ)) : Option ChunkQuery := calls.findSome? Answer.asked?

theorem nextQuery?_append (calls calls' : List (Answer σ)) :
    nextQuery? (calls ++ calls') = (nextQuery? calls).or (nextQuery? calls') :=
  List.findSome?_append

def opening (low : PositionSet) : List (Answer σ) :=
  [.committed, .positions low, .committed, .began]

/-- A chunk that was filled: what was asked in vain after its low watermark was captured, and the
query that found rows. -/
structure ChunkFill (σ : Type) where
  low : PositionSet
  search : List (Answer σ)
  searched : ∀ a ∈ search, a.isSearch = true
  before : σ
  query : ChunkQuery
  rows : List Row
  found : rows ≠ []

def ChunkFill.calls (k : ChunkFill σ) : List (Answer σ) :=
  opening k.low ++ k.search ++ [.query k.before k.query k.rows]

/-- A chunk that was read to the end, with the positions captured there. -/
structure ChunkReading (σ : Type) extends ChunkFill σ where
  executed : PositionSet

namespace ChunkReading

def calls (k : ChunkReading σ) : List (Answer σ) := k.toChunkFill.calls ++ [.positions k.executed]

def high (k : ChunkReading σ) : PositionSet := k.executed.subtract k.low

def isAmbiguous (k : ChunkReading σ) : Bool := 1 < k.high.sourceCount

end ChunkReading

namespace Coordinator

/-- The next query for the first queued table, if the end of that table is known. -/
def awaitedQuery? (c : Coordinator) : Option ChunkQuery :=
  c.run.bind fun r => if r.chunk.maximum.isSome then r.currentTable.map c.chunkQuery else none

theorem awaitedQuery?_of_front {c : Coordinator} {r : Run} {t : Table} {ts : List Table}
    (hr : c.run = some r) (ht : r.tables = t :: ts) : c.awaitedQuery? =
      if r.chunk.maximum.isSome then some (c.chunkQuery t) else none := by
  simp [awaitedQuery?, hr, Run.currentTable, ht]

/-- The awaited query depends on the queue and on how far the first table was read. -/
theorem awaitedQuery?_congr {c c' : Coordinator} {r r' : Run} (hr : c.run = some r)
    (hr' : c'.run = some r') (hsettings : c'.settings = c.settings) (htables : r'.tables = r.tables)
    (hfilters : r'.filters = r.filters) (hmaximum : r'.chunk.maximum = r.chunk.maximum)
    (hstop : r'.chunk.stop = r.chunk.stop) : c'.awaitedQuery? = c.awaitedQuery? := by
  have hquery : c'.chunkQuery = c.chunkQuery := by
    funext t
    simp [chunkQuery, Run.currentFilter, Run.currentTable, hr, hr', hsettings, htables, hfilters,
      hmaximum, hstop]
  simp only [awaitedQuery?, Run.currentTable, hr, hr', hquery, Option.bind_some, htables, hmaximum]

/-- Whether the rows that are held and the progress of the chunk are those of one filled chunk. -/
structure Holds (c : Coordinator) (k : ChunkFill σ) (marks : Watermarks) : Prop where
  rows : c.buffer.rows = k.rows
  table : c.bufferTable = some k.query.table
  progress : ∃ r, c.run = some r ∧ r.currentTable = some k.query.table ∧
    r.chunk.start = k.query.after ∧ r.chunk.stop = k.rows.getLast?.map Row.key ∧
    r.watermarks = marks

end Coordinator

/-- How the calls since a session `s₀` fall into chunks that were discarded and the calls after
them. A query that has to be repeated and is not asked yet is the one that is awaited. -/
structure Session.Discards (s₀ : Session (Recorded σ)) (discarded : List (ChunkReading σ))
    (calls : List (Answer σ)) (awaited : Option ChunkQuery) (s : Session (Recorded σ)) : Prop where
  journal : s.journal = s₀.journal ++ discarded.flatMap ChunkReading.calls ++ calls
  ambiguous : ∀ d ∈ discarded, d.isAmbiguous = true
  repeated : ∀ earlier d later, discarded = earlier ++ d :: later →
    (nextQuery? (later.flatMap ChunkReading.calls ++ calls)).or awaited = some d.query
  counted : s.coordinator.statistics.chunkRereads =
    s₀.coordinator.statistics.chunkRereads + UInt64.ofNat discarded.length

namespace Session.Discards
variable {s₀ s s' : Session (Recorded σ)} {discarded : List (ChunkReading σ)}
  {calls new : List (Answer σ)} {awaited awaited' : Option ChunkQuery}

theorem initial (s : Session (Recorded σ)) (awaited : Option ChunkQuery) :
    Discards s [] [] awaited s where
  journal := by simp
  ambiguous := List.forall_mem_nil _
  repeated earlier d later h := by simp at h
  counted := (UInt64.add_zero _).symm

/-- More calls ask the awaited query, or leave it awaited. -/
theorem extend (h : Discards s₀ discarded calls awaited s) (hjournal : s'.journal = s.journal ++ new)
    (hcount : s'.coordinator.statistics.chunkRereads = s.coordinator.statistics.chunkRereads)
    (hawaited : ∀ q, awaited = some q → (nextQuery? new).or awaited' = some q) :
    Discards s₀ discarded (calls ++ new) awaited' s' where
  journal := by rw [hjournal, h.journal, List.append_assoc _ calls]
  ambiguous := h.ambiguous
  repeated earlier d later hsplit := by
    have hrepeated := h.repeated earlier d later hsplit
    rw [← List.append_assoc, nextQuery?_append, Option.or_assoc]
    cases hasked : nextQuery? (later.flatMap ChunkReading.calls ++ calls) with
    | none =>
      rw [hasked, Option.none_or] at hrepeated
      exact hawaited _ hrepeated
    | some q =>
      rw [hasked, Option.some_or] at hrepeated
      rw [Option.some_or, hrepeated]
  counted := hcount.trans h.counted

theorem of_same (h : Discards s₀ discarded calls awaited s) (hjournal : s'.journal = s.journal)
    (hcount : s'.coordinator.statistics.chunkRereads = s.coordinator.statistics.chunkRereads)
    (hawaited : ∀ q, awaited = some q → awaited' = some q) :
    Discards s₀ discarded calls awaited' s' := by
  have hnothing : s'.journal = s.journal ++ [] := by rw [hjournal, List.append_nil]
  have hsame := h.extend hnothing hcount hawaited
  rwa [List.append_nil] at hsame

theorem discard {d : ChunkReading σ} (h : Discards s₀ discarded d.calls none s)
    (hjournal : s'.journal = s.journal)
    (hcount : s'.coordinator.statistics.chunkRereads = s.coordinator.statistics.chunkRereads + 1)
    (hambiguous : d.isAmbiguous = true) (hawaited : awaited = some d.query) :
    Discards s₀ (discarded ++ [d]) [] awaited s' where
  journal := by rw [hjournal, h.journal]; simp
  ambiguous := by
    intro k hk
    rcases List.mem_append.1 hk with hk | hk
    · exact h.ambiguous k hk
    · exact List.mem_singleton.1 hk ▸ hambiguous
  repeated earlier k later hsplit := by
    rcases List.eq_nil_or_concat' later with rfl | ⟨later, d', rfl⟩
    · obtain ⟨-, hlast⟩ := List.append_inj' hsplit rfl
      rw [(List.cons.inj hlast).1] at hawaited
      exact hawaited
    · rw [← List.cons_append, ← List.append_assoc] at hsplit
      obtain ⟨hfront, hlast⟩ := List.append_inj' hsplit rfl
      have hrepeated := h.repeated earlier k later hfront
      rw [Option.or_none] at hrepeated
      rw [← (List.cons.inj hlast).1, List.flatMap_append, List.flatMap_singleton, List.append_nil,
        hrepeated, Option.some_or]
  counted := by
    rw [hcount, h.counted, List.length_append, List.length_singleton, UInt64.ofNat_add,
      UInt64.add_assoc]
    rfl

end Session.Discards

/-- Whether no table was left when rows were looked for the last time. -/
def Session.RunsOut (s₀ : Session (Recorded σ)) (discarded : List (ChunkReading σ))
    (s : Session (Recorded σ)) : Prop :=
  s.coordinator.isRunning = false ∧ ∃ low search, (∀ a ∈ search, a.isSearch = true) ∧
    s₀.Discards discarded (opening low ++ search) none s

/-- Whether the chunk that was read last can be placed in the stream, and is what is held. -/
def Session.Keeps (s₀ : Session (Recorded σ)) (discarded : List (ChunkReading σ))
    (s : Session (Recorded σ)) : Prop :=
  ∃ k : ChunkReading σ, s₀.Discards discarded k.calls none s ∧ k.isAmbiguous = false ∧
    s.coordinator.Holds k.toChunkFill ⟨some k.low, some k.high⟩

/-- How the reading that began in a session `s₀` has gone on, in each phase. -/
def Phase.Rereads (s₀ : Session (Recorded σ)) (p : Phase) (s : Session (Recorded σ)) : Prop :=
  match p with
  | .sending .. => False
  | .due => s.coordinator.buffer.rows = [] ∧ s.coordinator.mayRead = true ∧
    ∃ discarded, s₀.Discards discarded [] s.coordinator.awaitedQuery? s
  | .filling => s.coordinator.buffer.rows = [] ∧ ∃ discarded low search r,
    s₀.Discards discarded (opening low ++ search) s.coordinator.awaitedQuery? s ∧
      (∀ a ∈ search, a.isSearch = true) ∧ s.coordinator.run = some r ∧ r.paused = false ∧
      r.chunk.start = r.chunk.stop ∧ r.watermarks = ⟨some low, none⟩
  | .filled => ∃ discarded, s₀.RunsOut discarded s ∨
    ∃ k : ChunkFill σ, s₀.Discards discarded k.calls none s ∧
      s.coordinator.Holds k ⟨some k.low, none⟩ ∧
      (∀ r, s.coordinator.run = some r → r.paused = false) ∧
      (s.coordinator.updateRun Run.revertChunk).awaitedQuery? = some k.query
  | .idle => ∃ discarded, s₀.RunsOut discarded s ∨ s₀.Keeps discarded s

section Moves
variable {s₀ s s' : Session (Recorded σ)} {p q : Phase}

/-- Looking for rows goes on after a call that found none. -/
theorem rereads_search {c c' : Coordinator} {w : Recorded σ} {v : σ} {a : Answer σ} {r : Run}
    (r' : Run) (hs : Phase.filling.Rereads s₀ ⟨c, w⟩) (ha : a.isSearch = true) (hr : c.run = some r)
    (hr' : c'.run = some r') (hbuffer : c'.buffer = c.buffer)
    (hcount : c'.statistics.chunkRereads = c.statistics.chunkRereads)
    (hpaused : r'.paused = r.paused)
    (hchunk : r.chunk.start = r.chunk.stop → r'.chunk.start = r'.chunk.stop)
    (hmarks : r'.watermarks = r.watermarks)
    (hawaited : ∀ q, c.awaitedQuery? = some q → a.asked?.or c'.awaitedQuery? = some q) :
    Phase.filling.Rereads s₀ ⟨c', ⟨v, w.journal ++ [a]⟩⟩ := by
  obtain ⟨hrows, discarded, low, search, r₁, hdiscards, hsearch, hr₁, hpaused₁, hchunk₁,
    hmarks₁⟩ := hs
  obtain rfl := Option.some.inj (hr.symm.trans hr₁)
  refine ⟨(congrArg RowBuffer.rows hbuffer).trans hrows, discarded, low, search ++ [a], r', ?_, ?_,
    hr', hpaused.trans hpaused₁, hchunk hchunk₁, hmarks.trans hmarks₁⟩
  · rw [← List.append_assoc]
    refine hdiscards.extend rfl hcount fun q hq => ?_
    rw [nextQuery?, List.findSome?_singleton]
    exact hawaited q hq
  · intro b hb
    rcases List.mem_append.1 hb with hb | hb
    · exact hsearch b hb
    · exact List.mem_singleton.1 hb ▸ ha

/-- The rows that a query found are held, and the query would be the next one again if the chunk
were reverted. -/
theorem rereads_buffered {c : Coordinator} {w w' : Recorded σ} {r : Run} {t : Table}
    {ts : List Table} {rows : List Row} (hs : Phase.filling.Rereads s₀ ⟨c, w⟩)
    (hr : c.run = some r) (ht : r.tables = t :: ts) (hknown : r.chunk.maximum.isSome)
    (hfound : rows ≠ []) (hdistinct : (rows.map Row.key).Nodup)
    (hquery : env.recorded.rangeQuery (c.chunkQuery t) w = (.ok rows, w')) :
    Phase.filled.Rereads s₀ ⟨c.bufferRows t rows, w'⟩ := by
  obtain ⟨hrows, discarded, low, search, r₁, hdiscards, hsearch, hr₁, hpaused, hstart, hmarks⟩ := hs
  obtain rfl := Option.some.inj (hr.symm.trans hr₁)
  obtain ⟨v, -, rfl⟩ := recorded_query_eq_ok.1 hquery
  have hheld : (c.buffer.insertAll rows).rows = rows := by
    rw [RowBuffer.insertAll_rows (by rwa [hrows]), hrows, List.nil_append]
  have hlast := List.getLast?_eq_some_getLast hfound
  generalize rows.getLast hfound = last at hlast
  have hkey : (c.buffer.insertAll rows).lastKey? = some last.key := by
    rw [RowBuffer.lastKey?, hheld, hlast, Option.map_some]
  have hrun : (c.bufferRows t rows).run = some (r.chunkEndsAt last.key) := by
    simp only [Coordinator.bufferRows, hkey, hr, Option.map_some]
  let k : ChunkFill σ := ⟨low, search, hsearch, w.world, c.chunkQuery t, rows, hfound⟩
  refine ⟨discarded, .inr ⟨k, ?_, ⟨hheld, rfl, r.chunkEndsAt last.key, hrun, ?_, ?_, ?_, hmarks⟩, ?_, ?_⟩⟩
  · refine hdiscards.extend rfl rfl fun q hq => ?_
    rw [Coordinator.awaitedQuery?_of_front hr ht, if_pos hknown] at hq
    exact hq
  · simp [Run.currentTable, Run.chunkEndsAt, ht, k, Coordinator.chunkQuery]
  · simp [Run.chunkEndsAt, k, Coordinator.chunkQuery, hr, hstart]
  · simp [Run.chunkEndsAt, k, hlast]
  · intro r' hr'
    rw [← Option.some.inj (hrun.symm.trans hr')]
    exact hpaused
  · have hreverted : ((c.bufferRows t rows).updateRun Run.revertChunk).run =
        some (r.chunkEndsAt last.key).revertChunk := congrArg (Option.map Run.revertChunk) hrun
    rw [Coordinator.awaitedQuery?_congr hr hreverted rfl rfl rfl rfl hstart,
      Coordinator.awaitedQuery?_of_front hr ht, if_pos hknown]

theorem Coordinator.Holds.isRunning {c : Coordinator} {k : ChunkFill σ} {marks : Watermarks}
    (h : c.Holds k marks) : c.isRunning = true := by
  obtain ⟨r, hr, hfront, -⟩ := h.progress
  have htables : r.tables ≠ [] := by
    intro hnil
    simp [Run.currentTable, hnil] at hfront
  simp [Coordinator.isRunning, hr, Run.isRunning, htables]

theorem Coordinator.Holds.setHigh {c : Coordinator} {k : ChunkReading σ}
    (h : c.Holds k.toChunkFill ⟨some k.low, none⟩) :
    (c.updateRun fun r => r.setHigh k.executed).Holds k.toChunkFill ⟨some k.low, some k.high⟩ := by
  obtain ⟨r, hr, hfront, hstart, hstop, hmarks⟩ := h.progress
  refine ⟨h.rows, h.table, r.setHigh k.executed, by simp [Coordinator.updateRun, hr], hfront, hstart,
    hstop, ?_⟩
  simp only [Run.setHigh, hmarks]
  rfl

theorem Coordinator.Holds.any_isAmbiguous {c : Coordinator} {k : ChunkReading σ}
    (h : c.Holds k.toChunkFill ⟨some k.low, some k.high⟩) :
    (c.run.any fun r => r.watermarks.isAmbiguous) = k.isAmbiguous := by
  obtain ⟨r, hr, -, -, -, hmarks⟩ := h.progress
  simp [hr, hmarks, Watermarks.isAmbiguous, ChunkReading.isAmbiguous]

/-- When the executed positions are captured, the chunk that was filled has been read to the end. -/
theorem rereads_captured {c : Coordinator} {w : Recorded σ} (v : σ) (executed : PositionSet)
    (hs : Phase.filled.Rereads s₀ ⟨c, w⟩) (hrunning : c.isRunning = true) :
    ∃ (discarded : List (ChunkReading σ)) (d : ChunkReading σ),
      s₀.Discards discarded d.calls none
        ⟨c.updateRun fun r => r.setHigh executed, ⟨v, w.journal ++ [.positions executed]⟩⟩ ∧
      (c.updateRun fun r => r.setHigh executed).Holds d.toChunkFill ⟨some d.low, some d.high⟩ ∧
      (∀ r, c.run = some r → r.paused = false) ∧
      (c.updateRun Run.revertChunk).awaitedQuery? = some d.query := by
  obtain ⟨discarded, ⟨hended, -⟩ | ⟨k, hdiscards, hholds, hpaused, hawaited⟩⟩ := hs
  · exact absurd hrunning (by simp [hended])
  let d : ChunkReading σ := ⟨k, executed⟩
  have hhigh := Coordinator.Holds.setHigh (k := d) hholds
  exact ⟨discarded, d, hdiscards.extend rfl rfl (by simp), hhigh, hpaused, hawaited⟩

theorem rereads_kept {c : Coordinator} {w : Recorded σ} (v : σ) {executed : PositionSet}
    (hs : Phase.filled.Rereads s₀ ⟨c, w⟩) (hrunning : c.isRunning = true)
    (hclear : ((c.updateRun fun r => r.setHigh executed).run.any fun r => r.watermarks.isAmbiguous) →
      c.buffer.isEmpty) :
    Phase.idle.Rereads s₀
      ⟨c.updateRun fun r => r.setHigh executed, ⟨v, w.journal ++ [.positions executed]⟩⟩ := by
  obtain ⟨discarded, d, hdiscards, hholds, -, -⟩ := rereads_captured v executed hs hrunning
  have hheld : c.buffer.isEmpty = false := by
    have hrows : c.buffer.rows = d.rows := hholds.rows
    rw [RowBuffer.isEmpty, hrows, List.isEmpty_eq_false_iff]
    exact d.found
  rw [hholds.any_isAmbiguous] at hclear
  have hplaced : d.isAmbiguous = false :=
    Bool.eq_false_iff.2 fun hambiguous => absurd (hclear hambiguous) (by simp [hheld])
  exact ⟨discarded, .inr ⟨d, hdiscards, hplaced, hholds⟩⟩

/-- An ambiguous chunk is discarded, and its query is awaited. -/
theorem rereads_reverted {c : Coordinator} {w : Recorded σ} (v : σ) {executed : PositionSet}
    (hs : Phase.filled.Rereads s₀ ⟨c, w⟩) (hrunning : c.isRunning = true)
    (hambiguous : ((c.updateRun fun r => r.setHigh executed).run.any fun r =>
      r.watermarks.isAmbiguous) = true) :
    Phase.due.Rereads s₀
      ⟨(((c.updateRun fun r => r.setHigh executed).dropRows).updateRun
        Run.revertChunk).count .chunkReread, ⟨v, w.journal ++ [.positions executed]⟩⟩ := by
  obtain ⟨discarded, d, hdiscards, hholds, hpaused, hawaited⟩ :=
    rereads_captured v executed hs hrunning
  rw [hholds.any_isAmbiguous] at hambiguous
  obtain ⟨r, hr, hrun⟩ : ∃ r, c.run = some r ∧ r.isRunning = true :=
    (Option.any_eq_true _ _).1 hrunning
  have hreverted : ((((c.updateRun fun r => r.setHigh executed).dropRows).updateRun
      Run.revertChunk).count .chunkReread).run = some (r.setHigh executed).revertChunk := by
    simp [Coordinator.updateRun, Coordinator.dropRows, Coordinator.count, hr]
  refine ⟨rfl, ?_, discarded ++ [d], hdiscards.discard rfl rfl hambiguous ?_⟩
  · simp only [Coordinator.mayRead, hreverted, Option.any_some, Bool.and_eq_true,
      Bool.not_eq_true']
    exact ⟨hrun, hpaused r hr⟩
  · rw [← hawaited]
    exact Coordinator.awaitedQuery?_congr (r := r.revertChunk)
      (congrArg (Option.map Run.revertChunk) hr) hreverted rfl rfl rfl rfl rfl

theorem Move.rereads
    (hdistinct : ∀ q w rows w', env.rangeQuery q w = (.ok rows, w') → (rows.map Row.key).Nodup)
    (h : Move env.recorded p s q s') (hs : p.Rereads s₀ s) : q.Rereads s₀ s' := by
  cases h with
  | sent | allSent => exact hs.elim
  | declined stays => exact absurd hs.2.1 (by simp [stays])
  | @began c w w₁ w₂ w₃ w₄ low reads commit positions commit' begins =>
    obtain ⟨hrows, -, discarded, hdiscards⟩ := hs
    obtain ⟨v₁, v₂, rfl, rfl⟩ := recorded_opening commit positions commit' begins
    obtain ⟨r, hr, hmay⟩ := (Option.any_eq_true _ _).1 reads
    have hpaused : r.paused = false := by simpa using (Bool.and_eq_true_iff.1 hmay).2
    have hrun : (((c.updateRun fun r => r.startChunk (env.now v₁)).updateRun fun r =>
        r.setLow low).count .windowOpened).run = some ((r.startChunk (env.now v₁)).setLow low) := by
      simp [Coordinator.updateRun, Coordinator.count, hr]
    refine ⟨hrows, discarded, low, [], _, ?_, List.forall_mem_nil _, hrun, hpaused, rfl, rfl⟩
    rw [List.append_nil, ← List.nil_append (opening low)]
    refine hdiscards.extend (by simp [journal, opening]) rfl fun q hq => ?_
    rw [← hq]
    exact Coordinator.awaitedQuery?_congr hr hrun rfl rfl rfl rfl rfl
  | @measured c w w' r t ts k run tables unknown maximum =>
    obtain ⟨v, -, rfl⟩ := recorded_maximum_eq_ok.1 maximum
    refine rereads_search (r.setMaximum k) hs rfl run
      (by simp [Coordinator.updateRun, run]) rfl rfl rfl id rfl fun q hq => ?_
    rw [Coordinator.awaitedQuery?_of_front run tables, unknown] at hq
    exact absurd hq (by simp)
  | @vacant c w w' r t ts run tables unknown maximum =>
    obtain ⟨v, -, rfl⟩ := recorded_maximum_eq_ok.1 maximum
    refine rereads_search (r.nextTable (env.now v)) hs rfl run
      (by simp [Coordinator.updateRun, Coordinator.count, run, Environment.recorded]) rfl rfl rfl
      (fun _ => rfl) rfl fun q hq => ?_
    rw [Coordinator.awaitedQuery?_of_front run tables, unknown] at hq
    exact absurd hq (by simp)
  | @exhausted c w w' r t ts run tables known query =>
    obtain ⟨v, -, rfl⟩ := recorded_query_eq_ok.1 query
    refine rereads_search (r.nextTable (env.now v)) hs rfl run
      (by simp [Coordinator.updateRun, Coordinator.count, run, Environment.recorded]) rfl rfl rfl
      (fun _ => rfl) rfl fun q hq => ?_
    rw [Coordinator.awaitedQuery?_of_front run tables, if_pos known] at hq
    rw [← hq]
    rfl
  | buffered run tables known found query =>
    obtain ⟨v, hquery, -⟩ := recorded_query_eq_ok.1 query
    exact rereads_buffered hs run tables known found (hdistinct _ _ _ _ hquery) query
  | @served s r run tables =>
    obtain ⟨-, discarded, low, search, -, hdiscards, hsearch, -⟩ := hs
    refine ⟨discarded, .inl ⟨?_, low, search, hsearch, hdiscards.of_same rfl rfl fun q hq => ?_⟩⟩
    · simp [Coordinator.isRunning, run, Run.isRunning, tables]
    · simp [Coordinator.awaitedQuery?, run, Run.currentTable, tables] at hq
  | kept running positions clear =>
    obtain ⟨v, -, rfl⟩ := recorded_positions_eq_ok.1 positions
    exact rereads_kept v hs running clear
  | reverted running positions ambiguous held =>
    obtain ⟨v, -, rfl⟩ := recorded_positions_eq_ok.1 positions
    exact rereads_reverted v hs running ambiguous
  | @completed c w ended =>
    obtain ⟨discarded, ⟨-, low, search, hsearch, hdiscards⟩ | ⟨k, -, hholds, -, -⟩⟩ := hs
    · refine ⟨discarded, .inl ⟨?_, low, search, hsearch, hdiscards.of_same rfl rfl fun _ h => h⟩⟩
      rw [← ended]
      simp only [Coordinator.isRunning, Coordinator.updateRun, Option.any_map]
      rfl
    · exact absurd ended (by simp [hholds.isRunning])

end Moves

/-- A reading over a store that answers with rows of different keys reads a chunk again as often as
its high watermark spans several sources: what was read is dropped and its query is repeated. In the
end no table is queued, or the chunk that was read last can be placed in the stream of one source,
and what is held is of that chunk alone. -/
theorem readChunk_rereads {rounds : Nat} {s s' : Session (Recorded σ)} {u : Unit}
    (hdistinct : ∀ q w rows w', env.rangeQuery q w = (.ok rows, w') → (rows.map Row.key).Nodup)
    (hreads : s.coordinator.mayRead = true) (hrows : s.coordinator.buffer.rows = [])
    (h : readChunk env.recorded rounds s = .ok u s') :
    ∃ discarded, s.RunsOut discarded s' ∨ s.Keeps discarded s' :=
  (readChunk_moves h).keeps (I := fun p s' => p.Rereads s s')
    (fun hmove => hmove.rereads hdistinct) ⟨hrows, hreads, [], .initial s _⟩

namespace Rehearsal

def vacancy (t : Table) : List Row :=
  if t.name = "a" then [] else [⟨⟨[.int 1]⟩, .null⟩, ⟨⟨[.int 2]⟩, .null⟩]

theorem vacancy_ascending (t : Table) : (vacancy t).Pairwise fun a b => a.key < b.key := by
  unfold vacancy
  split
  · exact .nil
  · decide

/-- A run with a vacant table before one with rows; two captures in a row will be ambiguous. -/
def besideVacancy : Session (Recorded (List PositionSet)) where
  coordinator :=
    { settings := { chunkSize := 1 }
      run := some { Run.fresh "vacancy" 0 with tables := [⟨"d", "a"⟩, ⟨"d", "b"⟩] } }
  world :=
    { world := [.empty, (upTo 5).insert ⟨"t", 1⟩, upTo 5, (upTo 6).insert ⟨"t", 2⟩, upTo 6, upTo 7]
      journal := [] }

/-- The vacant table is finished once, and the first row of the other one is read three times. -/
theorem vacancy_rereads : ∃ s', readChunk (shelf vacancy).recorded 9 besideVacancy = .ok () s' ∧
    s'.queries.map (fun a => (a.1.table.name, a.1.after)) = [("b", none), ("b", none), ("b", none)] ∧
    s'.coordinator.statistics.chunkRereads = 2 ∧
    ∃ discarded, besideVacancy.RunsOut discarded s' ∨ besideVacancy.Keeps discarded s' := by
  obtain ⟨s', h, hshown⟩ := exists_of_endsIn
    (x := readChunk (shelf vacancy).recorded 9) (s := besideVacancy)
    (p := fun s => s.queries.map (fun a => (a.1.table.name, a.1.after)) =
        [("b", none), ("b", none), ("b", none)] &&
      s.coordinator.statistics.chunkRereads = 2) (by decide +kernel)
  simp only [Bool.and_eq_true, decide_eq_true_eq] at hshown
  refine ⟨s', h, hshown.1, hshown.2, readChunk_rereads (fun q w rows w' hquery => ?_) rfl rfl h⟩
  exact (shelf_honest vacancy_ascending q rows w w' hquery).nodup

end Rehearsal
end Backfill
