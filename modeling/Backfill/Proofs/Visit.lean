import Backfill.Proofs.Recording
import Backfill.Proofs.Selection

/-! The journal of a coordinator, divided by the tables that are read. A visit to a table begins
when its largest key is asked for and is over when a query returns no row. What was read of the
table is followed through the visit: up to some key every row was sent or waits to be sent. -/
namespace Backfill
variable {σ : Type}

/-- Whether a record tells of a row that was read for the snapshot and not of a change. -/
def Emission.isRead (e : Emission) : Bool := e.record.operation = .read && e.offset.fromSnapshot

/-- What was recorded while a table was read. -/
structure Visit (σ : Type) where
  table : Table
  /-- The key after which reading began, if the reading of the table was taken up again. -/
  after : Option Key := none
  /-- The largest key of the table, as it was answered. -/
  maximum : Option Key
  answers : List (Answer σ) := []
  ended : Bool

namespace Visit

def note (v : Visit σ) (a : Answer σ) : Visit σ := { v with answers := v.answers ++ [a] }

def follow : List (Visit σ) → Answer σ → List (Visit σ)
  | vs, .maximum _ t k => { table := t, maximum := k, ended := k.isNone } :: vs
  | [], _ => []
  | v :: vs, .query w q rows => { v.note (.query w q rows) with ended := rows.isEmpty } :: vs
  | v :: vs, a => v.note a :: vs

/-- The visits of a journal, last first, if it begins within the visits `seed`. -/
def ofJournal (seed : List (Visit σ)) (journal : List (Answer σ)) : List (Visit σ) :=
  journal.foldl follow seed

def reads (v : Visit σ) : List Emission := (v.answers.filterMap Answer.sent?).filter Emission.isRead

def keys (v : Visit σ) : List Key := v.reads.map fun e => e.record.key

/-- A key that the visit is about: after the one where it began, and not above the largest. -/
structure Covers (v : Visit σ) (k : Key) : Prop where
  after : ∀ a, v.after = some a → a < k
  upTo : ∃ m, v.maximum = some m ∧ k ≤ m

/-- A row that stays as it is throughout a visit: each query of the visit sees it and lets it pass,
and no change of it is passed on. -/
structure Stays (contents : σ → Table → Contents) (admits : String → Row → Prop) (v : Visit σ)
    (row : Row) : Prop where
  covered : v.Covers row.key
  stored : ∀ w q rows, .query w q rows ∈ v.answers → contents w q.table row.key = some row.data
  admitted : ∀ w q rows, .query w q rows ∈ v.answers → ∀ f, q.filter = some f → admits f row
  unchanged : ∀ e, .sent e ∈ v.answers → e.isRead = false →
    ¬ (e.table = v.table ∧ e.record.key = row.key)

/-- A visit reads each row of its table at most once, in ascending order, and those that stay as
they are once before it is over. All its queries are for the table, up to its largest key. -/
structure WellRead (contents : σ → Table → Contents) (admits : String → Row → Prop)
    (v : Visit σ) : Prop where
  queries : ∀ w q rows, .query w q rows ∈ v.answers → q.table = v.table ∧ q.upTo = v.maximum
  table : ∀ e ∈ v.reads, e.table = v.table
  ascending : v.keys.Pairwise (· < ·)
  covered : ∀ k ∈ v.keys, v.Covers k
  once : v.ended = true → ∀ row, v.Stays contents admits row →
    (v.reads.map Emission.record).filter (fun r => r.key = row.key) = [row.record]

section Note
variable {contents : σ → Table → Contents} {admits : String → Row → Prop} {v : Visit σ}
  {a : Answer σ} {row : Row}

theorem reads_note (v : Visit σ) (a : Answer σ) :
    (v.note a).reads = v.reads ++ a.sent?.toList.filter Emission.isRead := by
  cases h : a.sent? <;> simp [reads, note, h]

theorem reads_note_of_none (h : ∀ e, a.sent? = some e → e.isRead = false) :
    (v.note a).reads = v.reads := by
  rw [reads_note]
  cases ha : a.sent? with
  | none => simp
  | some e => simp [h e ha]

theorem keys_note_of_none (h : ∀ e, a.sent? = some e → e.isRead = false) :
    (v.note a).keys = v.keys :=
  congrArg (List.map fun e : Emission => e.record.key) (reads_note_of_none h)

/-- A row that stays as it is for longer does so for shorter. -/
theorem Stays.of_note (h : (v.note a).Stays contents admits row) : v.Stays contents admits row where
  covered := ⟨h.covered.after, h.covered.upTo⟩
  stored w q rows hq := h.stored w q rows (List.mem_append_left _ hq)
  admitted w q rows hq := h.admitted w q rows (List.mem_append_left _ hq)
  unchanged e he := h.unchanged e (List.mem_append_left _ he)

end Note
end Visit

def Reaches (bound : Option Key) (k : Key) : Prop := ∃ b, bound = some b ∧ k ≤ b

theorem filter_key_eq {records : List Record} {r : Record}
    (h : records.Pairwise fun a b => a.key < b.key) (hr : r ∈ records) :
    (records.filter fun a => a.key = r.key) = [r] := by
  induction records with
  | nil => exact absurd hr List.not_mem_nil
  | cons a rest ih =>
    obtain ⟨ha, hrest⟩ := List.pairwise_cons.1 h
    rcases List.mem_cons.1 hr with rfl | hr
    · have hnone : (rest.filter fun a => a.key = r.key) = [] :=
        List.filter_eq_nil_iff.2 fun b hb => by simpa using ne_of_gt (ha b hb)
      simp [hnone]
    · have hne : a.key ≠ r.key := ne_of_lt (ha r hr)
      simp [hne, ih hrest hr]

theorem lt_of_not_reaches {bound : Option Key} {k b : Key} (h : ¬ Reaches bound k)
    (hb : bound = some b) : b < k :=
  not_le.1 fun hle => h ⟨b, hb, hle⟩

namespace Visit
variable {contents : σ → Table → Contents} {admits : String → Row → Prop}
  {x : Option (Table × Key)} {v : Visit σ} {bound : Option Key} {rows : List Row} {a : Answer σ}

/-- How far a visit has come: up to a bound, each row that stays as it is was sent or is among the
rows still to be sent. The row with the key `x` of a change about to be passed on is left out. -/
structure ReadUpTo (contents : σ → Table → Contents) (admits : String → Row → Prop)
    (x : Option (Table × Key)) (v : Visit σ) (bound : Option Key) (rows : List Row) : Prop where
  ascending : (v.keys ++ rows.map Row.key).Pairwise (· < ·)
  reached : ∀ k ∈ v.keys ++ rows.map Row.key, Reaches bound k
  covered : ∀ k ∈ v.keys ++ rows.map Row.key, v.Covers k
  resumed : ∀ k, v.after = some k → Reaches bound k
  complete : ∀ row, v.Stays contents admits row → x ≠ some (v.table, row.key) →
    Reaches bound row.key → row.record ∈ v.reads.map Emission.record ∨ row ∈ rows

namespace ReadUpTo

theorem note (h : v.ReadUpTo contents admits x bound rows)
    (ha : ∀ e, a.sent? = some e → e.isRead = false) :
    (v.note a).ReadUpTo contents admits x bound rows where
  ascending := by
    rw [keys_note_of_none ha]
    exact h.ascending
  reached := by
    rw [keys_note_of_none ha]
    exact h.reached
  covered := by
    rw [keys_note_of_none ha]
    exact fun k hk => ⟨(h.covered k hk).after, (h.covered k hk).upTo⟩
  resumed := h.resumed
  complete row hrow hx hreach := by
    rw [reads_note_of_none ha]
    exact h.complete row hrow.of_note hx hreach

theorem send {row : Row} {e : Emission} (h : v.ReadUpTo contents admits x bound (row :: rows))
    (he : e.record = row.record) (ho : e.offset.fromSnapshot = true) :
    (v.note (.sent e)).ReadUpTo contents admits x bound rows := by
  have hread : e.isRead = true := by simp [Emission.isRead, he, ho, Row.record]
  have hreads : (v.note (.sent e)).reads = v.reads ++ [e] := by
    simp [reads_note, Answer.sent?, hread]
  have hkeys : (v.note (.sent e)).keys ++ rows.map Row.key = v.keys ++ (row :: rows).map Row.key := by
    simp [keys, hreads, he, Row.record]
  refine ⟨by rw [hkeys]; exact h.ascending, by rw [hkeys]; exact h.reached, ?_, h.resumed, ?_⟩
  · rw [hkeys]
    exact fun k hk => ⟨(h.covered k hk).after, (h.covered k hk).upTo⟩
  · intro row' hrow hx hreach
    rw [hreads, List.map_append, List.mem_append]
    rcases h.complete row' hrow.of_note hx hreach with hsent | hmem
    · exact .inl (.inl hsent)
    · rcases List.mem_cons.1 hmem with rfl | hmem
      · exact .inl (.inr (by simp [he]))
      · exact .inr hmem

/-- Rows may be dropped if they do not stay as they are, or belong to the change to be passed on. -/
theorem filter (h : v.ReadUpTo contents admits x bound rows) (f : Row → Bool)
    (hf : ∀ row, f row = false → x = some (v.table, row.key)) :
    v.ReadUpTo contents admits x bound (rows.filter f) := by
  have hsub : (v.keys ++ (rows.filter f).map Row.key).Sublist (v.keys ++ rows.map Row.key) :=
    (List.Sublist.refl _).append (List.filter_sublist.map _)
  refine ⟨h.ascending.sublist hsub, fun k hk => h.reached k (hsub.subset hk),
    fun k hk => h.covered k (hsub.subset hk), h.resumed, fun row hrow hx hreach => ?_⟩
  refine (h.complete row hrow hx hreach).imp id fun hmem => List.mem_filter.2 ⟨hmem, ?_⟩
  cases hfr : f row with
  | true => rfl
  | false => exact absurd (hf row hfr) hx

theorem mono (h : v.ReadUpTo contents admits none bound rows) :
    v.ReadUpTo contents admits x bound rows :=
  ⟨h.ascending, h.reached, h.covered, h.resumed, fun row hrow _ => h.complete row hrow nofun⟩

/-- Once the change is passed on, its row does not stay as it is, and none is left out. -/
theorem pass {e : Emission} (h : v.ReadUpTo contents admits x bound rows)
    (hx : x = some (e.table, e.record.key)) (he : e.isRead = false) :
    (v.note (.sent e)).ReadUpTo contents admits none bound rows := by
  have hnote := h.note (a := .sent e) fun e' he' => Option.some.inj he' ▸ he
  refine ⟨hnote.ascending, hnote.reached, hnote.covered, hnote.resumed, ?_⟩
  intro row hrow _ hreach
  refine hnote.complete row hrow ?_ hreach
  rw [hx]
  intro heq
  obtain ⟨ht, hk⟩ := Prod.mk.inj (Option.some.inj heq)
  exact hrow.unchanged e (List.mem_append_right _ List.mem_cons_self) he ⟨ht, hk⟩

/-- A query after the bound takes a visit up to the last row that it returns. -/
theorem query {w : σ} {q : ChunkQuery} {found : List Row} {last : Row}
    (h : v.ReadUpTo contents admits x bound [])
    (hrows : q.FirstRows admits (contents w q.table) found) (hafter : q.after = bound)
    (hupTo : q.upTo = v.maximum) (hknown : v.maximum.isSome) (hlast : found.getLast? = some last) :
    (v.note (.query w q found)).ReadUpTo contents admits x (some last.key) found := by
  have hnote := h.note (a := .query w q found) nofun
  have hmem : last ∈ found := List.mem_of_getLast? hlast
  have hle : ∀ row ∈ found, row.key ≤ last.key := by
    obtain ⟨front, rfl⟩ := List.getLast?_eq_some_iff.1 hlast
    intro row hrow
    rcases List.mem_append.1 hrow with hrow | hrow
    · exact le_of_lt ((List.pairwise_append.1 hrows.ascending).2.2 row hrow last (by simp))
    · rw [List.mem_singleton.1 hrow]
  have hlt : ∀ k, Reaches bound k → ∀ row ∈ found, k < row.key := by
    rintro k ⟨b, hb, hk⟩ row hrow
    exact hk.trans_lt ((hrows.asked row hrow).after b (hafter.trans hb))
  have hkeys : ∀ k ∈ (v.note (.query w q found)).keys, Reaches bound k := fun k hk =>
    hnote.reached k (List.mem_append_left _ hk)
  have hupper : ∀ k, Reaches bound k → k ≤ last.key := fun k hk => le_of_lt (hlt k hk last hmem)
  constructor
  · refine List.pairwise_append.2 ⟨(List.pairwise_append.1 hnote.ascending).1, ?_, ?_⟩
    · exact List.pairwise_map.2 hrows.ascending
    · intro k hk l hl
      obtain ⟨row, hrow, rfl⟩ := List.mem_map.1 hl
      exact hlt k (hkeys k hk) row hrow
  · intro k hk
    rcases List.mem_append.1 hk with hk | hk
    · exact ⟨last.key, rfl, hupper k (hkeys k hk)⟩
    · obtain ⟨row, hrow, rfl⟩ := List.mem_map.1 hk
      exact ⟨last.key, rfl, hle row hrow⟩
  · intro k hk
    rcases List.mem_append.1 hk with hk | hk
    · exact hnote.covered k (List.mem_append_left _ hk)
    · obtain ⟨row, hrow, rfl⟩ := List.mem_map.1 hk
      obtain ⟨m, hm⟩ := Option.isSome_iff_exists.1 hknown
      refine ⟨fun k hk => ?_, m, hm, (hrows.asked row hrow).upTo m (hupTo.trans hm)⟩
      exact hlt k (h.resumed k hk) row hrow
  · exact fun k hk => ⟨last.key, rfl, hupper k (h.resumed k hk)⟩
  · intro row hrow hx hreach
    obtain ⟨b, hb, hk⟩ := hreach
    obtain rfl := Option.some.inj hb
    by_cases hold : Reaches bound row.key
    · refine .inl ?_
      simpa using hnote.complete row hrow hx hold
    · refine .inr (hrows.mem_of_le ?_ ?_ hmem hk)
      · exact hrow.stored w q found (List.mem_append_right _ List.mem_cons_self)
      · refine ⟨fun b hb => lt_of_not_reaches hold (hafter.symm.trans hb), fun m hm => ?_, ?_⟩
        · obtain ⟨m', hm', hle⟩ := hrow.covered.upTo
          obtain rfl := Option.some.inj ((hupTo.symm.trans hm).symm.trans hm')
          exact hle
        · exact hrow.admitted w q found (List.mem_append_right _ List.mem_cons_self)

/-- In a visit whose queries are for its table, nothing is left to be read once a query with a limit
returns no row. -/
theorem wellRead {w : σ} {q : ChunkQuery} (h : v.ReadUpTo contents admits none bound [])
    (hrows : q.FirstRows admits (contents w q.table) []) (hlimit : 0 < q.limit)
    (hafter : q.after = bound) (hupTo : q.upTo = v.maximum) (htable : q.table = v.table)
    (hqueries : ∀ w q rows, .query w q rows ∈ v.answers → q.table = v.table ∧ q.upTo = v.maximum)
    (hreads : ∀ e ∈ v.reads, e.table = v.table) :
    WellRead contents admits { v.note (.query w q []) with ended := true } := by
  have hnote := h.note (a := .query w q []) nofun
  have hsame : (v.note (.query w q [])).reads = v.reads := reads_note_of_none nofun
  have hkeys : (v.note (.query w q [])).keys = v.keys := keys_note_of_none nofun
  have hascending : v.keys.Pairwise (· < ·) := by simpa using h.ascending
  refine ⟨?_, ?_, hkeys ▸ hascending, ?_, fun _ row hstays => ?_⟩
  · intro w' q' rows' hmem
    rcases List.mem_append.1 hmem with hmem | hmem
    · exact hqueries w' q' rows' hmem
    · obtain ⟨rfl, rfl, rfl⟩ := Answer.query.inj (List.mem_singleton.1 hmem)
      exact ⟨htable, hupTo⟩
  · exact fun e he => hreads e (hsame ▸ he)
  · intro k hk
    have hcovered := h.covered k (List.mem_append_left _ (hkeys ▸ hk))
    exact ⟨hcovered.after, hcovered.upTo⟩
  · have hrow : (v.note (.query w q [])).Stays contents admits row :=
      ⟨⟨hstays.covered.after, hstays.covered.upTo⟩, hstays.stored, hstays.admitted, hstays.unchanged⟩
    have hlast : Answer.query w q [] ∈ (v.note (.query w q [])).answers :=
      List.mem_append_right _ List.mem_cons_self
    have hreached : Reaches bound row.key := by
      by_contra hnot
      refine hrows.not_asked hlimit (hrow.stored w q [] hlast) ⟨fun b hb => ?_, fun m hm => ?_, ?_⟩
      · exact lt_of_not_reaches hnot (hafter.symm.trans hb)
      · obtain ⟨m', hm', hle⟩ := hrow.covered.upTo
        obtain rfl := Option.some.inj ((hupTo.symm.trans hm).symm.trans hm')
        exact hle
      · exact hrow.admitted w q [] hlast
    have hsent : row.record ∈ v.reads.map Emission.record := by
      rcases h.complete row hrow.of_note nofun hreached with hsent | hmem
      · exact hsent
      · exact absurd hmem List.not_mem_nil
    have hdistinct : (v.reads.map Emission.record).Pairwise fun r r' => r.key < r'.key := by
      rw [List.pairwise_map]
      exact List.pairwise_map.1 hascending
    change ((v.note (.query w q [])).reads.map Emission.record).filter _ = _
    rw [hsame]
    exact filter_key_eq hdistinct hsent

end ReadUpTo
end Visit
end Backfill
