import Backfill.Coordinator.Basic
import Backfill.Proofs.KeyOrder
import Mathlib.Data.List.Sort

/-! What the store promises about the rows of a chunk: in ascending order of their keys, they are
the first of those that the query asks for. -/
namespace Backfill

abbrev Contents := Key → Option Json

def Contents.HasLargest (c : Contents) : Option Key → Prop
  | none => ∀ k, c k = none
  | some m => c m ≠ none ∧ ∀ k, c k ≠ none → k ≤ m

namespace ChunkQuery

/-- Whether a query asks for a row. `admits` says which rows a filter lets pass. -/
structure Asks (admits : String → Row → Prop) (q : ChunkQuery) (row : Row) : Prop where
  after : ∀ a, q.after = some a → a < row.key
  upTo : ∀ m, q.upTo = some m → row.key ≤ m
  filter : ∀ f, q.filter = some f → admits f row

/-- The first rows that a query asks for, of a table with the given contents. -/
structure FirstRows (admits : String → Row → Prop) (q : ChunkQuery) (contents : Contents)
    (rows : List Row) : Prop where
  ascending : rows.Pairwise fun a b => a.key < b.key
  asked : ∀ row ∈ rows, q.Asks admits row
  stored : ∀ row ∈ rows, contents row.key = some row.data
  /-- A row that is left out comes after as many rows as may be returned. -/
  first : ∀ row : Row, contents row.key = some row.data → q.Asks admits row →
    row ∈ rows ∨ q.limit ≤ rows.length ∧ ∀ r ∈ rows, r.key < row.key

variable {admits : String → Row → Prop} {q : ChunkQuery} {contents : Contents} {rows : List Row}

theorem FirstRows.nodup (h : q.FirstRows admits contents rows) : (rows.map Row.key).Nodup := by
  rw [List.Nodup, List.pairwise_map]
  exact h.ascending.imp fun hlt => ne_of_lt hlt

/-- If no row is returned, none was asked for. -/
theorem FirstRows.not_asked (h : q.FirstRows admits contents []) (hlimit : 0 < q.limit) {row : Row}
    (hrow : contents row.key = some row.data) : ¬ q.Asks admits row := by
  intro hasked
  rcases h.first row hrow hasked with hmem | ⟨hle, -⟩
  · simp at hmem
  · simp only [List.length_nil] at hle
    omega

/-- A row up to the last one that is returned is returned itself. -/
theorem FirstRows.mem_of_le (h : q.FirstRows admits contents rows) {row last : Row}
    (hrow : contents row.key = some row.data) (hasked : q.Asks admits row) (hlast : last ∈ rows)
    (hle : row.key ≤ last.key) : row ∈ rows := by
  rcases h.first row hrow hasked with hmem | ⟨-, hlt⟩
  · exact hmem
  · exact absurd (hlt last hlast) (not_lt.2 hle)

def within (q : ChunkQuery) (k : Key) : Bool :=
  q.after.all (fun a => a < k) && q.upTo.all fun m => k ≤ m

theorem asks_iff_within (hfilter : ∀ f row, q.filter = some f → admits f row) {row : Row} :
    q.Asks admits row ↔ q.within row.key = true := by
  simp only [within, Bool.and_eq_true, Option.all_eq_true, decide_eq_true_eq]
  exact ⟨fun h => ⟨h.after, h.upTo⟩, fun h => ⟨h.1, h.2, fun f hf => hfilter f row hf⟩⟩

def contentsOf (rows : List Row) : Contents := fun k =>
  (rows.find? fun r => r.key = k).map Row.data

theorem contentsOf_eq_some (h : rows.Pairwise fun a b => a.key < b.key) (row : Row) :
    contentsOf rows row.key = some row.data ↔ row ∈ rows := by
  induction rows with
  | nil => simp [contentsOf]
  | cons r rows ih =>
    obtain ⟨hr, hrows⟩ := List.pairwise_cons.1 h
    have ih := ih hrows
    simp only [contentsOf, List.find?_cons] at ih ⊢
    by_cases hk : r.key = row.key
    · have hnot : row ∉ rows := fun hmem => absurd (hr row hmem) (by rw [hk]; exact lt_irrefl _)
      simp only [hk, decide_true, Option.map_some, Option.some.injEq, List.mem_cons, hnot, or_false]
      obtain ⟨k, d⟩ := r
      obtain ⟨k', d'⟩ := row
      simp only at hk
      simp [hk, eq_comm]
    · have hne : row ≠ r := fun he => hk (he ▸ rfl)
      simpa [hk, hne] using ih

theorem contentsOf_hasLargest (h : rows.Pairwise fun a b => a.key < b.key) :
    (contentsOf rows).HasLargest (rows.getLast?.map Row.key) := by
  cases hlast : rows.getLast? with
  | none =>
    obtain rfl := List.getLast?_eq_none_iff.1 hlast
    exact fun _ => rfl
  | some last =>
    refine ⟨?_, fun k hk => ?_⟩
    · rw [(contentsOf_eq_some h last).2 (List.mem_of_getLast? hlast)]
      exact Option.some_ne_none _
    · obtain ⟨row, hrow, rfl⟩ : ∃ row ∈ rows, row.key = k := by
        by_contra hnone
        refine hk (Option.map_eq_none_iff.2 (List.find?_eq_none.2 fun row hrow heq => ?_))
        exact hnone ⟨row, hrow, of_decide_eq_true heq⟩
      obtain ⟨front, rfl⟩ := List.getLast?_eq_some_iff.1 hlast
      rcases List.mem_append.1 hrow with hrow | hrow
      · exact le_of_lt ((List.pairwise_append.1 h).2.2 row hrow last List.mem_cons_self)
      · exact le_of_eq (List.mem_singleton.1 hrow ▸ rfl)

/-- Taking the first of the ascending rows that are asked for keeps the promise. -/
theorem firstRows_take (h : rows.Pairwise fun a b => a.key < b.key)
    (hfilter : ∀ f row, q.filter = some f → admits f row) :
    q.FirstRows admits (contentsOf rows) ((rows.filter fun r => q.within r.key).take q.limit) := by
  have hsub : ((rows.filter fun r => q.within r.key).take q.limit).Sublist rows :=
    (List.take_sublist _ _).trans List.filter_sublist
  refine ⟨h.sublist hsub, fun row hrow => ?_, fun row hrow => ?_, fun row hrow hasked => ?_⟩
  · exact (asks_iff_within hfilter).2 (List.mem_filter.1 (List.mem_of_mem_take hrow)).2
  · exact (contentsOf_eq_some h row).2 (hsub.subset hrow)
  · have hmem : row ∈ rows.filter fun r => q.within r.key :=
      List.mem_filter.2 ⟨(contentsOf_eq_some h row).1 hrow, (asks_iff_within hfilter).1 hasked⟩
    have hsplit := List.take_append_drop q.limit (rows.filter fun r => q.within r.key)
    have hpair : (rows.filter fun r => q.within r.key).Pairwise fun a b => a.key < b.key :=
      h.sublist List.filter_sublist
    rw [← hsplit] at hmem hpair
    rcases List.mem_append.1 hmem with hmem | hmem
    · exact .inl hmem
    · have hdrop := List.length_pos_of_mem hmem
      refine .inr ⟨?_, fun r hr => (List.pairwise_append.1 hpair).2.2 r hr row hmem⟩
      rw [List.length_drop] at hdrop
      rw [List.length_take]
      omega

end ChunkQuery
end Backfill
