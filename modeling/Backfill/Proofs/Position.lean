import Backfill.Position.Listing

/-! Which ids and positions the operations on sets give. That `contains` finds the range of an id
takes ranges that ascend; apart from that a set is what its ranges cover. Sources are looked up one by
one, and an operation on sets of positions is that on the ids of each source. -/
namespace Backfill

namespace IdSet
open IdRange

/-- Whether the ranges that end before an id are the first `i` ones. -/
structure SplitsAt (s : IdSet) (n : UInt64) (i : Nat) : Prop where
  bound : i ≤ s.ranges.length
  before : ∀ r ∈ s.ranges.take i, r.last < n
  behind : ∀ r ∈ s.ranges.drop i, ¬ r.last < n

theorem getElem?_partitionPoint (p : IdRange → Bool) (rs : List IdRange) :
    rs[partitionPoint p rs]? = (rs.dropWhile p).head? := by
  rw [partitionPoint]
  induction rs with
  | nil => rfl
  | cons r rs ih => cases hp : p r <;> simp [hp, ih]

/-- The ranges are split at the partition point and nowhere else, so a search that halves them finds
it. -/
theorem splitsAt_iff {s : IdSet} {n : UInt64} {i : Nat} :
    s.SplitsAt n i ↔ i = partitionPoint (fun r => r.last < n) s.ranges := by
  obtain ⟨rs, hapart⟩ := s
  suffices h : (i ≤ rs.length ∧ (∀ r ∈ rs.take i, r.last < n) ∧ ∀ r ∈ rs.drop i, ¬ r.last < n) ↔
      i = partitionPoint (fun r => r.last < n) rs from
    ⟨fun ⟨hbound, hbefore, hbehind⟩ => h.1 ⟨hbound, hbefore, hbehind⟩,
      fun hi => ⟨(h.2 hi).1, (h.2 hi).2.1, (h.2 hi).2.2⟩⟩
  rw [partitionPoint]
  induction rs generalizing i with
  | nil => simp
  | cons r rs ih =>
    have hlater := le_last_of_mem_ahead (n := n) hapart
    cases i with
    | zero =>
      by_cases hr : r.last < n
      · simp [hr, UInt64.not_le.2 hr]
      · simpa [hr, UInt64.le_iff_toNat_le] using hlater
    | succ i =>
      by_cases hr : r.last < n
      · simpa [hr] using ih hapart.of_cons
      · simp [hr]

theorem contains_iff_covers {s : IdSet} {n : UInt64} :
    s.contains n = true ↔ Covers s.ranges n := by
  have hends := le_last_of_mem_ahead (n := n) s.apart
  have hapart := s.apart.sublist (List.dropWhile_sublist fun r => r.last < n)
  rw [contains, getElem?_partitionPoint, ← covers_ahead (Nat.le_refl n.toNat)]
  generalize s.ranges.dropWhile (fun r => r.last < n) = ahead at hends hapart
  cases ahead with
  | nil => simp
  | cons r rs =>
    rw [List.head?_cons, Option.any_some, covers_cons, iff_self_or]
    -- a later range starts behind the end of the first one, which the id does not pass
    rintro ⟨s, hs, hcontains⟩
    have hlater : r.last.toNat + 1 < s.first.toNat := (List.pairwise_cons.1 hapart).1 s hs
    have hr := hends r List.mem_cons_self
    have hle := (contains_iff.1 hcontains).1
    omega

theorem contains_ofRanges {rs : List IdRange} {n : UInt64} :
    (ofRanges rs).contains n = true ↔ ∃ r ∈ rs, r.contains n = true :=
  contains_iff_covers.trans covers_normalize

theorem contains_subtract {s t : IdSet} {n : UInt64} :
    (s.subtract t).contains n = true ↔ s.contains n = true ∧ ¬ t.contains n = true := by
  obtain ⟨parts, hparts, -, -, hcovers⟩ := exists_sweep? s.apart t.apart
  simp only [contains_iff_covers, subtract, hparts, Option.getD_some, hcovers]

theorem contains_union {s t : IdSet} {n : UInt64} :
    (s.union t).contains n = true ↔ s.contains n = true ∨ t.contains n = true := by
  rw [union, contains_ofRanges, contains_iff_covers, contains_iff_covers, ← covers_append]
  rfl

theorem contains_of_isEmpty {s : IdSet} (h : s.isEmpty = true) (n : UInt64) :
    ¬ s.contains n = true := by
  rw [contains_iff_covers, List.isEmpty_iff.1 h]
  exact covers_nil n

end IdSet

namespace TextMap
variable {β γ : Type}

theorem get?_filterMap (m : TextMap β) (f : String → β → Option γ) (k : String) :
    (m.filterMap f).get? k = (m.get? k).bind (f k) := by
  refine Option.ext fun v => ?_
  rw [get?_eq_some_iff, Option.bind_eq_some_iff]
  simp only [get?_eq_some_iff, filterMap, List.mem_filterMap, Option.map_eq_some_iff, Prod.mk.injEq]
  constructor
  · rintro ⟨⟨l, b⟩, hb, v', hv, rfl, rfl⟩
    exact ⟨b, hb, hv⟩
  · rintro ⟨b, hb, hv⟩
    exact ⟨(k, b), hb, v, hv, rfl, rfl⟩

theorem get?_foldl_insert (f : String → β → γ) (m : TextMap γ) (n : TextMap β) (k : String) :
    (n.entries.foldl (fun m e => m.insert e.1 (f e.1 e.2)) m).get? k =
      ((n.get? k).map (f k)).or (m.get? k) := by
  obtain ⟨es, hs⟩ := n
  change (es.foldl (fun m e => m.insert e.1 (f e.1 e.2)) m).get? k =
    (((es.find? fun e => e.1 = k).map Prod.snd).map (f k)).or (m.get? k)
  induction es generalizing m with
  | nil => rfl
  | cons e es ih =>
    obtain ⟨he, hes⟩ := List.pairwise_cons.1 hs
    rw [List.foldl_cons, ih _ hes, get?_insert]
    by_cases hk : e.1 = k
    · subst hk
      have hnone : es.find? (fun d => d.1 = e.1) = none := by
        refine List.find?_eq_none.2 fun d hd => ?_
        simpa using fun heq => String.lt_irrefl _ (heq ▸ he d hd)
      simp [hnone]
    · simp [hk, Ne.symm hk]

end TextMap

namespace PositionSet

theorem contains_iff {s : PositionSet} {p : Position} : s.contains p = true ↔
    ∃ ids, s.ids? p.source = some ids ∧ ids.contains p.transaction = true :=
  Option.any_eq_true _ _

/-- That sources without ids are left out takes no position away. -/
theorem contains_ofMap {m : TextMap IdSet} {p : Position} : (ofMap m).contains p = true ↔
    ∃ ids, m.get? p.source = some ids ∧ ids.contains p.transaction = true := by
  have hids : (ofMap m).ids? p.source =
      (m.get? p.source).bind fun ids => if ids.isEmpty then none else some ids :=
    TextMap.get?_filterMap _ _ _
  rw [contains_iff, hids]
  cases m.get? p.source with
  | none => simp
  | some ids =>
    cases he : ids.isEmpty with
    | true => simpa [he] using IdSet.contains_of_isEmpty he p.transaction
    | false => simp [he]

theorem contains_of_isEmpty {s : PositionSet} (h : s.isEmpty = true) (p : Position) :
    s.contains p = false := by
  have he : s.bySource.entries = [] := List.isEmpty_iff.1 h
  simp [contains, ids?, TextMap.get?, he]

theorem contains_single {source : String} {a b : UInt64} {p : Position} :
    (single source a b).contains p = true ↔
      p.source = source ∧ (IdRange.between a b).contains p.transaction = true := by
  have hids : (single source a b).ids? p.source =
      if p.source = source then some (.ofRanges [.between a b]) else none :=
    TextMap.get?_insert _ _ _ _
  rw [contains_iff, hids]
  split <;> rename_i h <;> simp [h, IdSet.contains_ofRanges]

theorem contains_subtract {s t : PositionSet} {p : Position} :
    (s.subtract t).contains p = true ↔ s.contains p = true ∧ ¬ t.contains p = true := by
  rw [subtract, contains_ofMap, TextMap.get?_filterMap, contains_iff, contains_iff]
  change (∃ ids, ((s.ids? p.source).bind _) = some ids ∧ _) ↔ _
  cases s.ids? p.source with
  | none => simp
  | some ids =>
    cases t.ids? p.source with
    | none => simp
    | some cut => simpa using IdSet.contains_subtract

theorem contains_union {s t : PositionSet} {p : Position} :
    (s.union t).contains p = true ↔ s.contains p = true ∨ t.contains p = true := by
  rw [union, contains_ofMap, TextMap.get?_foldl_insert, contains_iff, contains_iff]
  change (∃ ids, ((t.ids? p.source).map _).or (s.ids? p.source) = some ids ∧ _) ↔ _
  cases t.ids? p.source with
  | none => simp
  | some ids =>
    cases hs : s.ids? p.source with
    | none => simp [joined, hs]
    | some own => simpa [joined, hs] using IdSet.contains_union

theorem contains_insert {s : PositionSet} {p q : Position} :
    (s.insert q).contains p = true ↔ s.contains p = true ∨ p = q := by
  obtain ⟨source, n⟩ := p
  obtain ⟨source', m⟩ := q
  rw [insert, contains_union, contains_single]
  simp only [IdRange.between_of_le (UInt64.le_refl m), IdRange.contains_iff, Position.mk.injEq,
    ← UInt64.toNat_inj]
  refine or_congr_right (and_congr_right fun _ => ?_)
  omega

theorem not_contains_of_contains_subtract {s t : PositionSet} {p : Position}
    (h : (s.subtract t).contains p = true) : t.contains p = false :=
  Bool.eq_false_iff.2 (contains_subtract.1 h).2

/-- A difference, a union and a set with one more position have the positions that their names
promise, and so have sets of the ids of one source; a set made of ranges has their ids. Everything is
computed within the ids that exist: the difference is always found, and two ranges are joined if no id
is missing between them. That a search by halving finds the range of an id is because the ranges that
end before it come first. -/
theorem contains_operations (a b : PositionSet) (p q : Position) (s t : IdSet) (rs : List IdRange)
    (n : UInt64) (r : IdRange) (i : Nat) :
    ((a.subtract b).contains p = true ↔ a.contains p = true ∧ ¬ b.contains p = true) ∧
    ((a.union b).contains p = true ↔ a.contains p = true ∨ b.contains p = true) ∧
    ((a.insert q).contains p = true ↔ a.contains p = true ∨ p = q) ∧
    ((IdSet.ofRanges rs).contains n = true ↔ ∃ r ∈ rs, r.contains n = true) ∧
    ((s.subtract t).contains n = true ↔ s.contains n = true ∧ ¬ t.contains n = true) ∧
    ((s.union t).contains n = true ↔ s.contains n = true ∨ t.contains n = true) ∧
    IdRange.sweep? s.ranges t.ranges = some (s.subtract t).ranges ∧
    (n ≤ r.reach ↔ n.toNat ≤ r.last.toNat + 1) ∧
    (s.SplitsAt n i ↔ i = IdSet.partitionPoint (fun r => r.last < n) s.ranges) :=
  ⟨contains_subtract, contains_union, contains_insert, IdSet.contains_ofRanges,
    IdSet.contains_subtract, IdSet.contains_union, s.sweep?_eq_some t, IdRange.le_reach_iff,
    IdSet.splitsAt_iff⟩

/-- The first and the last of all ids are taken away from all of them. -/
example : (IdSet.ofRanges [.between 0 IdRange.maxId]).subtract
    (.ofRanges [.single IdRange.maxId, .single 0]) = .ofRanges [.between 1 (IdRange.maxId - 1)] := by
  decide +kernel

end PositionSet
end Backfill
