import Backfill.Position.Listing
import Backfill.Proofs.Position
import Mathlib.Data.Set.Card

/-! Sets of positions are values: two sets with the same positions are the same set. Ranges that
ascend with gaps between them are determined by the ids that they cover, and no operation keeps a
source without ids. So a set is empty if it has no position, its sources are those with a position,
and the end of the last range of a source is the greatest id of that source. -/
namespace Backfill

namespace IdRange
variable {r s : IdRange} {rs ss : List IdRange} {n : UInt64}

theorem contains_first (r : IdRange) : r.contains r.first = true :=
  contains_iff.2 ⟨Nat.le_refl _, r.toNat_ascending⟩

theorem contains_last (r : IdRange) : r.contains r.last = true :=
  contains_iff.2 ⟨r.toNat_ascending, Nat.le_refl _⟩

theorem first_le_of_covers (hrs : (r :: rs).Pairwise IsBefore) (h : Covers (r :: rs) n) :
    r.first.toNat ≤ n.toNat := by
  rcases covers_cons.1 h with hr | hrest
  · exact (contains_iff.1 hr).1
  · have hn : ¬ n.toNat ≤ r.last.toNat := fun hn => not_covers_of_le_last hrs hn hrest
    have hr := r.toNat_ascending
    omega

/-- The id after the first range is not covered. -/
theorem not_covers_gap (hrs : (r :: rs).Pairwise IsBefore) (hn : n.toNat = r.last.toNat + 1) :
    ¬ Covers (r :: rs) n := by
  rintro ⟨x, hx, hcontains⟩
  rcases List.mem_cons.1 hx with rfl | hx
  · have hle := (contains_iff.1 hcontains).2
    omega
  · have hlater : r.last.toNat + 1 < x.first.toNat := (List.pairwise_cons.1 hrs).1 x hx
    have hle := (contains_iff.1 hcontains).1
    omega

theorem covers_tail_iff (hrs : (r :: rs).Pairwise IsBefore) :
    Covers rs n ↔ Covers (r :: rs) n ∧ r.last.toNat < n.toNat := by
  rw [covers_cons, contains_iff]
  constructor
  · intro h
    have hn : ¬ n.toNat ≤ r.last.toNat := fun hn => not_covers_of_le_last hrs hn h
    exact ⟨.inr h, by omega⟩
  · rintro ⟨hr | h, hn⟩
    · omega
    · exact h

private theorem first_le_of_covers_imp (hrs : (r :: rs).Pairwise IsBefore)
    (h : ∀ n, Covers (s :: ss) n → Covers (r :: rs) n) : r.first.toNat ≤ s.first.toNat :=
  first_le_of_covers hrs (h _ (covers_cons.2 (.inl s.contains_first)))

/-- If first ranges begin at the same id, the one does not end before the other. -/
private theorem last_le_of_covers_imp (hrs : (r :: rs).Pairwise IsBefore) (hfirst : r.first = s.first)
    (h : ∀ n, Covers (s :: ss) n → Covers (r :: rs) n) : s.last.toNat ≤ r.last.toNat := by
  refine Nat.le_of_not_lt fun hlt => ?_
  obtain ⟨k, -, hk⟩ := idAfter?_of_lt (UInt64.lt_iff_toNat_lt.2 hlt)
  have hr := r.toNat_ascending
  have hs : s.contains k = true := contains_iff.2 ⟨by rw [← hfirst]; omega, by omega⟩
  exact not_covers_gap hrs hk (h k (covers_cons.2 (.inl hs)))

/-- Ascending ranges with gaps between them are determined by what they cover. -/
theorem eq_of_covers (hrs : rs.Pairwise IsBefore) (hss : ss.Pairwise IsBefore)
    (h : ∀ n, Covers rs n ↔ Covers ss n) : rs = ss := by
  induction rs generalizing ss with
  | nil =>
    cases ss with
    | nil => rfl
    | cons s ss =>
      have hs : Covers (s :: ss) s.first := covers_cons.2 (.inl s.contains_first)
      exact absurd ((h s.first).2 hs) (covers_nil _)
  | cons r rs ih =>
    cases ss with
    | nil =>
      have hr : Covers (r :: rs) r.first := covers_cons.2 (.inl r.contains_first)
      exact absurd ((h r.first).1 hr) (covers_nil _)
    | cons s ss =>
      have hfirst : r.first = s.first := UInt64.toNat_inj.1 <| Nat.le_antisymm
        (first_le_of_covers_imp hrs fun n => (h n).2) (first_le_of_covers_imp hss fun n => (h n).1)
      have hlast : r.last = s.last := UInt64.toNat_inj.1 <| Nat.le_antisymm
        (last_le_of_covers_imp hss hfirst.symm fun n => (h n).1)
        (last_le_of_covers_imp hrs hfirst fun n => (h n).2)
      obtain rfl : r = s := by
        cases r
        cases s
        simp_all
      have htail (n : UInt64) : Covers rs n ↔ Covers ss n := by
        rw [covers_tail_iff hrs, covers_tail_iff hss, h]
      rw [ih hrs.of_cons hss.of_cons htail]

theorem getLast?_covers (hrs : rs.Pairwise IsBefore) (hr : rs.getLast? = some r) :
    Covers rs r.last ∧ ∀ n, Covers rs n → n ≤ r.last := by
  obtain ⟨front, rfl⟩ := List.getLast?_eq_some_iff.1 hr
  refine ⟨covers_append.2 (.inr (covers_cons.2 (.inl r.contains_last))), ?_⟩
  rintro n ⟨x, hx, hcontains⟩
  have hn := (contains_iff.1 hcontains).2
  rw [UInt64.le_iff_toNat_le]
  rcases List.mem_append.1 hx with hx | hx
  · have hbefore : x.last.toNat + 1 < r.first.toNat :=
      (List.pairwise_append.1 hrs).2.2 x hx r List.mem_cons_self
    have hr := r.toNat_ascending
    omega
  · obtain rfl := List.mem_singleton.1 hx
    exact hn

end IdRange

namespace IdSet
open IdRange
variable {s t : IdSet} {n : UInt64}

theorem eq_of_contains (h : ∀ n, s.contains n = t.contains n) : s = t := by
  have hcovers (n : UInt64) : Covers s.ranges n ↔ Covers t.ranges n := by
    rw [← contains_iff_covers, h, contains_iff_covers]
  obtain ⟨rs, hrs⟩ := s
  obtain ⟨ts, hts⟩ := t
  obtain rfl : rs = ts := eq_of_covers hrs hts hcovers
  rfl

theorem exists_contains (h : s.isEmpty = false) : ∃ n, s.contains n = true := by
  obtain ⟨rs, hrs⟩ := s
  cases rs with
  | nil => exact absurd h (by simp [isEmpty])
  | cons r rs =>
    exact ⟨r.first, contains_iff_covers.2 (covers_cons.2 (.inl r.contains_first))⟩

theorem max?_eq_some_iff :
    s.max? = some n ↔ s.contains n = true ∧ ∀ m, s.contains m = true → m ≤ n := by
  simp only [contains_iff_covers]
  rw [max?, Option.map_eq_some_iff]
  constructor
  · rintro ⟨r, hr, rfl⟩
    exact getLast?_covers s.apart hr
  · rintro ⟨hn, hgreatest⟩
    obtain ⟨r, hr⟩ : ∃ r, s.ranges.getLast? = some r := by
      refine Option.isSome_iff_exists.1 (List.getLast?_isSome.2 fun hnil => ?_)
      exact covers_nil n (hnil ▸ hn)
    obtain ⟨hlast, hle⟩ := getLast?_covers s.apart hr
    exact ⟨r, hr, UInt64.le_antisymm (hgreatest _ hlast) (hle n hn)⟩

theorem max?_eq_none_iff : s.max? = none ↔ ∀ n, s.contains n = false := by
  constructor
  · intro h n
    refine Bool.eq_false_iff.2 fun hn => ?_
    have hranges : s.ranges = [] := by simpa [max?] using h
    exact covers_nil n (hranges ▸ contains_iff_covers.1 hn)
  · intro h
    cases hmax : s.max? with
    | none => rfl
    | some n => exact absurd (max?_eq_some_iff.1 hmax).1 (by simp [h])

end IdSet

namespace PositionSet

/-- The sets of positions that the operations give. -/
inductive Built : PositionSet → Prop
  | empty : Built empty
  | single (source : String) (a b : UInt64) : Built (single source a b)
  | parsed {text : String} {s : PositionSet} (reads : parse text = .ok s) : Built s
  | union {s t : PositionSet} : Built s → Built t → Built (s.union t)
  | subtract {s t : PositionSet} : Built s → Built t → Built (s.subtract t)
  | insert {s : PositionSet} (p : Position) : Built s → Built (s.insert p)

def IsFilled (s : PositionSet) : Prop :=
  ∀ source ids, s.ids? source = some ids → ids.isEmpty = false

theorem isFilled_ofMap (m : TextMap IdSet) : (ofMap m).IsFilled := by
  intro source ids hids
  have hget : (ofMap m).ids? source =
      (m.get? source).bind fun ids => if ids.isEmpty then none else some ids :=
    TextMap.get?_filterMap _ _ _
  rw [hget, Option.bind_eq_some_iff] at hids
  obtain ⟨own, -, hown⟩ := hids
  cases hempty : own.isEmpty with
  | true => simp [hempty] at hown
  | false =>
    simp only [hempty, Bool.false_eq_true, if_false, Option.some.injEq] at hown
    exact hown ▸ hempty

theorem isFilled_single (source : String) (a b : UInt64) : (single source a b).IsFilled := by
  intro source' ids hids
  have hget : (single source a b).ids? source' =
      if source' = source then some (.ofRanges [.between a b]) else none :=
    TextMap.get?_insert _ _ _ _
  rw [hget] at hids
  split at hids
  · obtain rfl := Option.some.inj hids
    refine Bool.eq_false_iff.2 fun hempty => ?_
    have hfirst := (IdRange.between a b).contains_first
    exact IdSet.contains_of_isEmpty hempty (IdRange.between a b).first
      (IdSet.contains_ofRanges.2 ⟨_, List.mem_singleton_self _, hfirst⟩)
  · exact absurd hids (by simp)

@[simp] theorem contains_empty (p : Position) : PositionSet.empty.contains p = false := rfl

theorem parse_eq_ok_iff {text : String} {s : PositionSet} : parse text = .ok s ↔
    ∃ es, (entriesOf text.toList).mapM parseEntry = .ok es ∧ ofEntries es = s := by
  rw [parse]
  cases (entriesOf text.toList).mapM parseEntry <;> simp [Except.map]

variable {s t u : PositionSet}

/-- No operation keeps a source without ids. -/
theorem Built.isFilled (h : s.Built) : s.IsFilled := by
  cases h with
  | empty => exact fun source ids hids => absurd hids (by simp [ids?, PositionSet.empty])
  | single source a b => exact isFilled_single source a b
  | parsed reads =>
    obtain ⟨es, -, rfl⟩ := parse_eq_ok_iff.1 reads
    exact isFilled_ofMap _
  | union | subtract | insert => exact isFilled_ofMap _

namespace IsFilled

theorem exists_contains_iff (hs : s.IsFilled) {source : String} :
    (∃ n, s.contains ⟨source, n⟩ = true) ↔ ∃ ids, s.ids? source = some ids := by
  constructor
  · rintro ⟨n, hn⟩
    obtain ⟨ids, hids, -⟩ := contains_iff.1 hn
    exact ⟨ids, hids⟩
  · rintro ⟨ids, hids⟩
    obtain ⟨n, hn⟩ := IdSet.exists_contains (hs source ids hids)
    exact ⟨n, contains_iff.2 ⟨ids, hids, hn⟩⟩

theorem eq_iff (hs : s.IsFilled) (ht : t.IsFilled) :
    s = t ↔ ∀ p, s.contains p = t.contains p := by
  constructor
  · rintro rfl p
    rfl
  · intro h
    have hids (source : String) : s.ids? source = t.ids? source := by
      have hsome : (∃ ids, s.ids? source = some ids) ↔ ∃ ids, t.ids? source = some ids := by
        rw [← hs.exists_contains_iff, ← ht.exists_contains_iff]
        exact exists_congr fun n => by rw [h]
      cases hsids : s.ids? source with
      | none =>
        cases htids : t.ids? source with
        | none => rfl
        | some ids => exact absurd (hsome.2 ⟨ids, htids⟩) (by simp [hsids])
      | some ids =>
        obtain ⟨ids', htids⟩ := hsome.1 ⟨ids, hsids⟩
        rw [htids]
        refine congrArg some (IdSet.eq_of_contains fun n => ?_)
        have hn := h ⟨source, n⟩
        rwa [contains, contains, hsids, htids] at hn
    have hmap : s.bySource = t.bySource := TextMap.eq_of_get? hids
    cases s
    cases t
    exact congrArg _ hmap

theorem isEmpty_iff (hs : s.IsFilled) : s.isEmpty = true ↔ ∀ p, s.contains p = false := by
  refine ⟨contains_of_isEmpty, fun h => ?_⟩
  obtain rfl : s = PositionSet.empty :=
    (hs.eq_iff Built.empty.isFilled).2 fun p => (h p).trans (contains_empty p).symm
  rfl

/-- The sources of a set are those of its positions. -/
theorem mem_sources_iff (hs : s.IsFilled) {source : String} :
    source ∈ s.sources ↔ ∃ n, s.contains ⟨source, n⟩ = true := by
  rw [hs.exists_contains_iff]
  exact TextMap.mem_keys

theorem encard_sources (hs : s.IsFilled) :
    {source | ∃ n, s.contains ⟨source, n⟩ = true}.encard = s.sourceCount := by
  have hsources : {source | ∃ n, s.contains ⟨source, n⟩ = true} = s.sources.toFinset := by
    ext source
    simp [hs.mem_sources_iff]
  have hcount : s.sources.length = s.sourceCount := List.length_map ..
  have hnodup : s.sources.Nodup := TextMap.nodup_keys s.bySource
  rw [hsources, Set.encard_coe_eq_coe_finsetCard, List.toFinset_card_of_nodup hnodup, hcount]

end IsFilled

theorem isEmpty_subtract_self (s : PositionSet) : (s.subtract s).isEmpty = true := by
  refine (isFilled_ofMap _).isEmpty_iff.2 fun p => Bool.eq_false_iff.2 fun h => ?_
  obtain ⟨hs, hnot⟩ := contains_subtract.1 h
  exact hnot hs

theorem max?_eq_some_iff {source : String} {n : UInt64} : s.max? source = some n ↔
    s.contains ⟨source, n⟩ = true ∧ ∀ m, s.contains ⟨source, m⟩ = true → m ≤ n := by
  simp only [max?, contains]
  cases s.ids? source with
  | none => simp
  | some ids => simpa using IdSet.max?_eq_some_iff

theorem max?_eq_none_iff {source : String} :
    s.max? source = none ↔ ∀ n, s.contains ⟨source, n⟩ = false := by
  simp only [max?, contains]
  cases s.ids? source with
  | none => simp
  | some ids => simpa using IdSet.max?_eq_none_iff

/-- Sets of positions, whatever operations gave them, have one form. Each source has ranges that
ascend with at least one missing id between them, so that sets are equal if they have the same
positions. Hence a union does not depend on order or repetition, nothing is left of a set that is
taken away from itself, and what a set tells about itself is what can be told of its positions. -/
theorem Built.canonical (hs : s.Built) (ht : t.Built) (hu : u.Built) :
    (∀ source ids, s.ids? source = some ids → ids.ranges ≠ [] ∧
      (∀ r ∈ ids.ranges, r.first ≤ r.last) ∧
      ids.ranges.Pairwise fun r r' => r.last.toNat + 1 < r'.first.toNat) ∧
    (s = t ↔ ∀ p, s.contains p = t.contains p) ∧
    s.union t = t.union s ∧ (s.union t).union u = s.union (t.union u) ∧ s.union s = s ∧
    s.subtract s = .empty ∧
    (s.isEmpty = true ↔ ∀ p, s.contains p = false) ∧
    {source | ∃ n, s.contains ⟨source, n⟩ = true}.encard = s.sourceCount ∧
    ∀ source,
      (s.max? source = none ↔ ∀ n, s.contains ⟨source, n⟩ = false) ∧
      ∀ n, s.max? source = some n ↔
        s.contains ⟨source, n⟩ = true ∧ ∀ m, s.contains ⟨source, m⟩ = true → m ≤ n := by
  have hfilled := hs.isFilled
  have heq {v w : PositionSet} (hv : v.Built) (hw : w.Built)
      (h : ∀ p, v.contains p = true ↔ w.contains p = true) : v = w :=
    (hv.isFilled.eq_iff hw.isFilled).2 fun p => Bool.eq_iff_iff.2 (h p)
  refine ⟨fun source ids hids => ⟨?_, fun r _ => r.ascending, ids.apart⟩,
    hfilled.eq_iff ht.isFilled, ?_, ?_, ?_, ?_, hfilled.isEmpty_iff, hfilled.encard_sources,
    fun source => ⟨max?_eq_none_iff, fun n => max?_eq_some_iff⟩⟩
  · intro hnil
    exact absurd (hfilled source ids hids) (by simp [IdSet.isEmpty, hnil])
  · refine heq (hs.union ht) (ht.union hs) fun p => ?_
    rw [contains_union, contains_union, or_comm]
  · refine heq ((hs.union ht).union hu) (hs.union (ht.union hu)) fun p => ?_
    rw [contains_union, contains_union, contains_union, contains_union, or_assoc]
  · refine heq (hs.union hs) hs fun p => ?_
    rw [contains_union, or_self]
  · refine heq (hs.subtract hs) .empty fun p => ?_
    rw [contains_subtract, contains_empty]
    simp

def listed : PositionSet := ((single "b" 9 7).insert ⟨"b", 12⟩).insert ⟨"a", 3⟩

def distant : PositionSet := (single "b" IdRange.maxId 0).subtract (single "b" 0 9)

theorem listed_canonical :
    parse "b:7-9:12,a:3" = .ok listed ∧ listed.union distant = distant.union listed ∧
      listed.subtract listed = .empty ∧
      {source | ∃ n, listed.contains ⟨source, n⟩ = true}.encard = 2 ∧
      ∀ m, listed.contains ⟨"b", m⟩ = true → m ≤ 12 := by
  have hparse : parse "b:7-9:12,a:3" = .ok listed := rfl
  have hlisted : listed.Built := .parsed hparse
  have hdistant : distant.Built := (Built.single _ _ _).subtract (.single _ _ _)
  obtain ⟨-, -, hcomm, -, -, hsubtract, -, hsources, hmax⟩ :=
    Built.canonical hlisted hdistant (hlisted.union hdistant)
  have htwelve : listed.max? "b" = some 12 := by decide +kernel
  exact ⟨hparse, hcomm, hsubtract, hsources, (((hmax "b").2 12).1 htwelve).2⟩

end PositionSet
end Backfill
