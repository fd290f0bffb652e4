import Backfill.Position.IdRange

/-! Lists of id ranges. Any ranges are made into ascending ones with gaps between them by arranging
them and joining those that meet; the difference of two such lists is found in one pass over both. -/
namespace Backfill.IdRange

/-- Whether some range of a list has an id. -/
def Covers (rs : List IdRange) (n : UInt64) : Prop := ∃ r ∈ rs, r.contains n = true

/-- Whether `r` ends before `s` starts, with at least one id between them. -/
def IsBefore (r s : IdRange) : Prop := r.last.toNat + 1 < s.first.toNat

@[simp] theorem covers_nil (n : UInt64) : ¬ Covers [] n := by
  rintro ⟨r, hr, -⟩
  exact absurd hr List.not_mem_nil

@[simp] theorem covers_cons {r : IdRange} {rs : List IdRange} {n : UInt64} :
    Covers (r :: rs) n ↔ r.contains n = true ∨ Covers rs n := by
  simp [Covers]

@[simp] theorem covers_append {rs ss : List IdRange} {n : UInt64} :
    Covers (rs ++ ss) n ↔ Covers rs n ∨ Covers ss n := by
  simp only [Covers, List.mem_append, or_and_right, exists_or]

theorem covers_congr {rs ss : List IdRange} (h : ∀ r, r ∈ rs ↔ r ∈ ss) (n : UInt64) :
    Covers rs n ↔ Covers ss n := by
  simp only [Covers, h]

/-! ### Making ranges ascend -/

def precedes (r s : IdRange) : Bool := r.first < s.first || r.first = s.first && r.last ≤ s.last

/-- Puts a range in its place among ascending ones. -/
def place (r : IdRange) : List IdRange → List IdRange
  | [] => [r]
  | s :: ss => if r.precedes s then r :: s :: ss else s :: place r ss

/-- Ranges in the order of their first ids, and then of their last ones. -/
def arrange (rs : List IdRange) : List IdRange := rs.foldr place []

/-- Joins ascending ranges that meet or touch; `r` is the range that was begun last. -/
def joinTo (r : IdRange) : List IdRange → List IdRange
  | [] => [r]
  | s :: ss => if s.first ≤ r.reach then joinTo (r.extend s) ss else r :: joinTo s ss

/-- Ranges in ascending order with gaps between them. -/
def normalize (rs : List IdRange) : List IdRange :=
  match arrange rs with
  | [] => []
  | s :: ss => joinTo s ss

theorem mem_place {r x : IdRange} {rs : List IdRange} : x ∈ place r rs ↔ x = r ∨ x ∈ rs := by
  induction rs with
  | nil => simp [place]
  | cons s ss ih =>
    unfold place
    split
    · simp
    · simp only [List.mem_cons, ih]
      exact or_left_comm

theorem mem_arrange {x : IdRange} {rs : List IdRange} : x ∈ arrange rs ↔ x ∈ rs := by
  induction rs with
  | nil => rfl
  | cons r rs ih =>
    rw [List.mem_cons, ← ih]
    exact mem_place

abbrev Ascending (rs : List IdRange) : Prop := rs.Pairwise fun r s => r.first.toNat ≤ s.first.toNat

theorem place_ascending {r : IdRange} {rs : List IdRange} (h : Ascending rs) :
    Ascending (place r rs) := by
  induction rs with
  | nil => simp [place, Ascending]
  | cons s ss ih =>
    obtain ⟨hs, hss⟩ := List.pairwise_cons.1 h
    unfold place
    split
    · rename_i hrs
      simp only [precedes, Bool.or_eq_true, Bool.and_eq_true, decide_eq_true_eq,
        UInt64.lt_iff_toNat_lt, ← UInt64.toNat_inj] at hrs
      refine List.pairwise_cons.2 ⟨fun x hx => ?_, h⟩
      rcases List.mem_cons.1 hx with rfl | hx
      · omega
      · have := hs x hx
        omega
    · rename_i hrs
      simp only [precedes, Bool.or_eq_true, decide_eq_true_eq, UInt64.lt_iff_toNat_lt, not_or] at hrs
      refine List.pairwise_cons.2 ⟨fun x hx => ?_, ih hss⟩
      rcases mem_place.1 hx with rfl | hx
      · omega
      · exact hs x hx

theorem arrange_ascending (rs : List IdRange) : Ascending (arrange rs) := by
  induction rs with
  | nil => exact .nil
  | cons r rs ih => exact place_ascending ih

/-- A range and one that touches it cover what the range that joins them covers. -/
theorem contains_extend {r s : IdRange} (hfirst : r.first.toNat ≤ s.first.toNat)
    (hreach : s.first ≤ r.reach) {n : UInt64} :
    (r.extend s).contains n = true ↔ r.contains n = true ∨ s.contains n = true := by
  have hr := r.toNat_ascending
  have hs := s.toNat_ascending
  rw [le_reach_iff] at hreach
  simp only [contains_iff, extend, UInt64.lt_iff_toNat_lt]
  split <;> omega

theorem covers_joinTo {r : IdRange} {rs : List IdRange} (h : Ascending (r :: rs)) {n : UInt64} :
    Covers (joinTo r rs) n ↔ Covers (r :: rs) n := by
  induction rs generalizing r with
  | nil => rfl
  | cons s ss ih =>
    obtain ⟨hr, hs⟩ := List.pairwise_cons.1 h
    unfold joinTo
    split
    · rename_i hreach
      have hextend : Ascending (r.extend s :: ss) :=
        List.pairwise_cons.2 ⟨fun x hx => hr x (List.mem_cons_of_mem _ hx), hs.of_cons⟩
      rw [ih hextend, covers_cons, contains_extend (hr s List.mem_cons_self) hreach, covers_cons,
        covers_cons, or_assoc]
    · rw [covers_cons, ih hs]
      exact covers_cons.symm

theorem first_le_of_mem_joinTo {r x : IdRange} {rs : List IdRange} (h : Ascending (r :: rs))
    (hx : x ∈ joinTo r rs) : r.first.toNat ≤ x.first.toNat := by
  induction rs generalizing r with
  | nil =>
    obtain rfl := List.mem_singleton.1 hx
    exact Nat.le_refl _
  | cons s ss ih =>
    obtain ⟨hr, hs⟩ := List.pairwise_cons.1 h
    unfold joinTo at hx
    split at hx
    · refine ih (r := r.extend s) ?_ hx
      exact List.pairwise_cons.2 ⟨fun x hx => hr x (List.mem_cons_of_mem _ hx), hs.of_cons⟩
    · rcases List.mem_cons.1 hx with rfl | hx
      · exact Nat.le_refl _
      · exact Nat.le_trans (hr s List.mem_cons_self) (ih hs hx)

theorem joinTo_apart {r : IdRange} {rs : List IdRange} (h : Ascending (r :: rs)) :
    (joinTo r rs).Pairwise IsBefore := by
  induction rs generalizing r with
  | nil => simp [joinTo]
  | cons s ss ih =>
    obtain ⟨hr, hs⟩ := List.pairwise_cons.1 h
    unfold joinTo
    split
    · refine ih ?_
      exact List.pairwise_cons.2 ⟨fun x hx => hr x (List.mem_cons_of_mem _ hx), hs.of_cons⟩
    · rename_i hreach
      rw [le_reach_iff] at hreach
      refine List.pairwise_cons.2 ⟨fun x hx => ?_, ih hs⟩
      have hx := first_le_of_mem_joinTo hs hx
      change r.last.toNat + 1 < x.first.toNat
      omega

theorem normalize_apart (rs : List IdRange) : (normalize rs).Pairwise IsBefore := by
  have h := arrange_ascending rs
  unfold normalize
  split
  · exact .nil
  · rename_i heq
    exact joinTo_apart (heq ▸ h)

/-- Joined ranges cover what the given ones cover. -/
theorem covers_normalize {rs : List IdRange} {n : UInt64} :
    Covers (normalize rs) n ↔ Covers rs n := by
  have h := arrange_ascending rs
  rw [← covers_congr fun x => (mem_arrange : x ∈ arrange rs ↔ x ∈ rs)]
  unfold normalize
  split
  · rename_i heq
    rw [heq]
  · rename_i heq
    rw [heq] at h ⊢
    exact covers_joinTo h

/-! ### Taking ranges away -/

/-- The ids from `first` up to a cut, if there are any. There is no answer if a step leaves the
ids. -/
def upTo? (first : UInt64) (cut : IdRange) : Option (List IdRange) :=
  if first < cut.first then (idBefore? cut.first).map fun last => [between first last]
  else some []

/-- The ids from `first` to `last` outside ascending cuts, of which none ends before `first`. -/
def carve? (first last : UInt64) : List IdRange → Option (List IdRange)
  | [] => some [between first last]
  | cut :: cuts =>
    if last < cut.first then some [between first last]
    else do
      let before ← upTo? first cut
      if last ≤ cut.last then some before
      else do
        let next ← idAfter? cut.last
        let after ← carve? next last cuts
        some (before ++ after)

/-- The ids of ascending ranges outside ascending cuts. A cut that ends before one of the ranges
ends before all that follow, so it is left behind for good. -/
def sweep? : List IdRange → List IdRange → Option (List IdRange)
  | [], _ => some []
  | r :: rs, cuts => do
    let ahead := cuts.dropWhile fun cut => cut.last < r.first
    let parts ← carve? r.first r.last ahead
    let others ← sweep? rs ahead
    some (parts ++ others)

/-- Whether parts are what cuts leave of the ids from `first` to `last`. -/
structure Leaves (first last : UInt64) (cuts parts : List IdRange) : Prop where
  apart : parts.Pairwise IsBefore
  within : ∀ p ∈ parts, first.toNat ≤ p.first.toNat ∧ p.last.toNat ≤ last.toNat
  covers : ∀ n, Covers parts n ↔
    (first.toNat ≤ n.toNat ∧ n.toNat ≤ last.toNat) ∧ ¬ Covers cuts n

private theorem leaves_all {first last : UInt64} {cuts : List IdRange} (h : first ≤ last)
    (hcuts : ∀ cut ∈ cuts, last.toNat < cut.first.toNat) :
    Leaves first last cuts [between first last] := by
  rw [between_of_le h]
  refine ⟨List.pairwise_singleton _ _, fun p hp => ?_, fun n => ?_⟩
  · obtain rfl := List.mem_singleton.1 hp
    exact ⟨Nat.le_refl _, Nat.le_refl _⟩
  · simp only [covers_cons, covers_nil, or_false, contains_iff]
    refine (and_iff_left_of_imp ?_).symm
    rintro ⟨-, hn⟩ ⟨cut, hcut, hcontains⟩
    have hlt := hcuts cut hcut
    have hle := (contains_iff.1 hcontains).1
    omega

/-- Whether parts are the ids from `first` up to a cut. -/
private structure EndsAt (first : UInt64) (cut : IdRange) (before : List IdRange) : Prop where
  apart : before.Pairwise IsBefore
  within : ∀ p ∈ before, first.toNat ≤ p.first.toNat ∧ p.last.toNat < cut.first.toNat
  covers : ∀ n, Covers before n ↔ first.toNat ≤ n.toNat ∧ n.toNat < cut.first.toNat

private theorem exists_upTo? (first : UInt64) (cut : IdRange) :
    ∃ before, upTo? first cut = some before ∧ EndsAt first cut before := by
  unfold upTo?
  split
  · rename_i h
    obtain ⟨k, hk, hnat⟩ := idBefore?_of_lt h
    rw [UInt64.lt_iff_toNat_lt] at h
    have hle : first ≤ k := UInt64.le_iff_toNat_le.2 (by omega)
    refine ⟨[between first k], by rw [hk, Option.map_some], ?_⟩
    rw [between_of_le hle]
    refine ⟨List.pairwise_singleton _ _, fun p hp => ?_, fun n => ?_⟩
    · obtain rfl := List.mem_singleton.1 hp
      exact ⟨Nat.le_refl _, by simp only; omega⟩
    · simp only [covers_cons, covers_nil, or_false, contains_iff]
      omega
  · rename_i h
    rw [UInt64.lt_iff_toNat_lt] at h
    refine ⟨[], rfl, .nil, List.forall_mem_nil _, fun n => ?_⟩
    simp only [covers_nil, false_iff]
    omega

section Cut
variable {first last : UInt64} {cut : IdRange} {cuts before after : List IdRange}

theorem not_covers_of_le_last (hcuts : (cut :: cuts).Pairwise IsBefore) {n : UInt64}
    (hn : n.toNat ≤ cut.last.toNat) : ¬ Covers cuts n := by
  rintro ⟨c, hc, hcontains⟩
  have hlater : cut.last.toNat + 1 < c.first.toNat := (List.pairwise_cons.1 hcuts).1 c hc
  have hle := (contains_iff.1 hcontains).1
  omega

/-- A cut up to the last id or behind it leaves what is before the cut. -/
private theorem EndsAt.leaves (h : EndsAt first cut before) (hcuts : (cut :: cuts).Pairwise IsBefore)
    (hreaches : cut.first.toNat ≤ last.toNat) (hends : last.toNat ≤ cut.last.toNat) :
    Leaves first last (cut :: cuts) before := by
  refine ⟨h.apart, fun p hp => ?_, fun n => ?_⟩
  · have := h.within p hp
    omega
  · rw [h.covers, covers_cons, contains_iff]
    constructor
    · rintro ⟨hfirst, hlt⟩
      have hlater := not_covers_of_le_last hcuts (n := n) (by omega)
      exact ⟨by omega, not_or.2 ⟨by omega, hlater⟩⟩
    · rintro ⟨hn, hnot⟩
      have := (not_or.1 hnot).1
      omega

/-- Behind a cut that ends before the last id, what is left begins again. -/
private theorem EndsAt.leaves_append (h : EndsAt first cut before)
    (hcuts : (cut :: cuts).Pairwise IsBefore) (hbegins : first.toNat ≤ cut.last.toNat)
    (hpasses : cut.last.toNat < last.toNat) {next : UInt64} (hnext : next.toNat = cut.last.toNat + 1)
    (hafter : Leaves next last cuts after) : Leaves first last (cut :: cuts) (before ++ after) := by
  have hcut := cut.toNat_ascending
  refine ⟨?_, fun p hp => ?_, fun n => ?_⟩
  · refine List.pairwise_append.2 ⟨h.apart, hafter.apart, fun p hp q hq => ?_⟩
    have hp := h.within p hp
    have hq := hafter.within q hq
    change p.last.toNat + 1 < q.first.toNat
    omega
  · rcases List.mem_append.1 hp with hp | hp
    · have := h.within p hp
      omega
    · have := hafter.within p hp
      omega
  · rw [covers_append, h.covers, hafter.covers, covers_cons, contains_iff]
    constructor
    · rintro (⟨hfirst, hn⟩ | ⟨hn, hnot⟩)
      · have hlater := not_covers_of_le_last hcuts (n := n) (by omega)
        exact ⟨by omega, not_or.2 ⟨by omega, hlater⟩⟩
      · exact ⟨by omega, not_or.2 ⟨by omega, hnot⟩⟩
    · rintro ⟨hn, hnot⟩
      obtain ⟨hcutn, hrestn⟩ := not_or.1 hnot
      rcases Nat.lt_or_ge n.toNat cut.first.toNat with hlt | hge
      · exact .inl ⟨hn.1, hlt⟩
      · exact .inr ⟨by omega, hrestn⟩

end Cut

/-- Taking cuts away from one range always has an answer, and it is what they leave. -/
theorem exists_carve? {first last : UInt64} {cuts : List IdRange} (h : first ≤ last)
    (hcuts : cuts.Pairwise IsBefore) (hends : ∀ cut ∈ cuts, first.toNat ≤ cut.last.toNat) :
    ∃ parts, carve? first last cuts = some parts ∧ Leaves first last cuts parts := by
  induction cuts generalizing first with
  | nil => exact ⟨_, rfl, leaves_all h (List.forall_mem_nil _)⟩
  | cons cut cuts ih =>
    have hlater (c : IdRange) (hc : c ∈ cuts) : cut.last.toNat + 1 < c.first.toNat :=
      (List.pairwise_cons.1 hcuts).1 c hc
    have hcut := cut.toNat_ascending
    unfold carve?
    split
    · rename_i hlt
      rw [UInt64.lt_iff_toNat_lt] at hlt
      refine ⟨_, rfl, leaves_all h fun c hc => ?_⟩
      rcases List.mem_cons.1 hc with rfl | hc
      · exact hlt
      · have := hlater c hc
        omega
    · rename_i hreaches
      have hreaches := UInt64.le_iff_toNat_le.1 (UInt64.not_lt.1 hreaches)
      obtain ⟨before, hbefore, hendsAt⟩ := exists_upTo? first cut
      simp only [hbefore, Option.bind_eq_bind, Option.bind_some]
      split
      · rename_i hcutEnds
        exact ⟨before, rfl, hendsAt.leaves hcuts hreaches (UInt64.le_iff_toNat_le.1 hcutEnds)⟩
      · rename_i hpasses
        have hpasses : cut.last < last := UInt64.not_le.1 hpasses
        obtain ⟨next, hnext, hnat⟩ := idAfter?_of_lt hpasses
        rw [UInt64.lt_iff_toNat_lt] at hpasses
        have hle : next ≤ last := UInt64.le_iff_toNat_le.2 (by omega)
        obtain ⟨after, hafter, hleaves⟩ := ih hle hcuts.of_cons fun c hc => by
          have hfirst := hlater c hc
          have hc := c.toNat_ascending
          omega
        simp only [hnext, hafter, Option.bind_some]
        exact ⟨before ++ after, rfl,
          hendsAt.leaves_append hcuts (hends cut List.mem_cons_self) hpasses hnat hleaves⟩

/-- The cuts that are not left behind end at `n` or later. -/
theorem le_last_of_mem_ahead {n : UInt64} {cuts : List IdRange} (h : cuts.Pairwise IsBefore) :
    ∀ cut ∈ cuts.dropWhile fun cut => cut.last < n, n.toNat ≤ cut.last.toNat := by
  induction cuts with
  | nil => exact List.forall_mem_nil _
  | cons cut cuts ih =>
    obtain ⟨hcut, hrest⟩ := List.pairwise_cons.1 h
    rw [List.dropWhile_cons]
    split
    · exact ih hrest
    · rename_i hlt
      simp only [decide_eq_true_eq, UInt64.lt_iff_toNat_lt] at hlt
      intro c hc
      rcases List.mem_cons.1 hc with rfl | hc
      · omega
      · have hfirst : cut.last.toNat + 1 < c.first.toNat := hcut c hc
        have hc := c.toNat_ascending
        omega

/-- The cuts that are left behind have none of the ids to come. -/
theorem covers_ahead {first n : UInt64} {cuts : List IdRange} (h : first.toNat ≤ n.toNat) :
    Covers (cuts.dropWhile fun cut => cut.last < first) n ↔ Covers cuts n := by
  induction cuts with
  | nil => rfl
  | cons cut cuts ih =>
    rw [List.dropWhile_cons]
    split
    · rename_i hlt
      simp only [decide_eq_true_eq, UInt64.lt_iff_toNat_lt] at hlt
      rw [ih, covers_cons, contains_iff]
      exact (or_iff_right (by omega)).symm
    · rfl

/-- Taking ranges away always has an answer: no step leaves the ids. It has gaps between its ranges
and covers what the ranges cover and the cuts do not. -/
theorem exists_sweep? {rs cuts : List IdRange} (hrs : rs.Pairwise IsBefore)
    (hcuts : cuts.Pairwise IsBefore) : ∃ parts, sweep? rs cuts = some parts ∧
      parts.Pairwise IsBefore ∧
      (∀ p ∈ parts, ∃ r ∈ rs, r.first.toNat ≤ p.first.toNat ∧ p.last.toNat ≤ r.last.toNat) ∧
      ∀ n, Covers parts n ↔ Covers rs n ∧ ¬ Covers cuts n := by
  induction rs generalizing cuts with
  | nil => exact ⟨[], rfl, .nil, List.forall_mem_nil _, by simp⟩
  | cons r rs ih =>
    obtain ⟨hr, hrest⟩ := List.pairwise_cons.1 hrs
    have hlater (s : IdRange) (hs : s ∈ rs) : r.last.toNat + 1 < s.first.toNat := hr s hs
    have hrAscends := r.toNat_ascending
    have hahead := hcuts.sublist (List.dropWhile_sublist fun cut => cut.last < r.first)
    obtain ⟨parts, hparts, hleaves⟩ := exists_carve? r.ascending hahead (le_last_of_mem_ahead hcuts)
    obtain ⟨others, hothers, hapart, hwithin, hcovers⟩ := ih hrest hahead
    refine ⟨parts ++ others, ?_, ?_, fun p hp => ?_, fun n => ?_⟩
    · simp only [sweep?, hparts, hothers, Option.bind_eq_bind, Option.bind_some]
    · refine List.pairwise_append.2 ⟨hleaves.apart, hapart, fun p hp q hq => ?_⟩
      obtain ⟨s, hs, hqs, -⟩ := hwithin q hq
      have hp := (hleaves.within p hp).2
      have hrs := hlater s hs
      change p.last.toNat + 1 < q.first.toNat
      omega
    · rcases List.mem_append.1 hp with hp | hp
      · exact ⟨r, List.mem_cons_self, hleaves.within p hp⟩
      · obtain ⟨s, hs, hps⟩ := hwithin p hp
        exact ⟨s, List.mem_cons_of_mem _ hs, hps⟩
    · have hbegun (hn : Covers (r :: rs) n) : r.first.toNat ≤ n.toNat := by
        obtain ⟨s, hs, hsn⟩ := hn
        have hle := (contains_iff.1 hsn).1
        rcases List.mem_cons.1 hs with rfl | hs
        · exact hle
        · have hrs := hlater s hs
          omega
      rw [covers_append, hleaves.covers, hcovers, ← contains_iff, ← or_and_right, ← covers_cons]
      exact and_congr_right fun hn => not_congr (covers_ahead (hbegun hn))

end Backfill.IdRange
