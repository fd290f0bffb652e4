import Backfill.Proofs.Buffer
import Mathlib.Data.List.DropRight
import Mathlib.Data.Set.Card

/-! A buffer measured against all that was done with it. Under each key that was put in after it was
last removed one row is held, the latest one, in the place that the first one took. -/
namespace Backfill

inductive BufferStep where
  | insert (row : Row)
  /-- The row of a key is superseded. -/
  | deduplicate (k : Key)
  /-- All rows are taken out. -/
  | drain
  | clear

inductive BufferAnswer where
  | nothing
  /-- Whether there was a row to remove. -/
  | removed (found : Bool)
  | rows (taken : List Row)

namespace BufferStep
variable {k : Key} {s : BufferStep} {steps : List BufferStep}

def removes (k : Key) : BufferStep → Bool
  | .insert _ => false
  | .deduplicate l => l = k
  | .drain | .clear => true

def row? (k : Key) : BufferStep → Option Row
  | .insert row => if row.key = k then some row else none
  | _ => none

def sinceRemoval (k : Key) (steps : List BufferStep) : List BufferStep :=
  steps.rtakeWhile fun s => !s.removes k

/-- The rows that were put in under a key after it was last removed. -/
def inserted (k : Key) (steps : List BufferStep) : List Row :=
  (sinceRemoval k steps).filterMap (row? k)

/-- The number of steps before the first of these rows was put in. -/
def place (k : Key) (steps : List BufferStep) : Nat :=
  steps.length - (sinceRemoval k steps).length +
    (sinceRemoval k steps).findIdx fun s => (s.row? k).isSome

theorem row?_of_removes (h : s.removes k = true) : s.row? k = none := by
  cases s with
  | insert row => exact absurd h Bool.false_ne_true
  | _ => rfl

theorem sinceRemoval_concat (k : Key) (steps : List BufferStep) (s : BufferStep) :
    sinceRemoval k (steps ++ [s]) = if s.removes k then [] else sinceRemoval k steps ++ [s] := by
  rw [sinceRemoval, List.rtakeWhile_concat]
  cases s.removes k <;> rfl

theorem inserted_concat_of_removes (h : s.removes k = true) : inserted k (steps ++ [s]) = [] := by
  rw [inserted, sinceRemoval_concat, if_pos h, List.filterMap_nil]

theorem inserted_concat (h : s.removes k = false) :
    inserted k (steps ++ [s]) = inserted k steps ++ (s.row? k).toList := by
  rw [inserted, sinceRemoval_concat, h, if_neg Bool.false_ne_true, List.filterMap_append, inserted]
  cases hrow : s.row? k <;> simp [hrow]

theorem length_sinceRemoval_le (k : Key) (steps : List BufferStep) :
    (sinceRemoval k steps).length ≤ steps.length :=
  List.IsSuffix.length_le (List.rtakeWhile_suffix _ _)

theorem inserted_ne_nil_iff : inserted k steps ≠ [] ↔
    (sinceRemoval k steps).findIdx (fun s => (s.row? k).isSome) < (sinceRemoval k steps).length := by
  rw [List.findIdx_lt_length, inserted, ne_eq, List.filterMap_eq_nil_iff]
  simp only [not_forall, Option.isSome_iff_ne_none, exists_prop]

theorem place_lt (h : inserted k steps ≠ []) : place k steps < steps.length := by
  have hfound := inserted_ne_nil_iff.1 h
  have hle := length_sinceRemoval_le k steps
  rw [place]
  omega

/-- A key that is not removed keeps its place. -/
theorem place_concat (hs : s.removes k = false) (h : inserted k steps ≠ []) :
    place k (steps ++ [s]) = place k steps := by
  have hfound := inserted_ne_nil_iff.1 h
  have hle := length_sinceRemoval_le k steps
  simp only [place, sinceRemoval_concat, hs, Bool.false_eq_true, if_false, List.findIdx_append,
    if_pos hfound, List.length_append, List.length_singleton]
  omega

/-- A key that is put in anew has its place after all that were put in before. -/
theorem place_concat_of_new (hrow : (s.row? k).isSome = true) (h : inserted k steps = []) :
    place k (steps ++ [s]) = steps.length := by
  have hs : s.removes k = false := by
    refine Bool.eq_false_iff.2 fun hremoves => ?_
    rw [row?_of_removes hremoves] at hrow
    cases hrow
  have hle := length_sinceRemoval_le k steps
  have hnone : ¬ (sinceRemoval k steps).findIdx (fun s => (s.row? k).isSome) <
      (sinceRemoval k steps).length := fun hlt => inserted_ne_nil_iff.2 hlt h
  simp only [place, sinceRemoval_concat, hs, Bool.false_eq_true, if_false, List.findIdx_append,
    if_neg hnone, List.length_append, List.length_singleton, List.findIdx_singleton, hrow, if_true]
  omega

end BufferStep

namespace RowBuffer
open BufferStep
variable {b : RowBuffer} {k : Key} {row r : Row} {rs : List Row} {steps : List BufferStep}

def perform (b : RowBuffer) : BufferStep → BufferAnswer × RowBuffer
  | .insert row => (.nothing, b.insert row)
  | .deduplicate k => (.removed (b.holds k), b.erase k)
  | .drain => (.rows b.rows, .empty)
  | .clear => (.nothing, .empty)

def after (steps : List BufferStep) : RowBuffer :=
  steps.foldl (fun b s => (b.perform s).2) .empty

theorem after_concat (steps : List BufferStep) (s : BufferStep) :
    after (steps ++ [s]) = ((after steps).perform s).2 := by
  simp [after]

/-- A new key comes last, and a key that is held stays where it is. -/
theorem keys_insertRow (row : Row) (rs : List Row) : (insertRow row rs).map Row.key =
    if row.key ∈ rs.map Row.key then rs.map Row.key else rs.map Row.key ++ [row.key] := by
  induction rs with
  | nil => rfl
  | cons r rs ih =>
    rw [insertRow]
    by_cases hr : r.key = row.key
    · simp [hr]
    · rw [if_neg hr, List.map_cons, ih]
      by_cases hrs : row.key ∈ rs.map Row.key <;> simp [hrs, Ne.symm hr]

/-- Of the rows with different keys, the one with the key of a row that is put in is replaced. -/
theorem mem_insertRow (h : (rs.map Row.key).Nodup) :
    r ∈ insertRow row rs ↔ r = row ∨ r ∈ rs ∧ r.key ≠ row.key := by
  induction rs with
  | nil => simp [insertRow]
  | cons a rs ih =>
    obtain ⟨ha, hrs⟩ := List.nodup_cons.1 h
    have hne : ∀ r ∈ rs, r.key ≠ a.key := fun r hr he => ha (he ▸ List.mem_map_of_mem hr)
    rw [insertRow]
    by_cases hkey : a.key = row.key
    · rw [if_pos hkey]
      grind
    · rw [if_neg hkey]
      grind

/-- Whether a buffer holds what some steps leave in a new one. -/
structure Reflects (b : RowBuffer) (steps : List BufferStep) : Prop where
  /-- The rows that are held are the latest ones of their keys. -/
  latest : ∀ row, row ∈ b.rows ↔ (inserted row.key steps).getLast? = some row
  /-- They stand in the order in which their keys came. -/
  ordered : (b.rows.map Row.key).Pairwise fun k l => place k steps < place l steps

namespace Reflects

theorem nodup (h : b.Reflects steps) : (b.rows.map Row.key).Nodup :=
  h.ordered.imp fun hlt => by
    rintro rfl
    exact lt_irrefl _ hlt

/-- A key is held if it was put in after it was last removed. -/
theorem mem_keys_iff (h : b.Reflects steps) :
    k ∈ b.rows.map Row.key ↔ inserted k steps ≠ [] := by
  rw [List.mem_map]
  constructor
  · rintro ⟨row, hrow, rfl⟩ hnil
    have hlast := (h.latest row).1 hrow
    rw [hnil] at hlast
    cases hlast
  · intro hne
    obtain ⟨row, hrow⟩ := Option.isSome_iff_exists.1 (List.getLast?_isSome.2 hne)
    obtain ⟨s, -, hs⟩ := List.mem_filterMap.1 (List.mem_of_getLast? hrow)
    have hkey : row.key = k := by
      cases s with
      | insert row' =>
        simp only [row?, Option.ite_none_right_eq_some, Option.some.injEq] at hs
        exact hs.2 ▸ hs.1
      | _ => cases hs
    exact ⟨row, (h.latest row).2 (hkey ▸ hrow), hkey⟩

theorem holds_iff (h : b.Reflects steps) : b.holds k = true ↔ inserted k steps ≠ [] := by
  rw [← h.mem_keys_iff]
  simp [holds]

private theorem empty_of_removes {s : BufferStep} (hs : ∀ k, s.removes k = true) :
    RowBuffer.empty.Reflects (steps ++ [s]) where
  latest row := by simp [RowBuffer.empty, inserted_concat_of_removes (hs row.key)]
  ordered := List.Pairwise.nil

private theorem insert (h : b.Reflects steps) (row : Row) :
    (b.insert row).Reflects (steps ++ [.insert row]) := by
  have hkept (k : Key) : (BufferStep.insert row).removes k = false := rfl
  have hplaces : (b.rows.map Row.key).Pairwise fun k l =>
      place k (steps ++ [.insert row]) < place l (steps ++ [.insert row]) :=
    h.ordered.imp_of_mem fun hk hl hlt => by
      rwa [place_concat (hkept _) (h.mem_keys_iff.1 hk), place_concat (hkept _) (h.mem_keys_iff.1 hl)]
  constructor
  · intro r
    rw [RowBuffer.insert, mem_insertRow h.nodup, h.latest, inserted_concat (hkept _)]
    by_cases hkey : row.key = r.key
    · simp [row?, hkey, eq_comm]
    · have hne : r ≠ row := fun he => hkey (he ▸ rfl)
      simp [row?, hkey, Ne.symm hkey, hne]
  · rw [RowBuffer.insert, keys_insertRow]
    split
    · exact hplaces
    · rename_i hnew
      rw [h.mem_keys_iff, not_not] at hnew
      refine List.pairwise_append.2 ⟨hplaces, List.pairwise_singleton _ _, fun k hk l hl => ?_⟩
      obtain rfl := List.mem_singleton.1 hl
      rw [place_concat (hkept _) (h.mem_keys_iff.1 hk), place_concat_of_new (by simp [row?]) hnew]
      exact place_lt (h.mem_keys_iff.1 hk)

private theorem erase (h : b.Reflects steps) (k : Key) :
    (b.erase k).Reflects (steps ++ [.deduplicate k]) := by
  have hkept {l : Key} (hl : l ≠ k) : (BufferStep.deduplicate k).removes l = false := by
    simp [removes, Ne.symm hl]
  constructor
  · intro r
    rw [RowBuffer.erase, List.mem_filter, h.latest]
    by_cases hkey : r.key = k
    · rw [inserted_concat_of_removes (by simp [removes, hkey])]
      simp [hkey]
    · rw [inserted_concat (hkept hkey)]
      simp [row?, hkey]
  · rw [RowBuffer.erase, List.pairwise_map]
    refine ((List.pairwise_map.1 h.ordered).filter _).imp_of_mem fun {r s} hr hs hlt => ?_
    obtain ⟨hr, hrk⟩ := List.mem_filter.1 hr
    obtain ⟨hs, hsk⟩ := List.mem_filter.1 hs
    rwa [place_concat (hkept (of_decide_eq_true hrk)) (h.mem_keys_iff.1 (List.mem_map_of_mem hr)),
      place_concat (hkept (of_decide_eq_true hsk)) (h.mem_keys_iff.1 (List.mem_map_of_mem hs))]

theorem perform (h : b.Reflects steps) (s : BufferStep) :
    (b.perform s).2.Reflects (steps ++ [s]) := by
  cases s with
  | insert row => exact h.insert row
  | deduplicate k => exact h.erase k
  | drain | clear => exact empty_of_removes fun _ => rfl

end Reflects

theorem reflects_after (steps : List BufferStep) : (after steps).Reflects steps := by
  induction steps using List.reverseRecOn with
  | nil => exact ⟨fun row => by simp [after, empty, inserted, sinceRemoval], List.Pairwise.nil⟩
  | append_singleton steps s ih =>
    rw [after_concat]
    exact ih.perform s

namespace Reflects

/-- The last key is the one that came after all others that are held. -/
theorem lastKey?_eq_some_iff (h : b.Reflects steps) : b.lastKey? = some k ↔
    inserted k steps ≠ [] ∧ ∀ l, inserted l steps ≠ [] → place l steps ≤ place k steps := by
  have hlast : b.lastKey? = (b.rows.map Row.key).getLast? := by
    rw [lastKey?, List.getLast?_map]
  have hbefore {k : Key} (hk : (b.rows.map Row.key).getLast? = some k) :
      ∀ l, inserted l steps ≠ [] → place l steps ≤ place k steps := by
    intro l hl
    obtain ⟨ks, hks⟩ := List.getLast?_eq_some_iff.1 hk
    have hmem := h.mem_keys_iff.2 hl
    have hordered := h.ordered
    rw [hks] at hmem hordered
    rcases List.mem_append.1 hmem with hmem | hmem
    · exact le_of_lt ((List.pairwise_append.1 hordered).2.2 l hmem k List.mem_cons_self)
    · exact le_of_eq (congrArg (place · steps) (List.mem_singleton.1 hmem))
  rw [hlast]
  constructor
  · intro hk
    exact ⟨h.mem_keys_iff.1 (List.mem_of_getLast? hk), hbefore hk⟩
  · rintro ⟨hk, hmax⟩
    have hmem := h.mem_keys_iff.2 hk
    obtain ⟨l, hl⟩ := Option.isSome_iff_exists.1
      (List.getLast?_isSome.2 (List.ne_nil_of_mem hmem))
    obtain ⟨ks, hks⟩ := List.getLast?_eq_some_iff.1 hl
    have hordered := h.ordered
    rw [hks] at hmem hordered
    rcases List.mem_append.1 hmem with hmem | hmem
    · have hlt := (List.pairwise_append.1 hordered).2.2 k hmem l List.mem_cons_self
      have hle := hmax l (h.mem_keys_iff.1 (List.mem_of_getLast? hl))
      omega
    · rw [hl, List.mem_singleton.1 hmem]

theorem encard_keys (h : b.Reflects steps) : {k | inserted k steps ≠ []}.encard = b.size := by
  have hkeys : {k | inserted k steps ≠ []} = (b.rows.map Row.key).toFinset := by
    ext k
    simp only [Set.mem_ofPred_eq, List.coe_toFinset, h.mem_keys_iff]
  rw [hkeys, Set.encard_coe_eq_coe_finsetCard, List.toFinset_card_of_nodup h.nodup, List.length_map,
    size]

end Reflects

/-- Whatever was done with a new buffer, it is an insertion-ordered map of what was put in. Under each
key that was put in after it was last removed it holds one row, the latest one, and these rows stand
in the order in which their keys first came after that. They are what is taken out, a removal tells
whether there was a row and leaves the others in their order, and the last key, the size and the
emptiness of the buffer are those of the rows. -/
theorem after_insertionOrdered (steps : List BufferStep) :
    let b := after steps
    (b.rows.map Row.key).Nodup ∧
    (∀ row, row ∈ b.rows ↔ (inserted row.key steps).getLast? = some row) ∧
    (b.rows.map Row.key).Pairwise (fun k l => place k steps < place l steps) ∧
    b.perform .drain = (.rows b.rows, .empty) ∧
    (∀ k, b.perform (.deduplicate k) =
      (.removed (inserted k steps ≠ []), ⟨b.rows.filter fun row => row.key ≠ k⟩)) ∧
    (∀ k, b.lastKey? = some k ↔
      inserted k steps ≠ [] ∧ ∀ l, inserted l steps ≠ [] → place l steps ≤ place k steps) ∧
    {k | inserted k steps ≠ []}.encard = b.size ∧
    (b.isEmpty = true ↔ ∀ k, inserted k steps = []) := by
  intro b
  have h : b.Reflects steps := reflects_after steps
  refine ⟨h.nodup, h.latest, h.ordered, rfl, fun k => ?_, fun k => h.lastKey?_eq_some_iff,
    h.encard_keys, ?_⟩
  · have hholds : b.holds k = decide (inserted k steps ≠ []) := by
      rw [Bool.eq_iff_iff, decide_eq_true_iff, h.holds_iff]
    rw [perform, hholds, erase]
  · rw [isEmpty, List.isEmpty_iff, ← List.map_eq_nil_iff (f := Row.key),
      List.eq_nil_iff_forall_not_mem]
    simp only [h.mem_keys_iff, not_not]

/-- A key that is put in again keeps its place, unless it was removed before. -/
example :
    let row (n : Int64) : Row := ⟨⟨[.int n]⟩, .null⟩
    ((after [.insert (row 1), .insert (row 2), .insert (row 3), .insert (row 1),
      .deduplicate ⟨[.int 2]⟩, .insert (row 2)]).rows.map Row.key) =
        [⟨[.int 1]⟩, ⟨[.int 3]⟩, ⟨[.int 2]⟩] := by decide

end RowBuffer
end Backfill
