import Backfill.Text.Numeral

/-! Inclusive ranges of transaction ids. -/
namespace Backfill

/-- The transaction ids from `first` to `last`, both included. -/
structure IdRange where
  first : UInt64
  last : UInt64
  ascending : first ≤ last
deriving DecidableEq, Repr

namespace IdRange

/-- The ids between two ids, given in either order. -/
def between (a b : UInt64) : IdRange :=
  if h : a ≤ b then ⟨a, b, h⟩ else ⟨b, a, UInt64.le_of_lt (UInt64.not_le.1 h)⟩

def single (n : UInt64) : IdRange := ⟨n, n, UInt64.le_refl n⟩

def contains (r : IdRange) (n : UInt64) : Bool := r.first ≤ n && n ≤ r.last

def maxId : UInt64 := 0xFFFFFFFFFFFFFFFF

/-- The id before `n`; there is none before zero. -/
def idBefore? (n : UInt64) : Option UInt64 := if n = 0 then none else some (n - 1)

/-- The id after `n`; there is none after the largest one. -/
def idAfter? (n : UInt64) : Option UInt64 := if n = maxId then none else some (n + 1)

/-- The largest id at which a range may start to touch `r`. -/
def reach (r : IdRange) : UInt64 := (idAfter? r.last).getD r.last

/-- The range from the start of `r` to the end of `r` or of `s`, whichever is later. -/
def extend (r s : IdRange) : IdRange where
  first := r.first
  last := if r.last < s.last then s.last else r.last
  ascending := by
    split
    · rename_i h
      exact UInt64.le_trans r.ascending (UInt64.le_of_lt h)
    · exact r.ascending

/-- A range is written `first-last`, and a range of one id as that id. -/
def chars (r : IdRange) : List Char :=
  if r.first = r.last then Text.numeral r.first.toNat
  else Text.numeral r.first.toNat ++ '-' :: Text.numeral r.last.toNat

def text (r : IdRange) : String := String.ofList r.chars

theorem toNat_ascending (r : IdRange) : r.first.toNat ≤ r.last.toNat :=
  UInt64.le_iff_toNat_le.1 r.ascending

theorem contains_iff {r : IdRange} {n : UInt64} :
    r.contains n = true ↔ r.first.toNat ≤ n.toNat ∧ n.toNat ≤ r.last.toNat := by
  simp [contains, UInt64.le_iff_toNat_le]

theorem between_of_le {a b : UInt64} (h : a ≤ b) : between a b = ⟨a, b, h⟩ := dif_pos h

theorem toNat_le_maxId (n : UInt64) : n.toNat ≤ maxId.toNat := by
  have hn := n.toNat_lt
  change n.toNat ≤ 2 ^ 64 - 1
  omega

theorem toNat_succ {n : UInt64} (h : n ≠ maxId) : (n + 1).toNat = n.toNat + 1 := by
  have hle := toNat_le_maxId n
  have hne : n.toNat ≠ maxId.toNat := fun he => h (UInt64.toNat_inj.1 he)
  have hmax : maxId.toNat = 2 ^ 64 - 1 := rfl
  rw [UInt64.toNat_add, UInt64.toNat_one]
  omega

theorem idBefore?_of_lt {m n : UInt64} (h : m < n) :
    ∃ k, idBefore? n = some k ∧ k.toNat + 1 = n.toNat := by
  rw [UInt64.lt_iff_toNat_lt] at h
  have hn : n ≠ 0 := by
    rintro rfl
    exact absurd h (Nat.not_lt_zero _)
  have hone : (1 : UInt64) ≤ n := by
    rw [UInt64.le_iff_toNat_le, UInt64.toNat_one]
    omega
  refine ⟨n - 1, if_neg hn, ?_⟩
  rw [UInt64.toNat_sub_of_le n 1 hone, UInt64.toNat_one]
  omega

theorem idAfter?_of_lt {m n : UInt64} (h : n < m) :
    ∃ k, idAfter? n = some k ∧ k.toNat = n.toNat + 1 := by
  rw [UInt64.lt_iff_toNat_lt] at h
  have hm := toNat_le_maxId m
  have hn : n ≠ maxId := by
    rintro rfl
    exact absurd h (Nat.not_lt.2 hm)
  exact ⟨n + 1, if_neg hn, toNat_succ hn⟩

/-- What starts at the reach of `r` or before leaves no id between `r` and itself. -/
theorem le_reach_iff {r : IdRange} {n : UInt64} : n ≤ r.reach ↔ n.toNat ≤ r.last.toNat + 1 := by
  rw [UInt64.le_iff_toNat_le, reach, idAfter?]
  split
  · rename_i h
    have hn := toNat_le_maxId n
    rw [Option.getD_none, h]
    omega
  · rename_i h
    rw [Option.getD_some, toNat_succ h]

end IdRange
end Backfill
