import Backfill.Row.Key
import Mathlib.Order.Defs.LinearOrder

/-! Keys are linearly ordered: column values by their kinds and within a kind, keys column by
column. -/
namespace Backfill

namespace KeyPart

private theorem compareBytes_eq (as bs : List UInt8) :
    compareBytes as bs = List.compareLex Ord.compare as bs := by
  induction as generalizing bs with
  | nil => cases bs <;> rfl
  | cons a as ih =>
    cases bs with
    | nil => rfl
    | cons b bs => rw [compareBytes, ih, List.compareLex_cons_cons]

theorem compare_swap (a b : KeyPart) : a.compare b = (b.compare a).swap := by
  cases a <;> cases b <;>
    simp only [KeyPart.compare, compareBytes_eq, rank] <;> exact Std.OrientedCmp.eq_swap

instance : Std.OrientedCmp KeyPart.compare where
  eq_swap := compare_swap _ _

instance : Std.TransCmp KeyPart.compare where
  isLE_trans {a b c} hab hbc := by
    cases a <;> cases b <;> cases c <;>
      simp only [KeyPart.compare, compareBytes_eq, rank] at hab hbc ⊢ <;>
      first | exact Std.TransCmp.isLE_trans hab hbc | rfl | contradiction

instance : Std.LawfulEqCmp KeyPart.compare where
  compare_self {a} := by
    cases a <;> simp only [KeyPart.compare, compareBytes_eq] <;> exact Std.ReflCmp.compare_self
  eq_of_compare {a b} h := by
    cases a <;> cases b <;> simp only [KeyPart.compare, compareBytes_eq, rank] at h <;>
      first | rfl | exact congrArg _ (Std.LawfulEqCmp.eq_of_compare h) | contradiction

instance : Std.TransOrd KeyPart := inferInstanceAs (Std.TransCmp KeyPart.compare)
instance : Std.LawfulEqOrd KeyPart := inferInstanceAs (Std.LawfulEqCmp KeyPart.compare)

end KeyPart

namespace Key

private theorem compareParts_eq (as bs : List KeyPart) : compareParts as bs = Ord.compare as bs := by
  induction as generalizing bs with
  | nil => cases bs <;> rfl
  | cons a as ih =>
    cases bs with
    | nil => rfl
    | cons b bs =>
      rw [compareParts, ih]
      exact List.compareLex_cons_cons.symm

theorem compare_eq (a b : Key) : Ord.compare a b = Ord.compare a.parts b.parts :=
  compareParts_eq a.parts b.parts

theorem lt_iff {a b : Key} : a < b ↔ Ord.compare a.parts b.parts = .lt := by
  rw [← compare_eq]
  rfl

theorem le_iff {a b : Key} : a ≤ b ↔ (Ord.compare a.parts b.parts).isLE = true := by
  rw [← compare_eq]
  rfl

instance : LinearOrder Key where
  le_refl a := le_iff.2 Std.ReflCmp.isLE_rfl
  le_trans a b c hab hbc := le_iff.2 (Std.TransCmp.isLE_trans (le_iff.1 hab) (le_iff.1 hbc))
  lt_iff_le_not_ge a b := by
    have hswap : Ord.compare b.parts a.parts = (Ord.compare a.parts b.parts).swap :=
      Std.OrientedCmp.eq_swap
    rw [lt_iff, le_iff, le_iff, hswap]
    cases Ord.compare a.parts b.parts <;> simp
  le_antisymm a b hab hba := by
    have hparts := Std.LawfulEqCmp.eq_of_compare
      (Std.OrientedCmp.isLE_antisymm (le_iff.1 hab) (le_iff.1 hba))
    exact congrArg Key.mk hparts
  le_total a b := by
    have hswap : Ord.compare b.parts a.parts = (Ord.compare a.parts b.parts).swap :=
      Std.OrientedCmp.eq_swap
    rw [le_iff, le_iff, hswap]
    cases Ord.compare a.parts b.parts <;> simp
  toDecidableLE a b := inferInstanceAs (Decidable ((Ord.compare a b).isLE = true))
  toDecidableLT a b := inferInstanceAs (Decidable (Ord.compare a b = .lt))
  compare_eq_compareOfLessAndEq a b := by
    refine (compare_eq a b).trans ?_
    unfold compareOfLessAndEq
    cases h : Ord.compare a.parts b.parts with
    | lt => rw [if_pos (lt_iff.2 h)]
    | eq =>
      have hparts := Std.LawfulEqCmp.eq_of_compare h
      have hne : ¬ a < b := fun hlt => by simp [lt_iff.1 hlt] at h
      rw [if_neg hne, if_pos (congrArg Key.mk hparts)]
    | gt =>
      have hne : ¬ a < b := fun hlt => by simp [lt_iff.1 hlt] at h
      have hdiff : a ≠ b := by
        rintro rfl
        simp at h
      rw [if_neg hne, if_neg hdiff]

end Key
end Backfill
