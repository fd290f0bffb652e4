import Backfill.Number.Binary64
import Backfill.Text.Numeral

/-! The shortest decimal of a binary number: of the decimals that round to the number, those with
the fewest digits, and of these the nearest one. -/
namespace Backfill

/-- The decimal number `digits · 10 ^ exponent`. -/
structure Decimal where
  digits : Nat
  exponent : Int
deriving DecidableEq, Repr

namespace Binary64

/-- The least real number that may round to a number, in quarters of its last place. A power of
two has its lower neighbour at half the distance, unless it is the least one of 53 bits. -/
def lowerEnd (x : Binary64) : Nat :=
  4 * x.mantissa - (if x.mantissa = 0x10000000000000 ∧ -1074 < x.exponent then 1 else 2)

/-- The greatest real number that may round to a number, in quarters of its last place. -/
def upperEnd (x : Binary64) : Nat := 4 * x.mantissa + 2

/-- Whether a decimal rounds to a number. The ends of the interval do so if the mantissa is even. -/
def isRoundingOf (x : Binary64) (d : Decimal) : Bool :=
  let n := (d.digits * Nat.pow 10 d.exponent.toNat) <<< (2 - x.exponent).toNat
  let quarter := Nat.pow 10 (-d.exponent).toNat <<< (x.exponent - 2).toNat
  if x.mantissa % 2 = 0 then x.lowerEnd * quarter ≤ n && n ≤ x.upperEnd * quarter
  else x.lowerEnd * quarter < n && n < x.upperEnd * quarter

def overPower (x : Binary64) (k : Int) : Nat × Nat :=
  ((x.mantissa * Nat.pow 10 (-k).toNat) <<< x.exponent.toNat,
    Nat.pow 10 k.toNat <<< (-x.exponent).toNat)

/-- The exponent of the largest power of ten that is not above a positive number. -/
def decimalPower (x : Binary64) : Int :=
  let (n, d) := x.overPower 0
  if d ≤ n then (Text.numeral (n / d)).length - 1 else -((Text.numeral ((d - 1) / n)).length : Int)

/-- The multiple of `10 ^ k` next to a number that rounds to it, the nearer one if both do so and
the even one if they are equally near. -/
def onGrid? (x : Binary64) (k : Int) : Option Decimal :=
  let (n, d) := x.overPower k
  let near := roundDiv n d
  let far := if near = n / d then n / d + 1 else n / d
  [Decimal.mk near k, Decimal.mk far k].find? x.isRoundingOf

def exact (x : Binary64) : Decimal :=
  if 0 ≤ x.exponent then ⟨x.mantissa <<< x.exponent.toNat, 0⟩
  else ⟨x.mantissa * Nat.pow 5 (-x.exponent).toNat, x.exponent⟩

/-- The shortest decimal that rounds to a number, looked for on finer and finer grids; 17 digits
tell all numbers apart. -/
def shortest (x : Binary64) : Decimal :=
  ((List.range 17).findSome? fun n : Nat => x.onGrid? (x.decimalPower - n)).getD x.exact

end Binary64
end Backfill
