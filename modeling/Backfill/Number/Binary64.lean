/-! Binary floating-point numbers of 64 bits, finite and without sign. Results are computed exactly
and rounded once, to the nearest number and in the middle between two to the even mantissa. -/
namespace Backfill

/-- The natural number nearest to `n / d`, the even one of two at the same distance. -/
def roundDiv (n d : Nat) : Nat :=
  if 2 * (n % d) < d ∨ (2 * (n % d) = d ∧ n / d % 2 = 0) then n / d else n / d + 1

/-- The exponent of the largest power of two that is not above `n / d`. -/
def binaryPower (n d : Nat) : Int :=
  let e : Int := (n.log2 : Int) - (d.log2 : Int)
  if n <<< (-e).toNat < d <<< e.toNat then e - 1 else e

/-- The number `mantissa · 2 ^ exponent`. A mantissa has 53 bits, or fewer with the least exponent,
so that equal numbers are written alike. -/
structure Binary64 where
  mantissa : Nat
  exponent : Int
  mantissa_lt : mantissa < 0x20000000000000
  least_le : -1074 ≤ exponent
  le_greatest : exponent ≤ 971
  normal : 0x10000000000000 ≤ mantissa ∨ exponent = -1074
deriving DecidableEq, Repr

namespace Binary64

def zero : Binary64 := ⟨0, -1074, by decide, by decide, by decide, by decide⟩

/-- The number of a mantissa and an exponent, if they are in range. -/
def ofParts? (m : Nat) (e : Int) : Option Binary64 :=
  if h : m < 0x20000000000000 ∧ -1074 ≤ e ∧ e ≤ 971 ∧ (0x10000000000000 ≤ m ∨ e = -1074)
  then some ⟨m, e, h.1, h.2.1, h.2.2.1, h.2.2.2⟩
  else none

/-- The number of a rounded mantissa, which may have grown to a power of two. -/
def ofRounded? (m : Nat) (e : Int) : Option Binary64 :=
  if m = 0x20000000000000 then ofParts? 0x10000000000000 (e + 1) else ofParts? m e

/-- The number nearest to `n / d`, if that does not round to more than the greatest one. -/
def ofRatio? (n d : Nat) : Option Binary64 :=
  if n = 0 then some zero
  else
    let fitting := binaryPower n d - 52
    let e := if fitting < -1074 then -1074 else fitting
    ofRounded? (roundDiv (n <<< (-e).toNat) (d <<< e.toNat)) e

/-- The number nearest to `n / d · 2 ^ e`. -/
def ofScaled? (n d : Nat) (e : Int) : Option Binary64 :=
  ofRatio? (n <<< e.toNat) (d <<< (-e).toNat)

def ofNat? (n : Nat) : Option Binary64 := ofRatio? n 1

def mul? (x y : Binary64) : Option Binary64 :=
  ofScaled? (x.mantissa * y.mantissa) 1 (x.exponent + y.exponent)

def div? (x y : Binary64) : Option Binary64 :=
  ofScaled? x.mantissa y.mantissa (x.exponent - y.exponent)

end Binary64
end Backfill
