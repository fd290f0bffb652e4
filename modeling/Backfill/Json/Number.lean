import Backfill.Number.Shortest

/-! The numbers of JSON documents: integers of 64 bits and binary floating-point numbers, what
literals denote and how numbers are written. -/
namespace Backfill.Json

inductive Number where
  | int (n : Int)
  | real (negative : Bool) (size : Binary64)
deriving DecidableEq, Repr

/-! ### Reading -/

/-- A number literal: whether it starts with a minus sign, its digits before and after the point,
and its exponent. -/
structure Literal where
  negative : Bool
  whole : List Char
  /-- The digits after the point; there are none if there is no point. -/
  fraction : List Char
  /-- The exponent, if one is written. -/
  exponent : Option Int

/-- Takes digits into a significand for as long as it stays a number of 64 bits. -/
def absorb (n : Nat) : List Char → Nat × List Char
  | [] => (n, [])
  | c :: cs =>
    let m := Nat.ofDigitChars 10 [c] n
    if m < UInt64.size then absorb m cs else (n, c :: cs)

/-- The greatest power of ten that is a binary number. -/
def greatestPower : Nat := 308

def powerOfTen? (k : Nat) : Option Binary64 :=
  if k ≤ greatestPower then Binary64.ofNat? (Nat.pow 10 k) else none

/-- A number times `10 ^ k`, by a multiplication or a division that rounds; below the reach of one
division, by two. -/
def timesPower? (x : Binary64) (k : Int) : Option Binary64 :=
  if x = .zero then some .zero
  else if 0 ≤ k then (powerOfTen? k.toNat).bind x.mul?
  else if k.natAbs ≤ greatestPower then (powerOfTen? k.natAbs).bind x.div?
  else if k.natAbs ≤ 2 * greatestPower then do
    let y ← (powerOfTen? greatestPower).bind x.div?
    (powerOfTen? (k.natAbs - greatestPower)).bind y.div?
  else some .zero

namespace Literal

/-- The integer that a literal denotes: it has neither point nor exponent, is not minus zero, and
fits in 64 bits, with a sign if it is negative. -/
def integer? (l : Literal) : Option Int :=
  let n := Nat.ofDigitChars 10 l.whole 0
  if !l.fraction.isEmpty || l.exponent.isSome then none
  else if l.negative then
    if 0 < n ∧ n ≤ 0x8000000000000000 then some (-(n : Int)) else none
  else if n < UInt64.size then some n else none

/-- The significand of a literal and its power of ten. Of the digits that the significand cannot
take, those before the point still raise the power. -/
def scaled (l : Literal) : Nat × Int :=
  let (n, raising) := absorb 0 l.whole
  let (m, dropped) := absorb n l.fraction
  (m, (raising.length : Int) + dropped.length - l.fraction.length + l.exponent.getD 0)

def number? (l : Literal) : Option Number :=
  match l.integer? with
  | some n => some (.int n)
  | none => do
    let (significand, k) := l.scaled
    let x ← Binary64.ofNat? significand
    let x ← timesPower? x k
    some (.real l.negative x)

end Literal

/-! ### Writing -/

def integer (n : Int) : List Char :=
  if n < 0 then '-' :: Text.numeral n.natAbs else Text.numeral n.natAbs

def trimZeros (ds : List Char) : List Char := (ds.reverse.dropWhile fun c => c = '0').reverse

/-- Digits with `point` of them before the decimal point, filled up with zeros so that there is a
digit on either side of it. -/
def positional (ds : List Char) (point : Int) : List Char :=
  let ds := List.replicate (1 - point).toNat '0' ++ ds
  let whole := if point < 1 then 1 else point.toNat
  let fraction := ds.drop whole
  ds.take whole ++ List.replicate (whole - ds.length) '0'
    ++ '.' :: (if fraction.isEmpty then ['0'] else fraction)

/-- Digits with the point after the first one, and a power of ten with its sign. -/
def scientific (ds : List Char) (power : Int) : List Char :=
  let fraction := ds.drop 1
  ds.take 1 ++ (if fraction.isEmpty then [] else '.' :: fraction)
    ++ 'e' :: (if power < 0 then '-' else '+') :: Text.numeral power.natAbs

/-- Whether a number with the leading digit at a power of ten is written without the power. -/
def isPositional (power : Int) : Bool := -5 ≤ power && power < 16

/-- A binary number, in the fewest digits that round to it. -/
def realSize (x : Binary64) : List Char :=
  if x = .zero then ['0', '.', '0']
  else
    let ds := Text.numeral x.shortest.digits
    let power := ds.length + x.shortest.exponent - 1
    if isPositional power then positional (trimZeros ds) (power + 1)
    else scientific (trimZeros ds) power

def Number.chars : Number → List Char
  | .int n => integer n
  | .real negative size => if negative then '-' :: realSize size else realSize size

/-! ### What becomes of literals -/

def Literal.printed? (l : Literal) : Option String :=
  l.number?.map fun n => String.ofList n.chars

-- Positional notation ends below `10 ^ 16` and above `10 ^ -6`.
example : Literal.printed? ⟨false, ['1'], [], some 15⟩ = some "1000000000000000.0" := by
  decide +kernel
example : Literal.printed? ⟨false, ['1'], [], some 16⟩ = some "1e+16" := by decide +kernel
example : Literal.printed? ⟨false, ['1'], [], some (-5)⟩ = some "0.00001" := by decide +kernel
example : Literal.printed? ⟨false, ['2', '5'], [], some (-7)⟩ = some "2.5e-6" := by decide +kernel
-- Minus zero is no integer.
example : Literal.printed? ⟨true, ['0'], [], none⟩ = some "-0.0" := by decide +kernel
-- A division by a rounded power of ten may miss the nearest number.
example : Literal.printed? ⟨false, ['1'], ['2'], some (-30)⟩ = some "1.2000000000000001e-30" := by
  decide +kernel
-- What rounds to more than the greatest number is none.
example : Literal.printed? ⟨false, ['1'], [], some 309⟩ = none := by decide +kernel

end Backfill.Json
