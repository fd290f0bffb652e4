/-! Decimal numerals of unsigned numbers below a bound, read and written. -/
namespace Backfill.Text

/-- Why a text is no numeral of a number in range. -/
inductive NumeralError where
  | empty
  | invalidDigit
  | tooLarge
deriving DecidableEq, Repr

def NumeralError.message : NumeralError → String
  | .empty => "cannot parse integer from empty string"
  | .invalidDigit => "invalid digit found in string"
  | .tooLarge => "number too large to fit in target type"

def digit? (c : Char) : Option Nat :=
  if '0' ≤ c ∧ c ≤ '9' then some (c.toNat - '0'.toNat) else none

/-- Reads digits from the left onto the number `n` read so far. The first fault counts; at one
place a wrong digit comes before a number that grows out of range. -/
def readDigits (bound n : Nat) : List Char → Except NumeralError Nat
  | [] => .ok n
  | c :: cs =>
    match digit? c with
    | none => .error .invalidDigit
    | some d => if n * 10 + d < bound then readDigits bound (n * 10 + d) cs else .error .tooLarge

/-- Reads a numeral below `bound`: digits after at most one plus sign, leading zeros allowed. -/
def readNumeral (bound : Nat) : List Char → Except NumeralError Nat
  | [] => .error .empty
  | ['+'] => .error .invalidDigit
  | '+' :: c :: cs => readDigits bound 0 (c :: cs)
  | c :: cs => readDigits bound 0 (c :: cs)

def readWord (cs : List Char) : Except NumeralError UInt64 :=
  (readNumeral UInt64.size cs).map UInt64.ofNat

/-- The numeral of a number, without sign or leading zeros. -/
def numeral (n : Nat) : List Char := Nat.toDigits 10 n

theorem numeral_ne_nil (n : Nat) : numeral n ≠ [] := Nat.toDigits_ne_nil

end Backfill.Text
