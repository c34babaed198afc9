namespace Formulary

/-- The number `coefficient * 10 ^ exponent`. -/
structure Decimal where
  coefficient : Nat
  exponent : Int
deriving DecidableEq, Repr

namespace Decimal

def toRat (d : Decimal) : Rat := (d.coefficient : Rat) * (10 : Rat) ^ d.exponent

def digitCount (n : Nat) : Nat := (Nat.toDigits 10 n).length

def trailingZeros (n : Nat) : Nat := ((Nat.toDigits 10 n).reverse.takeWhile (· == '0')).length

def normal (d : Decimal) : Decimal :=
  if d.coefficient = 0 then ⟨0, 0⟩
  else ⟨d.coefficient / Nat.pow 10 (trailingZeros d.coefficient),
    d.exponent + trailingZeros d.coefficient⟩

/-- The exponent of the leading digit of `num / den`, for positive `num` and `den`. -/
def decade (num den : Nat) : Int :=
  if den ≤ num then (digitCount (num / den) : Int) - 1
  else
    let k := digitCount (den / num)
    if den ≤ num * Nat.pow 10 (k - 1) then 1 - (k : Int) else -(k : Int)

def rescale (num den : Nat) (exponent : Int) : Nat × Nat :=
  if 0 ≤ exponent then (num, den * Nat.pow 10 exponent.toNat)
    else (num * Nat.pow 10 (-exponent).toNat, den)

/-- Exact when `den` has no prime factor but two and five, and cut off otherwise. -/
def expansion (num den : Nat) : Decimal :=
  normal ⟨num * Nat.pow 10 den.log2 / den, -(den.log2 : Int)⟩

end Decimal

end Formulary
