import Formulary.Decimal.Layout

namespace Formulary

/-- Numbers have the four operations, one value that is not a number, two infinities, and for every
other value the rational it stands for. -/
class Number (ν : Type) extends Add ν, Sub ν, Mul ν, Div ν, Neg ν, BEq ν where
  ofInt : Int → ν
  ofDecimal : Decimal → ν
  toRat? : ν → Option Rat
  less : ν → ν → Bool
  /-- Set for negative numbers, and for a negative zero where there is one. -/
  signBit : ν → Bool
  nan : ν
  infinity : ν
  /-- The decimal that a finite number is written as, its sign apart. -/
  decimal : ν → Decimal

namespace Number

variable {ν : Type} [Number ν]

def zero : ν := ofInt 0

def one : ν := ofInt 1

def isNaN (x : ν) : Bool := !(x == x)

def isInfinite (x : ν) : Bool := x == infinity || x == -(infinity : ν)

def isFinite (x : ν) : Bool := (toRat? x).isSome

def isZero (x : ν) : Bool := x == zero

def toInt? (x : ν) : Option Int :=
  match toRat? x with
  | some q => if q.den = 1 then some q.num else none
  | none => none

def isInteger (x : ν) : Bool := (toInt? x).isSome

def isOdd (x : ν) : Bool :=
  match toInt? x with
  | some n => n % 2 == 1
  | none => false

def lessEq (x y : ν) : Bool := less x y || x == y

def isNegative (x : ν) : Bool := less x zero

def isPositive (x : ν) : Bool := less zero x

def abs (x : ν) : ν := if signBit x then -x else x

/-- The smaller number; not a number when either is not one, and a negative zero below zero. -/
def min (x y : ν) : ν :=
  if isNaN x || isNaN y then nan
  else if less x y then x
  else if less y x then y
  else if signBit x then x
  else y

def max (x y : ν) : ν :=
  if isNaN x || isNaN y then nan
  else if less x y then y
  else if less y x then x
  else if signBit x then y
  else x

/-- Zeros have no sign in writing. -/
def text (x : ν) : String :=
  if isNaN x then "NaN"
  else if x == infinity then "Infinity"
  else if x == -(infinity : ν) then "-Infinity"
  else if isNegative x then "-" ++ (decimal x).text
  else (decimal x).text

end Number

end Formulary
