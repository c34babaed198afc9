import Formulary.Number.Double

namespace Formulary

class Elementary (ν : Type) extends Number ν where
  sqrt : ν → ν
  exp : ν → ν
  log : ν → ν
  sin : ν → ν
  cos : ν → ν
  sinh : ν → ν
  cosh : ν → ν
  asin : ν → ν
  acos : ν → ν
  atan : ν → ν
  asinh : ν → ν
  acosh : ν → ν
  atanh : ν → ν
  floor : ν → ν
  /-- The angle of the point whose ordinate comes first. -/
  atan2 : ν → ν → ν
  power : ν → ν → ν

namespace Elementary

open Number

variable {ν : Type} [Elementary ν]

def pi : ν := ofDecimal ⟨3141592653589793, -15⟩

def e : ν := ofDecimal ⟨2718281828459045, -15⟩

def ceiling (x : ν) : ν := -floor (-x)

/-- The nearest integer; a tie goes up. -/
def round (x : ν) : ν :=
  if less (x - floor x) (one / ofInt 2) then floor x
  else if isFinite x then ceiling x
  else x

def sign (x : ν) : ν :=
  if isPositive x then one else if isNegative x then -one else x

def addSquare (x : ν) (acc : ν × ν) : ν × ν :=
  let term := x * x - acc.2
  let total := acc.1 + term
  (total, total - acc.1 - term)

/-- The length of a vector, scaled by its longer side so that no square overflows. -/
def hypot (x y : ν) : ν :=
  if isInfinite x || isInfinite y then infinity
  else
    let side := max (abs x) (abs y)
    if isZero side || isNaN side then side
    else sqrt (addSquare (abs y / side) (addSquare (abs x / side) (zero, zero))).1 * side

end Elementary

/-- An exponent that is not finite gives one no power. -/
def Double.power (x y : Float) : Float := if x.abs == 1 && !y.isFinite then 0 / 0 else x.pow y

instance : Elementary Float where
  sqrt := Float.sqrt
  exp := Float.exp
  log := Float.log
  sin := Float.sin
  cos := Float.cos
  sinh := Float.sinh
  cosh := Float.cosh
  asin := Float.asin
  acos := Float.acos
  atan := Float.atan
  asinh := Float.asinh
  acosh := Float.acosh
  atanh := Float.atanh
  floor := Float.floor
  atan2 := Float.atan2
  power := Double.power

end Formulary
