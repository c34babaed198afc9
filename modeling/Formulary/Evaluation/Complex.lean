import Formulary.Number.Elementary

namespace Formulary

structure Complex (ν : Type) where
  re : ν
  im : ν

namespace Complex

section Arithmetic

variable {ν : Type} [Number ν]

open Number

def ofReal (x : ν) : Complex ν := ⟨x, zero⟩

def isReal (a : Complex ν) : Bool := isZero a.im

def isZero (a : Complex ν) : Bool := Number.isZero a.re && Number.isZero a.im

def isFinite (a : Complex ν) : Bool := Number.isFinite a.re && Number.isFinite a.im

def add (a b : Complex ν) : Complex ν := ⟨a.re + b.re, a.im + b.im⟩

def sub (a b : Complex ν) : Complex ν := ⟨a.re - b.re, a.im - b.im⟩

def mul (a b : Complex ν) : Complex ν := ⟨a.re * b.re - a.im * b.im, a.re * b.im + a.im * b.re⟩

def neg (a : Complex ν) : Complex ν := ⟨-a.re, -a.im⟩

def div (a b : Complex ν) : Option (Complex ν) :=
  let d := b.re * b.re + b.im * b.im
  if Number.isZero d then none
  else some ⟨(a.re * b.re + a.im * b.im) / d, (a.im * b.re - a.re * b.im) / d⟩

def rotate (a : Complex ν) : Complex ν := ⟨-a.im, a.re⟩

def powLoop (result base : Complex ν) (n : Nat) : Complex ν :=
  if n = 0 then result
  else powLoop (if n % 2 = 1 then result.mul base else result) (base.mul base) (n / 2)
termination_by n
decreasing_by omega

def natPower (base : Complex ν) (n : Nat) : Complex ν := powLoop (ofReal one) base n

def intPower (base : Complex ν) (n : Int) : Option (Complex ν) :=
  if n < 0 then (ofReal one).div (base.natPower n.natAbs) else some (base.natPower n.natAbs)

def smallExponent? (e : Complex ν) : Option Int :=
  match toInt? e.re with
  | some n => if e.isReal ∧ n.natAbs ≤ 64 then some n else none
  | none => none

end Arithmetic

variable {ν : Type} [Elementary ν]

open Number Elementary

def modulus (a : Complex ν) : ν := hypot a.re a.im

def exp (a : Complex ν) : Complex ν :=
  let m := Elementary.exp a.re
  if a.isReal then ofReal m else ⟨m * Elementary.cos a.im, m * Elementary.sin a.im⟩

def log (a : Complex ν) : Option (Complex ν) :=
  if a.isZero then none else some ⟨Elementary.log a.modulus, atan2 a.im a.re⟩

def pow (base e : Complex ν) : Option (Complex ν) :=
  match e.smallExponent? with
  | some n => base.intPower n
  | none =>
    if base.isReal && e.isReal && isPositive base.re then some (ofReal (power base.re e.re))
    else if base.isZero then (if isPositive e.re then some (ofReal zero) else none)
    else base.log.map fun l => (e.mul l).exp

def sqrt (a : Complex ν) : Option (Complex ν) := a.pow (ofReal (ofDecimal ⟨5, -1⟩))

def sin (a : Complex ν) : Complex ν :=
  ⟨Elementary.sin a.re * Elementary.cosh a.im, Elementary.cos a.re * Elementary.sinh a.im⟩

def cos (a : Complex ν) : Complex ν :=
  ⟨Elementary.cos a.re * Elementary.cosh a.im, -Elementary.sin a.re * Elementary.sinh a.im⟩

def tan (a : Complex ν) : Option (Complex ν) := a.sin.div a.cos

def sinh (a : Complex ν) : Complex ν := mul ⟨zero, -one⟩ a.rotate.sin

def cosh (a : Complex ν) : Complex ν := a.rotate.cos

def tanh (a : Complex ν) : Option (Complex ν) := a.sinh.div a.cosh

/-- Equal up to a tolerance relative to the larger modulus, and absolute near zero. -/
def isClose (tolerance : ν) (a b : Complex ν) : Bool :=
  lessEq (a.sub b).modulus (tolerance * (one + max a.modulus b.modulus))

end Complex

end Formulary
