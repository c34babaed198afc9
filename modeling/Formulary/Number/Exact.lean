import Formulary.Number.Basic

namespace Formulary

/-- The rationals, with two infinities and a value that is not a number beside them. -/
inductive Exact where
  | undefined
  | finite (value : Rat)
  | infinite (negative : Bool)
deriving DecidableEq

namespace Exact

def add : Exact → Exact → Exact
  | .finite a, .finite b => .finite (a + b)
  | .infinite s, .finite _ | .finite _, .infinite s => .infinite s
  | .infinite s, .infinite t => if s = t then .infinite s else .undefined
  | .undefined, _ | _, .undefined => .undefined

def neg : Exact → Exact
  | .finite a => .finite (-a)
  | .infinite s => .infinite !s
  | .undefined => .undefined

def mul : Exact → Exact → Exact
  | .finite a, .finite b => .finite (a * b)
  | .infinite s, .finite a | .finite a, .infinite s =>
    if a = 0 then .undefined else .infinite (s ^^ decide (a < 0))
  | .infinite s, .infinite t => .infinite (s ^^ t)
  | .undefined, _ | _, .undefined => .undefined

def div : Exact → Exact → Exact
  | .finite a, .finite b =>
    if b = 0 then if a = 0 then .undefined else .infinite (decide (a < 0)) else .finite (a / b)
  | .infinite s, .finite b => .infinite (s ^^ decide (b < 0))
  | .finite _, .infinite _ => .finite 0
  | .infinite _, .infinite _ => .undefined
  | .undefined, _ | _, .undefined => .undefined

def beq : Exact → Exact → Bool
  | .finite a, .finite b => decide (a = b)
  | .infinite s, .infinite t => s == t
  | _, _ => false

def less : Exact → Exact → Bool
  | .finite a, .finite b => decide (a < b)
  | .infinite s, .finite _ => s
  | .finite _, .infinite s => !s
  | .infinite s, .infinite t => s && !t
  | _, _ => false

def signBit : Exact → Bool
  | .finite a => decide (a < 0)
  | .infinite s => s
  | .undefined => false

def toRat? : Exact → Option Rat
  | .finite a => some a
  | _ => none

def decimal : Exact → Decimal
  | .finite a => Decimal.expansion a.num.natAbs a.den
  | _ => ⟨0, 0⟩

instance : Number Exact where
  add := add
  sub a b := add a (neg b)
  mul := mul
  div := div
  neg := neg
  beq := beq
  ofInt n := .finite n
  ofDecimal d := .finite d.toRat
  toRat? := toRat?
  less := less
  signBit := signBit
  nan := .undefined
  infinity := .infinite false
  decimal := decimal

instance : Coe Rat Exact := ⟨.finite⟩

end Exact

end Formulary
