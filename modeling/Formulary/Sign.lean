import Formulary.Assumption.Basic

namespace Formulary

inductive Sign where
  | positive
  | negative
  | zero
  | unknown
deriving DecidableEq, Repr

namespace Sign

def flip : Sign → Sign
  | .positive => .negative
  | .negative => .positive
  | s => s

def product (signs : List Sign) : Sign :=
  if signs.contains .zero then .zero
  else if signs.contains .unknown then .unknown
  else if signs.count .negative % 2 = 0 then .positive
  else .negative

def sum (signs : List Sign) : Sign :=
  if signs.contains .unknown then .unknown
  else if signs.contains .positive then (if signs.contains .negative then .unknown else .positive)
  else if signs.contains .negative then .negative
  else .zero

variable {ν : Type} [Number ν]

open Number

def ofNumber (x : ν) : Sign :=
  if isNaN x then .unknown
  else if isPositive x then .positive
  else if isNegative x then .negative
  else .zero

structure Bound (ν : Type) where
  value : ν
  strict : Bool

structure Interval (ν : Type) where
  lo : Bound ν
  hi : Bound ν
  excludesZero : Bool

namespace Interval

def full : Interval ν := ⟨⟨-infinity, true⟩, ⟨infinity, true⟩, false⟩

def raise (i : Interval ν) (b : Bound ν) : Interval ν :=
  if less i.lo.value b.value || (b.value == i.lo.value && b.strict) then { i with lo := b } else i

def lower (i : Interval ν) (b : Bound ν) : Interval ν :=
  if less b.value i.hi.value || (b.value == i.hi.value && b.strict) then { i with hi := b } else i

def meet (i : Interval ν) (f : Fact ν) : Interval ν :=
  match f.relation with
  | .gt => i.raise ⟨f.bound, true⟩
  | .ge => i.raise ⟨f.bound, false⟩
  | .lt => i.lower ⟨f.bound, true⟩
  | .le => i.lower ⟨f.bound, false⟩
  | .eq => (i.raise ⟨f.bound, false⟩).lower ⟨f.bound, false⟩
  | .ne => if isZero f.bound then { i with excludesZero := true } else i

def ofFacts (facts : List (Fact ν)) : Interval ν := facts.foldl meet full

def isEmpty (i : Interval ν) : Bool :=
  less i.hi.value i.lo.value || (i.lo.value == i.hi.value && (i.lo.strict || i.hi.strict)) ||
    (i.excludesZero && isZero i.lo.value && isZero i.hi.value)

def sign (i : Interval ν) : Sign :=
  if i.isEmpty then .unknown
  else if isPositive i.lo.value || (isZero i.lo.value && (i.lo.strict || i.excludesZero))
    then .positive
  else if Number.isNegative i.hi.value || (isZero i.hi.value && (i.hi.strict || i.excludesZero))
    then .negative
  else if isZero i.lo.value && isZero i.hi.value then .zero
  else .unknown

end Interval

def ofFacts (facts : List (Fact ν)) (x : Expr ν) : Sign :=
  match facts.filter (·.subject == x) with
  | [] => .unknown
  | about => (Interval.ofFacts about).sign

def positiveConstants : List String := ["Pi", "E", "Degree", "GoldenRatio", "EulerGamma", "Catalan"]

def signPreserving : List String := ["Sign", "Sinh", "Tanh", "ArcTan", "ArcSinh", "ArcTanh"]

def ofSymbol (name : String) : Sign := if positiveConstants.contains name then .positive else .unknown

def ofPower (base : Sign) (exponent : Expr ν) : Sign :=
  match base, exponent with
  | .positive, _ => .positive
  | .zero, .number n => if isPositive n.value then .zero else .unknown
  | .negative, .number n => if n.isInteger then (if isOdd n.numerator then .negative else .positive)
    else .unknown
  | _, _ => .unknown

def ofCall (head : String) (argument : Sign) : Sign :=
  if head = "Exp" ∨ head = "Cosh" then .positive
  else if head = "Abs" then (if argument = .zero ∨ argument = .unknown then argument else .positive)
  else if head = "Sqrt" then (if argument = .negative then .unknown else argument)
  else if signPreserving.contains head then argument
  else .unknown

def otherwise (s t : Sign) : Sign := if s = .unknown then t else s

mutual

def structural (facts : List (Fact ν)) : Expr ν → Sign
  | .number n => ofNumber n.numerator
  | .symbol name => ofSymbol name
  | .negation y => ((ofFacts facts y).otherwise (structural facts y)).flip
  | .product fs => product (ofExprs facts fs)
  | .sum ts => sum (ofExprs facts ts)
  | .power b e => ofPower ((ofFacts facts b).otherwise (structural facts b)) e
  | .call head [y] => ofCall head ((ofFacts facts y).otherwise (structural facts y))
  | .call _ _ | .list _ | .pattern _ _ => .unknown

def ofExprs (facts : List (Fact ν)) : List (Expr ν) → List Sign
  | [] => []
  | x :: xs => (ofFacts facts x).otherwise (structural facts x) :: ofExprs facts xs

end

def ofExpr (facts : List (Fact ν)) (x : Expr ν) : Sign :=
  (ofFacts facts x).otherwise (structural facts x)

end Sign

/-- What decides the signs of the bases of radicals. -/
abbrev SignRule (ν : Type) := Expr ν → Assumptions ν → Sign

def Sign.fromFacts {ν : Type} [Number ν] : SignRule ν := fun x a => Sign.ofExpr a.facts x

end Formulary
