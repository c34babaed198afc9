import Formulary.Number.Basic

namespace Formulary

/-- A rational when both parts are integers; a real literal has denominator one. -/
structure Numeral (ν : Type) where
  numerator : ν
  denominator : ν

inductive Expr (ν : Type) where
  | number (value : Numeral ν)
  | symbol (name : String)
  | sum (terms : List (Expr ν))
  | product (factors : List (Expr ν))
  | power (base exponent : Expr ν)
  | call (head : String) (args : List (Expr ν))
  | negation (inner : Expr ν)
  | list (items : List (Expr ν))
  | pattern (name : String) (head : Option String)

variable {ν : Type}

namespace Expr

instance : Inhabited (Expr ν) := ⟨.symbol ""⟩

def children : Expr ν → List (Expr ν)
  | .number _ | .symbol _ | .pattern _ _ => []
  | .sum ts => ts
  | .product fs => fs
  | .power b e => [b, e]
  | .call _ args => args
  | .negation x => [x]
  | .list items => items

mutual

def size : Expr ν → Nat
  | .number _ | .symbol _ | .pattern _ _ => 1
  | .sum xs | .product xs | .call _ xs | .list xs => 1 + sizeAll xs
  | .power b e => 1 + size b + size e
  | .negation x => 1 + size x

def sizeAll : List (Expr ν) → Nat
  | [] => 0
  | x :: xs => size x + sizeAll xs

end

mutual

def symbolOccurrences : Expr ν → List String
  | .symbol s => [s]
  | .number _ | .pattern _ _ => []
  | .sum xs | .product xs | .call _ xs | .list xs => symbolOccurrencesAll xs
  | .power b e => symbolOccurrences b ++ symbolOccurrences e
  | .negation x => symbolOccurrences x

def symbolOccurrencesAll : List (Expr ν) → List String
  | [] => []
  | x :: xs => symbolOccurrences x ++ symbolOccurrencesAll xs

end

def symbols (x : Expr ν) : List String := x.symbolOccurrences.eraseDups

mutual

def patterns : Expr ν → List String
  | .pattern s _ => [s]
  | .number _ | .symbol _ => []
  | .sum xs | .product xs | .call _ xs | .list xs => patternsAll xs
  | .power b e => patterns b ++ patterns e
  | .negation x => patterns x

def patternsAll : List (Expr ν) → List String
  | [] => []
  | x :: xs => patterns x ++ patternsAll xs

end

end Expr

open Number

variable [Number ν]

namespace Numeral

def ofNumber (x : ν) : Numeral ν := ⟨x, one⟩

def ofInt (n : Int) : Numeral ν := ofNumber (Number.ofInt n)

@[semireducible] def commonDivisor (a b : Nat) : Nat := if b = 0 then a else commonDivisor b (a % b)
termination_by b
decreasing_by exact Nat.mod_lt _ (Nat.pos_of_ne_zero ‹_›)

theorem commonDivisor_eq_gcd (a b : Nat) : commonDivisor a b = Nat.gcd a b := by
  fun_induction commonDivisor a b with
  | case1 a => exact (Nat.gcd_zero_right a).symm
  | case2 a b _ ih => rw [ih, Nat.gcd_comm b, ← Nat.gcd_rec, Nat.gcd_comm]

theorem commonDivisor_natAbs (a b : Int) : commonDivisor a.natAbs b.natAbs = Int.gcd a b :=
  commonDivisor_eq_gcd ..

/-- A quotient in lowest terms with a positive denominator. A zero denominator gives no number, and
parts that are not integers are divided out. -/
def ratio (p q : ν) : Numeral ν :=
  if isZero q then ofNumber nan
  else
    match toInt? p, toInt? q with
    | some a, some b =>
      let divisor : ν := Number.ofInt (commonDivisor a.natAbs b.natAbs)
      let signed (x : ν) : ν := if isNegative q then -x else x
      ⟨signed p / divisor, signed q / divisor⟩
    | _, _ => ofNumber (p / q)

def half : Numeral ν := ratio one (Number.ofInt 2)

def neg (n : Numeral ν) : Numeral ν := ⟨-n.numerator, n.denominator⟩

def value (n : Numeral ν) : ν := n.numerator / n.denominator

def same (a b : Numeral ν) : Bool := a.numerator == b.numerator && a.denominator == b.denominator

instance : BEq (Numeral ν) := ⟨same⟩

def isOne (n : Numeral ν) : Bool := n.numerator == one && n.denominator == one

def isInteger (n : Numeral ν) : Bool := n.denominator == one && Number.isInteger n.numerator

def isHalfInteger (n : Numeral ν) : Bool :=
  n.denominator == Number.ofInt 2 && Number.isInteger n.numerator

def isHalf (n : Numeral ν) : Bool := n.numerator == one && n.denominator == Number.ofInt 2

def isMinusOne (n : Numeral ν) : Bool := n.numerator == Number.ofInt (-1) && n.denominator == one

def isNegative (n : Numeral ν) : Bool := Number.isNegative n.numerator

end Numeral

namespace Expr

def isOne : Expr ν → Bool
  | .number n => n.isOne
  | _ => false

def isInteger : Expr ν → Bool
  | .number n => n.isInteger
  | _ => false

def isHalfInteger : Expr ν → Bool
  | .number n => n.isHalfInteger
  | _ => false

-- The program first asks whether both sides are one object. Objects have no identity here: a
-- literal that is not a number and that two trees share is equal to itself there, and differs from
-- itself here.
mutual

def same : Expr ν → Expr ν → Bool
  | .number a, .number b => a == b
  | .symbol a, .symbol b => a == b
  | .sum as, .sum bs => sameAll as bs
  | .product as, .product bs => sameAll as bs
  | .power a x, .power b y => same a b && same x y
  | .call f as, .call g bs => f == g && sameAll as bs
  | .negation a, .negation b => same a b
  | .list as, .list bs => sameAll as bs
  | .pattern a h, .pattern b k => a == b && h == k
  | _, _ => false

def sameAll : List (Expr ν) → List (Expr ν) → Bool
  | [], [] => true
  | a :: as, b :: bs => same a b && sameAll as bs
  | _, _ => false

end

instance : BEq (Expr ν) := ⟨same⟩

end Expr

end Formulary
