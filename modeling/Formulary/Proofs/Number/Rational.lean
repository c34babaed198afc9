import Formulary.Number.Exact

namespace Formulary

open Number

/-- Equal numbers stand for one rational, negation and the small integers are exact. -/
class RationalNumber (ν : Type) [Number ν] : Prop where
  toRat?_eq_of_beq : ∀ {x y : ν}, (x == y) = true → toRat? x = toRat? y
  toRat?_neg : ∀ x : ν, toRat? (-x) = (toRat? x).map Neg.neg
  toRat?_zero : toRat? (zero : ν) = some 0
  toRat?_one : toRat? (one : ν) = some 1
  toRat?_two : toRat? (ofInt 2 : ν) = some 2
  toRat?_minusOne : toRat? (ofInt (-1) : ν) = some (-1)

instance : RationalNumber Exact where
  toRat?_eq_of_beq := by
    intro x y h
    cases x <;> cases y <;> simp_all [BEq.beq, Exact.beq, toRat?, Exact.toRat?]
  toRat?_neg := by
    intro x
    cases x <;> rfl
  toRat?_zero := rfl
  toRat?_one := rfl
  toRat?_two := rfl
  toRat?_minusOne := rfl

end Formulary
