import Formulary.Proofs.Number.Rational
import Mathlib

namespace Formulary

open Number

/-- No two numbers stand for one rational, and the four operations are exact. -/
class ExactNumber (ν : Type) [Number ν] : Prop extends RationalNumber ν where
  eq_of_toRat? : ∀ {x y : ν} {p : ℚ}, toRat? x = some p → toRat? y = some p → x = y
  isZero_of_toRat? : ∀ {x : ν}, toRat? x = some 0 → isZero x = true
  toRat?_add : ∀ {x y : ν} {p q : ℚ}, toRat? x = some p → toRat? y = some q →
    toRat? (x + y) = some (p + q)
  toRat?_sub : ∀ {x y : ν} {p q : ℚ}, toRat? x = some p → toRat? y = some q →
    toRat? (x - y) = some (p - q)
  toRat?_mul : ∀ {x y : ν} {p q : ℚ}, toRat? x = some p → toRat? y = some q →
    toRat? (x * y) = some (p * q)
  toRat?_div : ∀ {x y : ν} {p q : ℚ}, toRat? x = some p → toRat? y = some q → q ≠ 0 →
    toRat? (x / y) = some (p / q)

namespace Exact

theorem eq_finite {x : Exact} {p : ℚ} (h : Number.toRat? x = some p) : x = .finite p := by
  cases x with
  | finite a => rw [Option.some.inj (h : some a = some p)]
  | _ => cases h

instance : ExactNumber Exact where
  eq_of_toRat? := fun hx hy => (eq_finite hx).trans (eq_finite hy).symm
  isZero_of_toRat? := by
    intro x h
    rw [eq_finite h]
    rfl
  toRat?_add := by
    intro x y p q hx hy
    rw [eq_finite hx, eq_finite hy]
    rfl
  toRat?_sub := by
    intro x y p q hx hy
    rw [eq_finite hx, eq_finite hy, sub_eq_add_neg]
    rfl
  toRat?_mul := by
    intro x y p q hx hy
    rw [eq_finite hx, eq_finite hy]
    rfl
  toRat?_div := by
    intro x y p q hx hy hq
    have hquotient : (Exact.finite p / Exact.finite q) = .finite (p / q) := if_neg hq
    rw [eq_finite hx, eq_finite hy, hquotient]
    rfl

end Exact

end Formulary
