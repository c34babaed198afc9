import Formulary.Expr.Build
import Formulary.Number.Exact
import Formulary.Proofs.Number.Order
import Formulary.Proofs.Number.Written
import Mathlib

namespace Formulary

variable {p q r s g num den num' den' : ℤ}

namespace Exact

open Number

theorem ofInt_inj : (ofInt p : Exact) = ofInt q ↔ p = q := by
  constructor
  · exact fun h => Rat.intCast_injective (Exact.finite.inj h)
  · exact fun h => congrArg ofInt h

theorem beq_ofInt : ((ofInt p : Exact) == ofInt q) = true ↔ p = q := by
  rw [← Rat.intCast_inj]
  exact decide_eq_true_iff

theorem isNegative_ofInt : isNegative (ofInt p : Exact) = true ↔ p < 0 := by
  rw [← Int.cast_lt_zero (R := ℚ)]
  exact decide_eq_true_iff

theorem toInt?_ofInt (a : ℤ) : toInt? (ofInt a : Exact) = some a := toInt?_of_toRat? rfl

theorem neg_ofInt (a : ℤ) : -(ofInt a : Exact) = ofInt (-a) :=
  congrArg Exact.finite (Int.cast_neg a).symm

theorem mul_div_ofInt (hg : g ≠ 0) (a : ℤ) : (ofInt (a * g) / ofInt g : Exact) = ofInt a := by
  have hg0 : (g : ℚ) ≠ 0 := by exact_mod_cast hg
  have hquotient : (ofInt (a * g) / ofInt g : Exact) = .finite ((a * g : ℤ) / g) := if_neg hg0
  rw [hquotient, Int.cast_mul, mul_div_cancel_right₀ _ hg0]
  rfl

end Exact

namespace Numeral

open Number (isZero)

def ofParts (num den : ℤ) : Numeral Exact := ⟨Number.ofInt num, Number.ofInt den⟩

structure Lowest (num den : ℤ) : Prop where
  pos : 0 < den
  coprime : Int.gcd num den = 1

theorem Lowest.parts_eq_iff (h : Lowest num den) (h' : Lowest num' den') :
    num = num' ∧ den = den' ↔ (num / den : ℚ) = num' / den' := by
  constructor
  · rintro ⟨rfl, rfl⟩
    rfl
  · exact Rat.div_int_inj h.pos h'.pos h.coprime h'.coprime

theorem ofParts_inj : ofParts num den = ofParts num' den' ↔ num = num' ∧ den = den' := by
  rw [ofParts, ofParts, Numeral.mk.injEq, Exact.ofInt_inj, Exact.ofInt_inj]

theorem beq_ofParts : (ofParts num den == ofParts num' den') = true ↔ num = num' ∧ den = den' := by
  rw [← Exact.beq_ofInt, ← Exact.beq_ofInt (p := den), ← Bool.and_eq_true]
  rfl

theorem ratio_ofInt (hq : q ≠ 0) :
    ∃ num den, ratio (Number.ofInt p) (Number.ofInt q) = ofParts num den ∧ Lowest num den ∧
    num * q = p * den := by
  obtain ⟨k, m, hcoprime, hp, hm⟩ := Int.exists_gcd_one (Int.gcd_pos_of_ne_zero_right p hq)
  have hg : (0 : ℤ) < Int.gcd p q := by exact_mod_cast Int.gcd_pos_of_ne_zero_right p hq
  have hzero : ¬ isZero (Number.ofInt q : Exact) = true := mt Exact.beq_ofInt.mp hq
  rw [ratio, if_neg hzero, Exact.toInt?_ofInt, Exact.toInt?_ofInt]
  simp only [commonDivisor_natAbs, Exact.isNegative_ofInt, Exact.neg_ofInt]
  generalize ((Int.gcd p q : ℕ) : ℤ) = g at hp hm hg ⊢
  subst hp hm
  -- The sign of the lower part is that of its cofactor, since the divisor is positive.
  rcases lt_or_gt_of_ne hq with hneg | hpos
  · have hm : 0 < -m := by
      have := neg_of_mul_neg_left hneg hg.le
      omega
    rw [if_pos hneg, if_pos hneg, ← neg_mul, ← neg_mul, Exact.mul_div_ofInt hg.ne',
      Exact.mul_div_ofInt hg.ne']
    exact ⟨-k, -m, rfl, ⟨hm, by rwa [Int.neg_gcd, Int.gcd_neg]⟩, by ring⟩
  · have hm : 0 < m := pos_of_mul_pos_left hpos hg.le
    rw [if_neg hpos.not_gt, if_neg hpos.not_gt, Exact.mul_div_ofInt hg.ne',
      Exact.mul_div_ofInt hg.ne']
    exact ⟨k, m, rfl, ⟨hm, hcoprime⟩, by ring⟩

theorem div_eq_div_iff_cross (hq : q ≠ 0) (hs : s ≠ 0) : (p / q : ℚ) = r / s ↔ p * s = r * q := by
  rw [div_eq_div_iff (by exact_mod_cast hq) (by exact_mod_cast hs)]
  exact_mod_cast Iff.rfl

/-- A quotient of integers is the one fraction in lowest terms that has its value: equal quotients
are the same numeral, and comparing literals part by part compares their values. -/
theorem ratio_canonical (p : ℤ) {q : ℤ} (hq : q ≠ 0) :
    (∃ num den, ratio (Number.ofInt p) (Number.ofInt q) = ofParts num den ∧ 0 < den ∧
      Int.gcd num den = 1 ∧ num * q = p * den) ∧
    ∀ r s : ℤ, s ≠ 0 →
      ((ratio (Number.ofInt p) (Number.ofInt q) : Numeral Exact) =
        ratio (Number.ofInt r) (Number.ofInt s) ↔ p * s = r * q) ∧
      (((Expr.ratio (Number.ofInt p) (Number.ofInt q) : Expr Exact) ==
        Expr.ratio (Number.ofInt r) (Number.ofInt s)) = true ↔ (p / q : ℚ) = r / s) := by
  obtain ⟨num, den, hratio, hlowest, hcross⟩ := ratio_ofInt (p := p) hq
  refine ⟨⟨num, den, hratio, hlowest.pos, hlowest.coprime, hcross⟩, fun r s hs => ?_⟩
  obtain ⟨num', den', hratio', hlowest', hcross'⟩ := ratio_ofInt (p := r) hs
  have hvalue : (num / den : ℚ) = p / q := (div_eq_div_iff_cross hlowest.pos.ne' hq).mpr hcross
  have hvalue' : (num' / den' : ℚ) = r / s := (div_eq_div_iff_cross hlowest'.pos.ne' hs).mpr hcross'
  have hparts : num = num' ∧ den = den' ↔ (p / q : ℚ) = r / s := by
    rw [hlowest.parts_eq_iff hlowest', hvalue, hvalue']
  constructor
  · rw [hratio, hratio', ofParts_inj, hparts, div_eq_div_iff_cross hq hs]
  · have hsame (a b : Numeral Exact) : (Expr.number a == Expr.number b) = (a == b) := rfl
    rw [Expr.ratio, Expr.ratio, hsame, hratio, hratio', beq_ofParts, hparts]

theorem ratio_canonical_negativeDenominator : (-4 : ℤ) ≠ 0 ∧ (6 : ℤ) ≠ 0 ∧
    (ratio (Number.ofInt 6) (Number.ofInt (-4)) : Numeral Exact) =
      ratio (Number.ofInt (-9)) (Number.ofInt 6) :=
  ⟨by decide, by decide, ((ratio_canonical 6 (by decide)).2 (-9) 6 (by decide)).1.mpr (by decide)⟩

end Numeral

end Formulary
