import Formulary.Evaluation.Complex
import Formulary.Proofs.Number.Exact
import Formulary.Proofs.Number.Written
import Mathlib

namespace Formulary

open Number

namespace Complex

variable {ν : Type} [Number ν] {a b c r : Complex ν} {z w : ℂ} {n : ℕ}

def Denotes (a : Complex ν) (z : ℂ) : Prop :=
  ∃ p q : ℚ, toRat? a.re = some p ∧ toRat? a.im = some q ∧ z = ⟨p, q⟩

def plainPower (b : Complex ν) : ℕ → Complex ν
  | 0 => ofReal one
  | n + 1 => (b.plainPower n).mul b

/-- Exactly the numbers with two finite parts denote one. -/
theorem exists_denotes_iff : (∃ z, a.Denotes z) ↔ a.isFinite = true := by
  rw [isFinite, Bool.and_eq_true, Number.isFinite, Number.isFinite, Option.isSome_iff_exists,
    Option.isSome_iff_exists]
  constructor
  · rintro ⟨-, p, q, hp, hq, -⟩
    exact ⟨⟨p, hp⟩, ⟨q, hq⟩⟩
  · rintro ⟨⟨p, hp⟩, ⟨q, hq⟩⟩
    exact ⟨⟨p, q⟩, p, q, hp, hq, rfl⟩

theorem Denotes.value_unique (hz : a.Denotes z) (hw : a.Denotes w) : z = w := by
  obtain ⟨p, q, hre, him, rfl⟩ := hz
  obtain ⟨p', q', hre', him', rfl⟩ := hw
  rw [Option.some.inj (hre.symm.trans hre'), Option.some.inj (him.symm.trans him')]

variable [ExactNumber ν]

theorem denotes_ofReal {x : ν} {p : ℚ} (h : toRat? x = some p) : (ofReal x).Denotes (p : ℂ) := by
  refine ⟨p, 0, h, RationalNumber.toRat?_zero, ?_⟩
  apply Complex.ext <;> simp

theorem denotes_one : (ofReal one : Complex ν).Denotes 1 := by
  simpa using denotes_ofReal (RationalNumber.toRat?_one : toRat? (one : ν) = some 1)

theorem denotes_zero : (ofReal zero : Complex ν).Denotes 0 := by
  simpa using denotes_ofReal (RationalNumber.toRat?_zero : toRat? (zero : ν) = some 0)

theorem Denotes.unique (ha : a.Denotes z) (hb : b.Denotes z) : a = b := by
  obtain ⟨p, q, hre, him, rfl⟩ := ha
  obtain ⟨p', q', hre', him', hz⟩ := hb
  obtain ⟨hpp, hqq⟩ := Complex.ext_iff.mp hz
  obtain rfl : p = p' := Rat.cast_injective hpp
  obtain rfl : q = q' := Rat.cast_injective hqq
  cases a
  cases b
  exact congrArg₂ mk (ExactNumber.eq_of_toRat? hre hre') (ExactNumber.eq_of_toRat? him him')

theorem Denotes.mul (ha : a.Denotes z) (hb : b.Denotes w) : (a.mul b).Denotes (z * w) := by
  obtain ⟨p, q, hp, hq, rfl⟩ := ha
  obtain ⟨p', q', hp', hq', rfl⟩ := hb
  refine ⟨p * p' - q * q', p * q' + q * p', ?_, ?_, ?_⟩
  · exact ExactNumber.toRat?_sub (ExactNumber.toRat?_mul hp hp') (ExactNumber.toRat?_mul hq hq')
  · exact ExactNumber.toRat?_add (ExactNumber.toRat?_mul hp hq') (ExactNumber.toRat?_mul hq hp')
  · apply Complex.ext <;> simp

/-- The sum of the squares of the parts. It is zero for no number but zero, so a quotient is
undefined for no other divisor. -/
theorem Denotes.sumOfSquares (hb : b.Denotes w) :
    ∃ d : ℚ, toRat? (b.re * b.re + b.im * b.im) = some d ∧ (d : ℝ) = Complex.normSq w := by
  obtain ⟨p, q, hp, hq, rfl⟩ := hb
  refine ⟨p * p + q * q,
    ExactNumber.toRat?_add (ExactNumber.toRat?_mul hp hp) (ExactNumber.toRat?_mul hq hq), ?_⟩
  simp [Complex.normSq_apply]

theorem Denotes.div_zero (hb : b.Denotes 0) : a.div b = none := by
  obtain ⟨d, hd, hsquare⟩ := hb.sumOfSquares
  obtain rfl : d = 0 := by simpa using hsquare
  exact if_pos (ExactNumber.isZero_of_toRat? hd)

theorem Denotes.div (ha : a.Denotes z) (hb : b.Denotes w) (hw : w ≠ 0) :
    ∃ c, a.div b = some c ∧ c.Denotes (z / w) := by
  obtain ⟨d, hd, hsquare⟩ := hb.sumOfSquares
  have hnorm : Complex.normSq w ≠ 0 := fun h => hw (Complex.normSq_eq_zero.mp h)
  have hd0 : d ≠ 0 := by
    rintro rfl
    exact hnorm (hsquare.symm.trans Rat.cast_zero)
  have hnonzero : ¬ Number.isZero (b.re * b.re + b.im * b.im) = true := by
    intro h
    have := RationalNumber.toRat?_eq_of_beq h
    rw [hd, RationalNumber.toRat?_zero] at this
    exact hd0 (Option.some.inj this)
  refine ⟨_, if_neg hnonzero, ?_⟩
  obtain ⟨p, q, hp, hq, rfl⟩ := ha
  obtain ⟨p', q', hp', hq', rfl⟩ := hb
  refine ⟨(p * p' + q * q') / d, (q * p' - p * q') / d, ?_, ?_, ?_⟩
  · exact ExactNumber.toRat?_div (ExactNumber.toRat?_add (ExactNumber.toRat?_mul hp hp')
      (ExactNumber.toRat?_mul hq hq')) hd hd0
  · exact ExactNumber.toRat?_div (ExactNumber.toRat?_sub (ExactNumber.toRat?_mul hq hp')
      (ExactNumber.toRat?_mul hp hq')) hd hd0
  · apply Complex.ext
    · rw [Complex.div_re, ← hsquare]
      push_cast
      ring
    · rw [Complex.div_im, ← hsquare]
      push_cast
      ring

theorem Denotes.plainPower (hb : b.Denotes z) (n : ℕ) : (b.plainPower n).Denotes (z ^ n) := by
  induction n with
  | zero => exact denotes_one
  | succ n ih => exact ih.mul hb

/-- What is left to multiply after one turn: an odd exponent has put one factor aside. -/
theorem squaring_step (w z : ℂ) (n : ℕ) :
    (if n % 2 = 1 then w * z else w) * (z * z) ^ (n / 2) = w * z ^ n := by
  have hn := Nat.div_add_mod n 2
  rw [← pow_two, ← pow_mul]
  split
  · next hodd =>
    rw [hodd] at hn
    rw [mul_assoc, ← pow_succ', hn]
  · next heven =>
    rw [show 2 * (n / 2) = n by omega]

theorem Denotes.powLoop (hr : r.Denotes w) (hb : b.Denotes z) (n : ℕ) :
    (Complex.powLoop r b n).Denotes (w * z ^ n) := by
  fun_induction Complex.powLoop r b n generalizing w z with
  | case1 => simpa using hr
  | case2 r b n hn ih =>
      have hnext : (if n % 2 = 1 then r.mul b else r).Denotes (if n % 2 = 1 then w * z else w) := by
        split
        · exact hr.mul hb
        · exact hr
      have h := ih hnext (hb.mul hb)
      rwa [squaring_step] at h

theorem Denotes.natPower (hb : b.Denotes z) (n : ℕ) : (b.natPower n).Denotes (z ^ n) := by
  have h := denotes_one.powLoop hb n
  rwa [one_mul] at h

theorem natPower_eq_plainPower (hb : b.Denotes z) (n : ℕ) : b.natPower n = b.plainPower n :=
  (hb.natPower n).unique (hb.plainPower n)

theorem Denotes.smallExponent? {e : Complex ν} {n : ℤ} (he : e.Denotes n) (hn : n.natAbs ≤ 64) :
    e.smallExponent? = some n := by
  obtain ⟨p, q, hre, him, hz⟩ := he
  obtain ⟨hp, hq⟩ : (n : ℝ) = p ∧ (0 : ℝ) = q := by simpa using Complex.ext_iff.mp hz
  obtain rfl : (n : ℚ) = p := by exact_mod_cast hp
  obtain rfl : (0 : ℚ) = q := by exact_mod_cast hq
  rw [Complex.smallExponent?, toInt?_of_toRat? hre]
  exact if_pos ⟨ExactNumber.isZero_of_toRat? him, hn⟩

theorem intPower_of_zero (hb : b.Denotes 0) {n : ℤ} (hn : n < 0) : b.intPower n = none := by
  have hpower := hb.natPower n.natAbs
  rw [zero_pow (by omega)] at hpower
  rw [intPower, if_pos hn]
  exact hpower.div_zero

/-- A negative power is one divided by the positive power. -/
theorem Denotes.intPower (hb : b.Denotes z) {n : ℤ} (hn : z = 0 → 0 ≤ n) :
    ∃ v, b.intPower n = some v ∧ v.Denotes (z ^ n) := by
  have hpower := hb.natPower n.natAbs
  rw [Complex.intPower]
  split
  · next hneg =>
    have hz : z ≠ 0 := fun h => absurd (hn h) (by omega)
    obtain ⟨v, hv, hdenotes⟩ := denotes_one.div hpower (pow_ne_zero _ hz)
    refine ⟨v, hv, ?_⟩
    have hzpow : z ^ n = 1 / z ^ n.natAbs := by
      rw [one_div, ← zpow_natCast, ← zpow_neg]
      congr 1
      omega
    rwa [hzpow]
  · next hpos =>
    refine ⟨_, rfl, ?_⟩
    have hzpow : z ^ n = z ^ n.natAbs := by
      rw [← zpow_natCast]
      congr 1
      omega
    rwa [hzpow]

end Complex

section IntegerPowers

variable {ν : Type} [Elementary ν] [ExactNumber ν]

theorem Complex.pow_of_denotes {e : Complex ν} {n : ℤ} (b : Complex ν) (he : e.Denotes n)
    (hn : n.natAbs ≤ 64) : b.pow e = b.intPower n := by
  rw [pow, he.smallExponent? hn]

/-- Repeated squaring gives the power of any base. An integer power of at most 64 is undefined for
negative powers of zero only, and a negative power is inverse to the positive one. -/
theorem Complex.pow_eq_plainPower {b : Complex ν} {z : ℂ} (hb : b.Denotes z) :
    (∀ n : ℕ, powLoop (ofReal one) b n = b.plainPower n ∧ (b.plainPower n).Denotes (z ^ n)) ∧
      ∀ (e : Complex ν) (n : ℤ), e.Denotes n → n.natAbs ≤ 64 →
        (b.pow e = none ↔ b = ofReal zero ∧ n < 0) ∧
          ∀ v, b.pow e = some v → v.Denotes (z ^ n) ∧
            (n < 0 → v.mul (b.plainPower n.natAbs) = ofReal one) := by
  refine ⟨fun n => ⟨natPower_eq_plainPower hb n, hb.plainPower n⟩, ?_⟩
  intro e n he hn
  rw [pow_of_denotes b he hn]
  by_cases hdefined : z = 0 → 0 ≤ n
  · obtain ⟨v, hv, hdenotes⟩ := hb.intPower hdefined
    constructor
    · rw [hv]
      constructor
      · exact fun h => absurd h (Option.some_ne_none v)
      · rintro ⟨rfl, hneg⟩
        exact absurd (hdefined (hb.value_unique denotes_zero)) (by omega)
    · rintro v' hv'
      obtain rfl : v = v' := Option.some.inj (hv.symm.trans hv')
      refine ⟨hdenotes, fun hneg => ?_⟩
      have hz : z ≠ 0 := fun h => absurd (hdefined h) (by omega)
      have hone : z ^ n * z ^ n.natAbs = 1 := by
        rw [← zpow_natCast, ← zpow_add₀ hz, show n + (n.natAbs : ℤ) = 0 by omega, zpow_zero]
      have hproduct := hdenotes.mul (hb.plainPower n.natAbs)
      rw [hone] at hproduct
      exact hproduct.unique denotes_one
  · obtain ⟨rfl, hneg⟩ : z = 0 ∧ n < 0 := by
      rw [Classical.not_imp] at hdefined
      exact ⟨hdefined.1, by omega⟩
    rw [intPower_of_zero hb hneg]
    refine ⟨iff_of_true rfl ⟨hb.unique denotes_zero, hneg⟩, ?_⟩
    rintro v ⟨⟩

end IntegerPowers

@[reducible] def Exact.withoutFunctions : Elementary Exact where
  sqrt _ := .undefined
  exp _ := .undefined
  log _ := .undefined
  sin _ := .undefined
  cos _ := .undefined
  sinh _ := .undefined
  cosh _ := .undefined
  asin _ := .undefined
  acos _ := .undefined
  atan _ := .undefined
  asinh _ := .undefined
  acosh _ := .undefined
  atanh _ := .undefined
  floor _ := .undefined
  atan2 _ _ := .undefined
  power _ _ := .undefined

theorem Complex.pow_one_add_i :
    letI := Exact.withoutFunctions
    let b : Complex Exact := ⟨.finite 1, .finite 1⟩
    let e : Complex Exact := ⟨.finite (-4), .finite 0⟩
    b.Denotes (1 + Complex.I) ∧ e.Denotes (-4 : ℤ) ∧
      ∃ v, b.pow e = some v ∧ v.Denotes ((1 + Complex.I) ^ (-4 : ℤ)) ∧
        v.mul (b.plainPower 4) = ofReal one := by
  let := Exact.withoutFunctions
  intro b e
  have hb : b.Denotes (1 + Complex.I) := ⟨1, 1, rfl, rfl, by apply Complex.ext <;> simp⟩
  have he : e.Denotes (-4 : ℤ) := ⟨-4, 0, rfl, rfl, by apply Complex.ext <;> simp⟩
  obtain ⟨hnone, hsome⟩ := (pow_eq_plainPower hb).2 e (-4) he (by decide)
  have hne : b.pow e ≠ none := by
    rw [Ne, hnone]
    rintro ⟨h, -⟩
    exact one_ne_zero (Exact.finite.inj (congrArg Complex.re h))
  obtain ⟨v, hv⟩ := Option.ne_none_iff_exists'.mp hne
  exact ⟨hb, he, v, hv, (hsome v hv).1, (hsome v hv).2 (by decide)⟩

end Formulary
