import Formulary.Proofs.Value.Interpretation
import Mathlib

namespace Formulary

open Interpretation

noncomputable def realRoot (b : ℝ) : ℂ := if 0 ≤ b then (√b : ℝ) else Complex.I * (√(-b) : ℝ)

structure HalfPower where
  base : ℝ
  turns : ℤ

namespace HalfPower

noncomputable def root (p : HalfPower) : ℂ := realRoot p.base ^ p.turns

noncomputable def squared (p : HalfPower) : ℝ := p.base ^ p.turns

noncomputable def quarterTurns (p : HalfPower) : ℤ := if p.base < 0 then p.turns else 0

theorem root_eq (p : HalfPower) :
    p.root = Complex.I ^ p.quarterTurns * ((√|p.base| ^ p.turns : ℝ) : ℂ) := by
  unfold root realRoot quarterTurns
  by_cases hb : p.base < 0
  · rw [if_neg (not_le.mpr hb), if_pos hb, abs_of_neg hb, mul_zpow, Complex.ofReal_zpow]
  · rw [if_pos (not_lt.mp hb), if_neg hb, abs_of_nonneg (not_lt.mp hb), zpow_zero, one_mul,
      Complex.ofReal_zpow]

theorem squared_eq (p : HalfPower) :
    p.squared = (-1) ^ p.quarterTurns * (√|p.base| ^ p.turns) ^ 2 := by
  have hs : (√|p.base| ^ p.turns) ^ 2 = |p.base| ^ p.turns := by
    rw [← zpow_natCast, ← zpow_mul, mul_comm, zpow_mul, zpow_natCast, Real.sq_sqrt (abs_nonneg _)]
  rw [hs]
  unfold squared quarterTurns
  by_cases hb : p.base < 0
  · rw [if_pos hb, abs_of_neg hb, ← mul_zpow, neg_one_mul, neg_neg]
  · rw [if_neg hb, abs_of_nonneg (not_lt.mp hb), zpow_zero, one_mul]

/-- A product of half-integer powers has a magnitude, and turns once for every quarter turn of its
factors. -/
theorem exists_magnitude (ps : List HalfPower) :
    ∃ m : ℝ, 0 ≤ m ∧ (ps.map root).prod = Complex.I ^ (ps.map quarterTurns).sum * (m : ℂ) ∧
      (ps.map squared).prod = (-1) ^ (ps.map quarterTurns).sum * m ^ 2 := by
  induction ps with
  | nil => exact ⟨1, zero_le_one, by simp, by simp⟩
  | cons p ps ih =>
      obtain ⟨m, hm, hr, hs⟩ := ih
      refine ⟨√|p.base| ^ p.turns * m, mul_nonneg (zpow_nonneg (Real.sqrt_nonneg _) _) hm, ?_, ?_⟩
      · rw [List.map_cons, List.prod_cons, List.map_cons, List.sum_cons, hr, root_eq,
          zpow_add₀ Complex.I_ne_zero, Complex.ofReal_mul]
        ring
      · rw [List.map_cons, List.prod_cons, List.map_cons, List.sum_cons, hs, squared_eq,
          zpow_add₀ (neg_ne_zero.mpr one_ne_zero)]
        ring

/-- The root of a number that has turned by so many halves. -/
theorem realRoot_turned (q : ℤ) {m : ℝ} (hm : 0 ≤ m) :
    realRoot ((-1) ^ q * m ^ 2) = (if q % 2 = 0 then 1 else Complex.I) * (m : ℂ) := by
  unfold realRoot
  by_cases hq : q % 2 = 0
  · rw [if_pos hq, (Int.even_iff.mpr hq).neg_one_zpow, one_mul, one_mul, if_pos (sq_nonneg m),
      Real.sqrt_sq hm]
  · have ho : Odd q := Int.odd_iff.mpr (by omega)
    rw [if_neg hq, ho.neg_one_zpow, neg_one_mul, neg_neg, Real.sqrt_sq hm]
    by_cases hz : m = 0
    · simp [hz]
    · rw [if_neg (not_le.mpr (neg_lt_zero.mpr (by positivity)))]

theorem I_zpow (q : ℤ) :
    Complex.I ^ q = signed (q / 2 % 2 == 1) (if q % 2 = 0 then 1 else Complex.I) := by
  have hq : Complex.I ^ q = (-1) ^ (q / 2) * Complex.I ^ (q % 2) := by
    conv_lhs => rw [← Int.mul_ediv_add_emod q 2, zpow_add₀ Complex.I_ne_zero, zpow_mul]
    norm_num
  have hr : Complex.I ^ (q % 2) = if q % 2 = 0 then 1 else Complex.I := by
    rcases Int.emod_two_eq_zero_or_one q with h | h <;> simp [h]
  rw [hq, hr]
  unfold signed
  by_cases ho : q / 2 % 2 = 1
  · rw [(Int.odd_iff.mpr ho).neg_one_zpow, neg_one_mul, if_pos (beq_iff_eq.mpr ho)]
  · have hf : (q / 2 % 2 == 1) = false := beq_false_of_ne ho
    rw [(Int.even_iff.mpr (by omega)).neg_one_zpow, one_mul, hf, if_neg Bool.false_ne_true]

/-- A product of half-integer powers is the root of the product of their squares, negated for an odd
number of half turns. -/
theorem prod_root (ps : List HalfPower) :
    (ps.map root).prod =
      signed ((ps.map quarterTurns).sum / 2 % 2 == 1) (realRoot (ps.map squared).prod) := by
  obtain ⟨m, hm, hr, hs⟩ := exists_magnitude ps
  rw [hr, hs, realRoot_turned _ hm, I_zpow]
  unfold signed
  split <;> ring

end HalfPower

end Formulary
