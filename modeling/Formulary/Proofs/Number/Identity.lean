import Formulary.Proofs.Number.Order
import Formulary.Proofs.Number.Written
import Mathlib

namespace Formulary.Double

open Number Float.Model Float.Model.UnpackedFloat

theorem eq_of_unpack_eq {x y : Float} (h : x.toModel.unpack = y.toModel.unpack) : x = y := by
  rw [← Float.toBits_inj, ← UInt64.toBitVec_inj]
  exact (unpack_inj_of_valid x.toModel.valid y.toModel.valid).mp h

theorem unpack_neg (x : Float) : (-x).toModel.unpack = x.toModel.unpack.neg :=
  unpack_packed (canonical_neg (canonical_toModel x))

theorem neg_neg (x : Float) : -(-x) = x := by
  apply eq_of_unpack_eq
  rw [unpack_neg, unpack_neg]
  cases x.toModel.unpack with
  | notANumber => rfl
  | infinity s => cases s <;> rfl
  | zero s => cases s <;> rfl
  | finite s m e hm => cases s <;> rfl

/-- A rational other than zero is that of one double. -/
theorem eq_of_toRat? {x y : Float} {q : ℚ} (hx : Number.toRat? x = some q)
    (hy : Number.toRat? y = some q) (hq : q ≠ 0) : x = y := by
  refine eq_of_beq ?_ hy hq
  rw [← OrderedNumber.beq_toExact, toExact_of_toRat? hx, toExact_of_toRat? hy]
  exact decide_eq_true rfl

theorem eq_zero_or_eq_neg_zero {x : Float} (hx : Number.toRat? x = some 0) : x = 0 ∨ x = -0 := by
  rcases unpack_of_toRat? hx with ⟨s, hu, -⟩ | ⟨s, m, e, hm, -, hq⟩
  · cases s with
    | positive => exact .inl (eq_of_unpack_eq hu)
    | negative => exact .inr (eq_of_unpack_eq (hu.trans (unpack_neg 0).symm))
  · have hm0 : s.apply m ≠ 0 := by cases s <;> simp [Sign.apply] <;> omega
    exact absurd hq.symm (mul_ne_zero (by exact_mod_cast hm0) (by positivity))

theorem eq_zero_of_toRat? {x : Float} (hx : Number.toRat? x = some 0)
    (hsign : Number.signBit x = false) : x = 0 := by
  rcases eq_zero_or_eq_neg_zero hx with h | rfl
  · exact h
  · have hnegative : Number.signBit (-0 : Float) = true := by decide +kernel
    rw [hnegative] at hsign
    cases hsign

theorem div_one (x : Float) : x / one = x := by
  have hdiv : x / one =
      packed (UnpackedFloat.div .binary64 x.toModel.unpack (one : Float).toModel.unpack) := rfl
  have hone : ∃ m e h, (one : Float).toModel.unpack = .finite .positive m e h := ⟨_, _, _, rfl⟩
  obtain ⟨m', e', h', hone⟩ := hone
  by_cases hfinite : ∃ q, Number.toRat? x = some q ∧ q ≠ 0
  · obtain ⟨q, hx, hq⟩ := hfinite
    exact eq_of_toRat? (WrittenNumber.toRat?_div_one hx RationalNumber.toRat?_one) hx hq
  · rw [hdiv, hone]
    apply eq_of_unpack_eq
    cases hu : x.toModel.unpack with
    | notANumber => exact unpack_packed (u := .notANumber) trivial
    | infinity s => cases s <;> exact unpack_packed (u := .infinity _) trivial
    | zero s => cases s <;> exact unpack_packed (u := .zero _) trivial
    | finite s m e hm =>
        refine absurd ⟨_, (toRat?_eq x).trans (by rw [hu]; rfl), ?_⟩ hfinite
        have hm0 : s.apply m ≠ 0 := by cases s <;> simp [Sign.apply] <;> omega
        exact mul_ne_zero (by exact_mod_cast hm0) (by positivity)

end Formulary.Double
