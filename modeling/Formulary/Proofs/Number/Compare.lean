import Formulary.Proofs.Number.Packing
import Formulary.Proofs.Number.Rational
import Mathlib

namespace Formulary.Double

open Float.Model Float.Model.UnpackedFloat

def packed (u : UnpackedFloat) : Float := .ofModel (.pack u)

theorem unpack_packed {u : UnpackedFloat} (h : Canonical u) : (packed u).toModel.unpack = u :=
  unpack_pack h

theorem canonical_toModel (x : Float) : Canonical x.toModel.unpack := canonical_unpack (bits x)

theorem toRat?_packed {u : UnpackedFloat} (h : Canonical u) : toRat? (packed u) = unpackedRat? u := by
  rw [toRat?_eq, unpack_packed h]

theorem canonical_neg {u : UnpackedFloat} (h : Canonical u) : Canonical u.neg := by
  cases u <;> exact h

theorem canonical_abs {u : UnpackedFloat} (h : Canonical u) : Canonical u.abs := by
  cases u <;> exact h

theorem apply_neg (s : Sign) (n : ℤ) : (-s).apply n = -s.apply n := by
  cases s with
  | negative => exact (neg_neg n).symm
  | positive => rfl

theorem toRat?_neg (x : Float) : toRat? (-x) = (toRat? x).map Neg.neg := by
  have hneg : -x = packed x.toModel.unpack.neg := rfl
  rw [hneg, toRat?_packed (canonical_neg (canonical_toModel x)), toRat?_eq]
  cases x.toModel.unpack with
  | finite s m e hm =>
      simp only [UnpackedFloat.neg, unpackedRat?, apply_neg, Option.map_some]
      push_cast
      rw [neg_mul]
  | _ => rfl

theorem toRat?_abs (x : Float) : toRat? x.abs = (toRat? x).map fun q => |q| := by
  have habs : x.abs = packed x.toModel.unpack.abs := rfl
  rw [habs, toRat?_packed (canonical_abs (canonical_toModel x)), toRat?_eq]
  cases x.toModel.unpack with
  | finite s m e hm =>
      have hpos : (0 : ℚ) < m * 2 ^ e := by positivity
      cases s <;> simp [UnpackedFloat.abs, unpackedRat?, Sign.apply, abs_of_pos hpos]
  | _ => rfl

theorem unpack_of_toRat? {x : Float} {q : ℚ} (h : toRat? x = some q) :
    (∃ s, x.toModel.unpack = .zero s ∧ q = 0) ∨
      ∃ (s : Sign) (m : ℕ) (e : ℤ) (hm : 0 < m), x.toModel.unpack = .finite s m e hm ∧
      q = (s.apply m : ℤ) * 2 ^ e := by
  rw [toRat?_eq] at h
  cases hu : x.toModel.unpack with
  | finite s m e hm =>
      rw [hu] at h
      exact .inr ⟨s, m, e, hm, rfl, (Option.some.inj h).symm⟩
  | zero s =>
      rw [hu] at h
      exact .inl ⟨s, rfl, (Option.some.inj h).symm⟩
  | infinity s =>
      rw [hu] at h
      cases h
  | notANumber =>
      rw [hu] at h
      cases h

theorem beq_eq (x y : Float) :
    (x == y) = (UnpackedFloat.compare x.toModel.unpack y.toModel.unpack == some .eq) := rfl

theorem less_eq (x y : Float) :
    Number.less x y = (UnpackedFloat.compare x.toModel.unpack y.toModel.unpack == some .lt) := by
  change decide (Float.lt x y = true) = _
  rw [Bool.decide_eq_true]
  change decide (UnpackedFloat.lt _ _ = true) = _
  rw [Bool.decide_eq_true]
  rfl

theorem toRat?_eq_of_beq {x y : Float} (h : (x == y) = true) : toRat? x = toRat? y := by
  rw [beq_eq, beq_iff_eq] at h
  rw [toRat?_eq, toRat?_eq]
  generalize x.toModel.unpack = u at h
  generalize y.toModel.unpack = v at h
  cases u with
  | finite s m e hm =>
      cases v with
      | finite s' m' e' hm' =>
          cases s <;> cases s' <;> simp [UnpackedFloat.compare, Ordering.swap_eq_iff_eq_swap] at h <;>
            simp only [unpackedRat?, h.1, h.2]
      | zero s' => cases s <;> cases h
      | infinity s' => cases s <;> cases s' <;> cases h
      | notANumber => cases h
  | zero s =>
      cases v with
      | finite s' m' e' hm' => cases s' <;> cases h
      | zero s' => rfl
      | infinity s' => cases s' <;> cases h
      | notANumber => cases h
  | infinity s =>
      cases v with
      | finite s' m' e' hm' => cases s <;> cases h
      | zero s' => cases s <;> cases h
      | infinity s' => rfl
      | notANumber => cases h
  | notANumber => cases h

theorem eq_of_beq {x y : Float} {q : ℚ} (h : (x == y) = true) (hy : Number.toRat? y = some q)
    (hq : q ≠ 0) : x = y := by
  have hx : toRat? x = some q := (toRat?_eq_of_beq h).trans hy
  rw [beq_eq, beq_iff_eq] at h
  rcases unpack_of_toRat? hx with ⟨-, -, rfl⟩ | ⟨s, m, e, hm, hu, -⟩
  · exact absurd rfl hq
  rcases unpack_of_toRat? hy with ⟨-, -, rfl⟩ | ⟨s', m', e', hm', hv, -⟩
  · exact absurd rfl hq
  rw [hu, hv] at h
  cases s <;> cases s' <;> simp [UnpackedFloat.compare, Ordering.swap_eq_iff_eq_swap] at h
    <;> obtain ⟨rfl, rfl⟩ := h <;> exact eq_of_unpack hu hv

theorem beq_self_of_toRat? {x : Float} {q : ℚ} (h : toRat? x = some q) : (x == x) = true := by
  rw [beq_eq, beq_iff_eq]
  rcases unpack_of_toRat? h with ⟨s, hu, -⟩ | ⟨s, m, e, hm, hu, -⟩ <;> rw [hu]
  · rfl
  · cases s <;> simp [UnpackedFloat.compare]

theorem isZero_of_toRat? {x : Float} (h : toRat? x = some 0) : Number.isZero x = true := by
  have hzero : (Number.zero : Float).toModel.unpack = .zero .positive := by rfl
  change (x == Number.zero) = true
  rw [beq_eq, beq_iff_eq, hzero]
  rcases unpack_of_toRat? h with ⟨s, hu, -⟩ | ⟨s, m, e, hm, hu, hq⟩
  · rw [hu]
    rfl
  · have hm0 : s.apply m ≠ 0 := by cases s <;> simp [Sign.apply] <;> omega
    exact absurd hq.symm (mul_ne_zero (by exact_mod_cast hm0) (by positivity))

theorem isInfinite_of_toRat? {x : Float} {q : ℚ} (h : toRat? x = some q) :
    Number.isInfinite x = false := by
  have hpos : toRat? infinity = none := by decide +kernel
  have hneg : toRat? (-infinity) = none := by
    rw [toRat?_neg, hpos]
    rfl
  rw [Number.isInfinite, Bool.or_eq_false_iff]
  constructor <;> apply Bool.eq_false_of_not_eq_true <;> intro hc
  · have := toRat?_eq_of_beq hc
    change _ = toRat? infinity at this
    simp [h, hpos] at this
  · have := toRat?_eq_of_beq hc
    change _ = toRat? (-infinity) at this
    simp [h, hneg] at this

theorem less_zero_iff {x : Float} {q : ℚ} (h : toRat? x = some q) :
    Number.isNegative x = true ↔ q < 0 := by
  have hzero : (Number.zero : Float).toModel.unpack = .zero .positive := by rfl
  rw [Number.isNegative, less_eq, hzero, beq_iff_eq]
  rcases unpack_of_toRat? h with ⟨s, hu, rfl⟩ | ⟨s, m, e, hm, hu, rfl⟩ <;> rw [hu]
  · simp [UnpackedFloat.compare]
  · have hpos : (0 : ℚ) < m * 2 ^ e := by positivity
    cases s with
    | negative => simpa [UnpackedFloat.compare, Sign.apply] using hpos
    | positive => simpa [UnpackedFloat.compare, Sign.apply] using hpos.le

theorem sign_of_signBit {x : Float} {q : ℚ} (h : toRat? x = some q) :
    if signBit x then q ≤ 0 else 0 ≤ q := by
  rw [toRat?, Option.map_eq_some_iff] at h
  obtain ⟨p, hp, rfl⟩ := h
  have hsign : p.negative = signBit x := by
    simp only [parts?] at hp
    split at hp
    · cases hp
    · split at hp <;> cases hp <;> rfl
  have hpos : (0 : ℚ) ≤ p.mantissa * 2 ^ p.exponent := by positivity
  rw [Parts.toRat_eq, hsign]
  split
  · simpa using hpos
  · simpa using hpos

instance : RationalNumber Float where
  toRat?_eq_of_beq := toRat?_eq_of_beq
  toRat?_neg := toRat?_neg
  toRat?_zero := by decide +kernel
  toRat?_one := by decide +kernel
  toRat?_two := by decide +kernel
  toRat?_minusOne := by decide +kernel

end Formulary.Double
