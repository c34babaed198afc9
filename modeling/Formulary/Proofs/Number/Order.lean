import Formulary.Proofs.Number.Nearest
import Mathlib

namespace Formulary

open Number

def Number.toExact {ν : Type} [Number ν] (x : ν) : Exact :=
  match toRat? x with
  | some q => .finite q
  | none => if x == infinity then .infinite false else if x == -(infinity : ν) then .infinite true
    else .undefined

/-- Numbers that are compared as exact numbers are. A quotient by a positive number is positive only
if the dividend is. -/
class OrderedNumber (ν : Type) [Number ν] : Prop extends RationalNumber ν where
  less_toExact : ∀ x y : ν, less (toExact x) (toExact y) = less x y
  beq_toExact : ∀ x y : ν, (toExact x == toExact y) = (x == y)
  toExact_infinity : toExact (infinity : ν) = .infinite false
  toExact_neg_infinity : toExact (-(infinity : ν)) = .infinite true
  pos_of_isPositive_div : ∀ {x y : ν} {p q : ℚ}, toRat? x = some p → toRat? y = some q → 0 < q →
    isPositive (x / y) = true → 0 < p

theorem Number.toExact_of_toRat? {ν : Type} [Number ν] {x : ν} {q : ℚ} (h : toRat? x = some q) :
    toExact x = .finite q := by
  rw [toExact, h]

section Comparisons

variable {ν : Type} [Number ν]

theorem Number.toExact_zero [RationalNumber ν] : toExact (zero : ν) = zero :=
  toExact_of_toRat? RationalNumber.toRat?_zero

variable [OrderedNumber ν] (x : ν)

theorem Number.isZero_toExact : isZero (toExact x) = isZero x := by
  rw [isZero, isZero, ← (toExact_zero : toExact (zero : ν) = zero), OrderedNumber.beq_toExact]

theorem Number.isPositive_toExact : isPositive (toExact x) = isPositive x := by
  rw [isPositive, isPositive, ← (toExact_zero : toExact (zero : ν) = zero),
    OrderedNumber.less_toExact]

theorem Number.isNegative_toExact : isNegative (toExact x) = isNegative x := by
  rw [isNegative, isNegative, ← (toExact_zero : toExact (zero : ν) = zero),
    OrderedNumber.less_toExact]

theorem Number.isPositive_iff {x : ν} {q : ℚ} (h : toRat? x = some q) :
    isPositive x = true ↔ 0 < q := by
  rw [← isPositive_toExact, toExact_of_toRat? h]
  exact decide_eq_true_iff

theorem Number.isNegative_iff {x : ν} {q : ℚ} (h : toRat? x = some q) :
    isNegative x = true ↔ q < 0 := by
  rw [← isNegative_toExact, toExact_of_toRat? h]
  exact decide_eq_true_iff

/-- What is not below zero and has no value is written as a word. -/
theorem Number.text_of_not_finite {x : ν} (hx : toRat? x = none) (h : isNegative x = false) :
    text x = "NaN" ∨ text x = "Infinity" := by
  rw [text]
  by_cases hnan : isNaN x = true
  · exact .inl (if_pos hnan)
  · rw [if_neg hnan]
    rw [Bool.not_eq_true, isNaN, Bool.not_eq_false', ← OrderedNumber.beq_toExact, toExact, hx] at hnan
    rw [← isNegative_toExact, toExact, hx] at h
    simp only at hnan h
    split at hnan
    · next hinfinity => exact .inr (if_pos hinfinity)
    · next hinfinity =>
      rw [if_neg hinfinity] at h
      split at hnan
      · next hnegative =>
        rw [if_pos hnegative] at h
        cases h
      · cases hnan

end Comparisons

@[simp] theorem Exact.toExact_eq (x : Exact) : toExact x = x := by
  cases x with
  | infinite s => cases s <;> rfl
  | _ => rfl

instance : OrderedNumber Exact where
  less_toExact := fun x y => by rw [Exact.toExact_eq, Exact.toExact_eq]
  beq_toExact := fun x y => by rw [Exact.toExact_eq, Exact.toExact_eq]
  toExact_infinity := rfl
  toExact_neg_infinity := rfl
  pos_of_isPositive_div := by
    intro x y p q hx hy hq hpos
    cases x with
    | finite a =>
        cases y with
        | finite b =>
            obtain rfl : a = p := Option.some.inj hx
            obtain rfl : b = q := Option.some.inj hy
            have hquotient : Exact.finite a / Exact.finite b = .finite (a / b) := if_neg hq.ne'
            rw [hquotient] at hpos
            have hlt : 0 < a / b := of_decide_eq_true hpos
            exact (div_pos_iff_of_pos_right hq).mp hlt
        | _ => cases hy
    | _ => cases hx

namespace Double

open Float.Model Float.Model.UnpackedFloat

def place : UnpackedFloat → Exact
  | .finite s m e _ => .finite ((s.apply m : ℤ) * 2 ^ e)
  | .zero _ => .finite 0
  | .infinity .positive => .infinite false
  | .infinity .negative => .infinite true
  | .notANumber => .undefined

variable {m m' : ℕ} {e e' : ℤ}

/-- A larger exponent makes a larger magnitude. -/
theorem magnitude_lt {s s' : Sign} {hm : 0 < m} {hm' : 0 < m'} (hu : Canonical (.finite s m e hm))
    (hv : Canonical (.finite s' m' e' hm')) (h : e < e' ∨ e = e' ∧ m < m') :
    (m : ℚ) * 2 ^ e < m' * 2 ^ e' := by
  obtain ⟨hlt, hmin, -, -⟩ := hu
  obtain ⟨-, -, -, hnormal⟩ := hv
  rcases h with hexponent | ⟨rfl, hmantissa⟩
  · have hlarge : 2 ^ 52 ≤ m' := hnormal.resolve_right (by omega)
    calc (m : ℚ) * 2 ^ e < (2 ^ 53 : ℕ) * 2 ^ e := by gcongr
      _ = (2 ^ 52 : ℕ) * 2 ^ (e + 1) := by
          rw [zpow_add₀ (by norm_num)]
          push_cast
          ring
      _ ≤ m' * 2 ^ e' := by
          gcongr
          · norm_num
          · omega
  · gcongr

theorem compare_magnitude {s s' : Sign} {hm : 0 < m} {hm' : 0 < m'}
    (hu : Canonical (.finite s m e hm)) (hv : Canonical (.finite s' m' e' hm')) :
    (compare e e').then (compare m m') = compare ((m : ℚ) * 2 ^ e) (m' * 2 ^ e') := by
  rcases lt_trichotomy e e' with he | rfl | he
  · rw [compare_lt_iff_lt.mpr he, compare_lt_iff_lt.mpr (magnitude_lt hu hv (.inl he))]
    rfl
  · rcases lt_trichotomy m m' with hlt | rfl | hlt
    · rw [compare_eq_iff_eq.mpr rfl, compare_lt_iff_lt.mpr hlt,
        compare_lt_iff_lt.mpr (magnitude_lt hu hv (.inr ⟨rfl, hlt⟩))]
      rfl
    · rw [compare_eq_iff_eq.mpr rfl, compare_eq_iff_eq.mpr rfl, compare_eq_iff_eq.mpr rfl]
      rfl
    · rw [compare_eq_iff_eq.mpr rfl, compare_gt_iff_gt.mpr hlt,
        compare_gt_iff_gt.mpr (magnitude_lt hv hu (.inr ⟨rfl, hlt⟩))]
      rfl
  · rw [compare_gt_iff_gt.mpr he, compare_gt_iff_gt.mpr (magnitude_lt hv hu (.inl he))]
    rfl

theorem compare_neg_neg (p q : ℚ) : compare (-p) (-q) = (compare p q).swap := by
  rcases lt_trichotomy p q with h | rfl | h
  · rw [compare_lt_iff_lt.mpr h, compare_gt_iff_gt.mpr (neg_lt_neg h), Ordering.swap_lt]
  · rw [compare_eq_iff_eq.mpr rfl, compare_eq_iff_eq.mpr rfl, Ordering.swap_eq]
  · rw [compare_gt_iff_gt.mpr h, compare_lt_iff_lt.mpr (neg_lt_neg h), Ordering.swap_gt]

theorem apply_positive_mul (m : ℕ) (e : ℤ) :
    ((Sign.positive.apply m : ℤ) : ℚ) * 2 ^ e = m * 2 ^ e := rfl

theorem apply_negative_mul (m : ℕ) (e : ℤ) :
    ((Sign.negative.apply m : ℤ) : ℚ) * 2 ^ e = -(m * 2 ^ e) := by
  rw [Sign.apply, Int.cast_neg, neg_mul]
  rfl

/-- Numbers of one sign are compared by their magnitudes, those of two signs by the signs. -/
theorem compare_finite {s s' : Sign} {hm : 0 < m} {hm' : 0 < m'} (hu : Canonical (.finite s m e hm))
    (hv : Canonical (.finite s' m' e' hm')) :
    UnpackedFloat.compare (.finite s m e hm) (.finite s' m' e' hm') =
      some (compare ((s.apply m : ℤ) * 2 ^ e : ℚ) ((s'.apply m' : ℤ) * 2 ^ e')) := by
  have hmagnitude := compare_magnitude hu hv
  have hpos : (0 : ℚ) < m * 2 ^ e := by positivity
  have hpos' : (0 : ℚ) < m' * 2 ^ e' := by positivity
  cases s with
  | positive => cases s' with
    | positive => exact congrArg some hmagnitude
    | negative =>
        rw [apply_positive_mul, apply_negative_mul,
          compare_gt_iff_gt.mpr ((neg_neg_of_pos hpos').trans hpos)]
        rfl
  | negative => cases s' with
    | positive =>
        rw [apply_negative_mul, apply_positive_mul,
          compare_lt_iff_lt.mpr ((neg_neg_of_pos hpos).trans hpos')]
        rfl
    | negative =>
        rw [apply_negative_mul, apply_negative_mul, compare_neg_neg, ← hmagnitude]
        rfl

theorem compare_finite_zero (s s' : Sign) (hm : 0 < m) :
    UnpackedFloat.compare (.finite s m e hm) (.zero s') =
      some (compare ((s.apply m : ℤ) * 2 ^ e : ℚ) 0) := by
  have hpos : (0 : ℚ) < m * 2 ^ e := by positivity
  cases s with
  | positive => exact congrArg some (compare_gt_iff_gt.mpr hpos).symm
  | negative =>
      rw [apply_negative_mul, compare_lt_iff_lt.mpr (neg_neg_of_pos hpos)]
      rfl

theorem compare_zero_finite (s s' : Sign) (hm : 0 < m) :
    UnpackedFloat.compare (.zero s') (.finite s m e hm) =
      some (compare (0 : ℚ) ((s.apply m : ℤ) * 2 ^ e)) := by
  have hpos : (0 : ℚ) < m * 2 ^ e := by positivity
  cases s with
  | positive => exact congrArg some (compare_lt_iff_lt.mpr hpos).symm
  | negative =>
      rw [apply_negative_mul, compare_gt_iff_gt.mpr (neg_neg_of_pos hpos)]
      rfl

theorem compare_place {u v : UnpackedFloat} (hu : Canonical u) (hv : Canonical v) {p q : ℚ}
    (hp : place u = .finite p) (hq : place v = .finite q) :
    UnpackedFloat.compare u v = some (compare p q) := by
  cases u with
  | finite s m e hm =>
      obtain rfl := Exact.finite.inj hp
      cases v with
      | finite s' m' e' hm' =>
          obtain rfl := Exact.finite.inj hq
          exact compare_finite hu hv
      | zero s' =>
          obtain rfl := Exact.finite.inj hq
          exact compare_finite_zero s s' hm
      | infinity s' => cases s' <;> cases hq
      | notANumber => cases hq
  | zero s =>
      obtain rfl := Exact.finite.inj hp
      cases v with
      | finite s' m' e' hm' =>
          obtain rfl := Exact.finite.inj hq
          exact compare_zero_finite s' s hm'
      | zero s' =>
          obtain rfl := Exact.finite.inj hq
          rw [compare_eq_iff_eq.mpr rfl]
          rfl
      | infinity s' => cases s' <;> cases hq
      | notANumber => cases hq
  | infinity s => cases s <;> cases hp
  | notANumber => cases hp

/-- The comparisons that involve no two rationals go by the kinds of the numbers. -/
theorem compare_eq {u v : UnpackedFloat} (hu : Canonical u) (hv : Canonical v) :
    (UnpackedFloat.compare u v == some .lt) = less (place u) (place v) ∧
      (UnpackedFloat.compare u v == some .eq) = (place u == place v) := by
  by_cases hfinite : ∃ p q, place u = .finite p ∧ place v = .finite q
  · obtain ⟨p, q, hp, hq⟩ := hfinite
    rw [compare_place hu hv hp hq, hp, hq]
    change (some (compare p q) == some .lt) = decide (p < q) ∧
      (some (compare p q) == some .eq) = decide (p = q)
    rcases lt_trichotomy p q with h | rfl | h
    · simp [compare_lt_iff_lt.mpr h, h, h.ne]
    · simp
    · simp [compare_gt_iff_gt.mpr h, h.not_gt, h.ne']
  · cases u with
    | finite s m e hm => cases v with
      | finite => exact absurd ⟨_, _, rfl, rfl⟩ hfinite
      | zero => exact absurd ⟨_, _, rfl, rfl⟩ hfinite
      | infinity s' => cases s <;> cases s' <;> exact ⟨rfl, rfl⟩
      | notANumber => exact ⟨rfl, rfl⟩
    | zero s => cases v with
      | finite => exact absurd ⟨_, _, rfl, rfl⟩ hfinite
      | zero => exact absurd ⟨_, _, rfl, rfl⟩ hfinite
      | infinity s' => cases s' <;> exact ⟨rfl, rfl⟩
      | notANumber => exact ⟨rfl, rfl⟩
    | infinity s => cases v with
      | infinity s' => cases s <;> cases s' <;> exact ⟨rfl, rfl⟩
      | notANumber => cases s <;> exact ⟨rfl, rfl⟩
      | finite s' => cases s <;> cases s' <;> exact ⟨rfl, rfl⟩
      | zero s' => cases s <;> exact ⟨rfl, rfl⟩
    | notANumber => cases v <;> exact ⟨rfl, rfl⟩

theorem toExact_eq (x : Float) : toExact x = place x.toModel.unpack := by
  have hpos : (Number.infinity : Float).toModel.unpack = .infinity .positive := by rfl
  have hneg : (-Number.infinity : Float).toModel.unpack = .infinity .negative := by rfl
  have hx : (Number.toRat? x : Option ℚ) = unpackedRat? x.toModel.unpack := Double.toRat?_eq x
  have hbeq (y : Float) :
      (x == y) = (UnpackedFloat.compare x.toModel.unpack y.toModel.unpack == some .eq) := beq_eq x y
  rw [toExact, hx, hbeq, hbeq, hpos, hneg]
  cases x.toModel.unpack with
  | infinity s => cases s <;> rfl
  | _ => rfl

theorem less_toExact (x y : Float) : less (toExact x) (toExact y) = Number.less x y := by
  rw [less_eq, (compare_eq (canonical_toModel x) (canonical_toModel y)).1, toExact_eq, toExact_eq]

theorem unpackSign_pack (s : Sign) (hm : 0 < m) :
    unpackSign (UnpackedFloat.pack .binary64 (.finite s m e hm)) = s.toBitVec := by
  rw [UnpackedFloat.pack]
  simp only
  split
  · cases s <;> rfl
  · split <;> exact unpackSign_packComponents ..

theorem not_pos_of_unpackSign {b : BitVec Format.binary64.numBits}
    (hb : Sign.ofBitVec (unpackSign b) = .negative) :
    less (.finite 0) (place (UnpackedFloat.unpack .binary64 b)) = false := by
  rcases unpack_kinds hb with h | h | h | ⟨m, e, hm, h⟩ <;> rw [h]
  · rfl
  · rfl
  · rfl
  · have hmagnitude : (0 : ℚ) ≤ m * 2 ^ e := by positivity
    refine decide_eq_false ?_
    rw [apply_negative_mul]
    exact not_lt.mpr (neg_nonpos.mpr hmagnitude)

theorem not_neg_of_unpackSign {b : BitVec Format.binary64.numBits}
    (hb : Sign.ofBitVec (unpackSign b) = .positive) :
    less (place (UnpackedFloat.unpack .binary64 b)) (.finite 0) = false := by
  rcases unpack_kinds hb with h | h | h | ⟨m, e, hm, h⟩ <;> rw [h]
  · rfl
  · rfl
  · rfl
  · have hmagnitude : (0 : ℚ) ≤ m * 2 ^ e := by positivity
    exact decide_eq_false (not_lt.mpr hmagnitude)

theorem less_place_neg (u : UnpackedFloat) :
    less (place u.neg) (.finite 0) = less (.finite 0) (place u) := by
  cases u with
  | finite s m e hm =>
      change decide (_ < (0 : ℚ)) = decide ((0 : ℚ) < _)
      rw [apply_neg, Int.cast_neg, neg_mul, decide_eq_decide, neg_lt_zero]
  | infinity s => cases s <;> rfl
  | _ => rfl

theorem isNegative_of_signBit {x : Float} (h : signBit x = false) : isNegative x = false := by
  rw [isNegative, ← less_toExact, toExact_zero, toExact_eq]
  exact not_neg_of_unpackSign ((sign_eq x).trans (by rw [h, if_neg Bool.false_ne_true]))

theorem isNegative_neg_of_signBit {x : Float} (h : signBit x = true) : isNegative (-x) = false := by
  have hneg : (-x).toModel.unpack = x.toModel.unpack.neg :=
    unpack_packed (canonical_neg (canonical_toModel x))
  rw [isNegative, ← less_toExact, toExact_zero, toExact_eq, hneg]
  exact (less_place_neg _).trans (not_pos_of_unpackSign ((sign_eq x).trans (by rw [h, if_pos rfl])))

theorem isNegative_abs (x : Float) : isNegative (Number.abs x) = false := by
  rw [Number.abs]
  split
  · next h => exact isNegative_neg_of_signBit h
  · next h => exact isNegative_of_signBit (Bool.eq_false_of_not_eq_true h)

theorem isNegative_neg {x : Float} (h : isNegative x = true) : isNegative (-x) = false := by
  apply isNegative_neg_of_signBit
  by_contra hsign
  rw [isNegative_of_signBit (Bool.eq_false_of_not_eq_true hsign)] at h
  cases h

theorem not_isPositive_rounded (r : ℚ) : isPositive (packed (rounded .negative r)) = false := by
  rw [isPositive, ← less_toExact, toExact_zero, toExact_eq]
  apply not_pos_of_unpackSign
  change Sign.ofBitVec (unpackSign (UnpackedFloat.pack .binary64 (rounded .negative r))) = .negative
  rw [rounded, ofMantissa]
  split
  · rfl
  · rw [unpackSign_pack, ofBitVec_toBitVec]

theorem pos_of_isPositive_div {x y : Float} {p q : ℚ} (hx : Number.toRat? x = some p)
    (hy : Number.toRat? y = some q) (hq : 0 < q) (h : isPositive (x / y) = true) : 0 < p := by
  rcases lt_trichotomy p 0 with hp | rfl | hp
  · rw [div_eq hx hy hp.ne hq, signOf, if_pos hp, not_isPositive_rounded] at h
    cases h
  · have hquotient : Number.toRat? (x / y) = some (0 / q) := toRat?_div hx hy hq fun hne =>
      absurd rfl hne
    rw [isPositive, ← less_toExact, toExact_zero, toExact_of_toRat? hquotient, zero_div] at h
    exact of_decide_eq_true h
  · exact hp

instance : OrderedNumber Float where
  less_toExact := less_toExact
  beq_toExact := fun x y => by
    rw [beq_eq, (compare_eq (canonical_toModel x) (canonical_toModel y)).2, toExact_eq, toExact_eq]
  toExact_infinity := by rw [toExact_eq]; rfl
  toExact_neg_infinity := by rw [toExact_eq]; rfl
  pos_of_isPositive_div := pos_of_isPositive_div

end Double

end Formulary
