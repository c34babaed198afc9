import Formulary.Proofs.Number.Compare
import Formulary.Proofs.Number.Rounding
import Mathlib

namespace Formulary.Double

open Float.Model Float.Model.UnpackedFloat

def nearest (r : ℚ) : Float := packed (rounded .positive r)

def Representable (r : ℚ) : Prop :=
  ∃ (m : ℕ) (e : ℤ), 0 < m ∧ m < 2 ^ 53 ∧ -1074 ≤ e ∧ r = m * 2 ^ e ∧ r < 2 ^ (1024 : ℤ)

theorem Representable.pos {r : ℚ} (h : Representable r) : 0 < r := by
  obtain ⟨m, e, hm, -, -, rfl, -⟩ := h
  positivity

theorem toRat?_rounded {r : ℚ} (h : Representable r) (s : Sign) :
    toRat? (packed (rounded s r)) = some ((s.apply 1 : ℤ) * r) := by
  obtain ⟨m, e, hm, hlt, he, rfl, hbig⟩ := h
  obtain ⟨k, hk, hkr⟩ := exists_mantissa hm hlt he
  have hlog := log_mul_zpow hk (lastExponent ((m : ℚ) * 2 ^ e))
  rw [hkr] at hlog
  have hlast := lastExponent_eq ((m : ℚ) * 2 ^ e)
  have hmax : Int.log 2 ((m : ℚ) * 2 ^ e) < 1024 := by
    rw [← Int.lt_zpow_iff_log_lt (by decide) (by positivity)]
    exact hbig
  have hcanonical : Canonical (.finite s k (lastExponent ((m : ℚ) * 2 ^ e)) hk) := by
    refine ⟨(Nat.log2_lt hk.ne').mp (by omega), by omega, by omega, ?_⟩
    by_cases hsub : lastExponent ((m : ℚ) * 2 ^ e) = -1074
    · exact .inr hsub
    · exact .inl ((Nat.le_log2 hk.ne').mp (by omega))
  rw [rounded_of_mantissa s hk hkr, toRat?_packed hcanonical, unpackedRat?]
  cases s <;> simp [Sign.apply, hkr]

theorem toRat?_nearest {r : ℚ} (h : Representable r) : toRat? (nearest r) = some r := by
  rw [nearest, toRat?_rounded h]
  simp [Sign.apply]

theorem representable_of_toRat? {x : Float} {q : ℚ} (h : toRat? x = some q) (hq : q ≠ 0) :
    Representable |q| := by
  have hcanonical := canonical_toModel x
  rcases unpack_of_toRat? h with ⟨s, hu, rfl⟩ | ⟨s, m, e, hm, hu, rfl⟩
  · exact absurd rfl hq
  · rw [hu] at hcanonical
    obtain ⟨hlt, hmin, hmax, -⟩ := hcanonical
    have hpos : (0 : ℚ) < m * 2 ^ e := by positivity
    have habs : |((s.apply m : ℤ) : ℚ) * 2 ^ e| = m * 2 ^ e := by
      cases s <;> simp [Sign.apply, abs_of_pos hpos]
    refine ⟨m, e, hm, hlt, hmin, habs, ?_⟩
    rw [habs]
    calc (m : ℚ) * 2 ^ e < (2 ^ 53 : ℕ) * 2 ^ e := by
          gcongr
      _ ≤ (2 ^ 53 : ℕ) * 2 ^ (971 : ℤ) := by
          gcongr
          norm_num
      _ = 2 ^ (1024 : ℤ) := by
          rw [show (1024 : ℤ) = (53 : ℕ) + 971 by norm_num, zpow_add₀ (by norm_num), zpow_natCast,
            Nat.cast_pow, Nat.cast_ofNat]

def signOf (q : ℚ) : Sign := if q < 0 then .negative else .positive

theorem unpack_of_ne_zero {x : Float} {q : ℚ} (h : toRat? x = some q) (hq : q ≠ 0) :
    ∃ (m : ℕ) (e : ℤ) (hm : 0 < m), x.toModel.unpack = .finite (signOf q) m e hm ∧
    |q| = m * 2 ^ e := by
  rcases unpack_of_toRat? h with ⟨s, -, rfl⟩ | ⟨s, m, e, hm, hu, rfl⟩
  · exact absurd rfl hq
  · have hpos : (0 : ℚ) < m * 2 ^ e := by positivity
    refine ⟨m, e, hm, ?_, ?_⟩
    · rw [hu, signOf]
      cases s with
      | negative => rw [if_pos (by simpa [Sign.apply] using hpos)]
      | positive => rw [if_neg (by simpa [Sign.apply] using hpos.le)]
    · cases s <;> simp [Sign.apply, abs_of_pos hpos]

theorem div_eq {x y : Float} {p q : ℚ} (hx : toRat? x = some p) (hy : toRat? y = some q)
    (hp : p ≠ 0) (hq : 0 < q) : x / y = packed (rounded (signOf p) (|p| / q)) := by
  obtain ⟨m, e, hm, hu, hpm⟩ := unpack_of_ne_zero hx hp
  obtain ⟨m', e', hm', hv, hqm⟩ := unpack_of_ne_zero hy hq.ne'
  have hdiv : x / y = packed (UnpackedFloat.div .binary64 x.toModel.unpack y.toModel.unpack) := rfl
  have hsign : signOf p / signOf q = signOf p := by
    rw [show signOf q = .positive from if_neg hq.not_gt]
    cases signOf p <;> rfl
  rw [hdiv, hu, hv, div_finite, hsign, hpm, ← hqm, abs_of_pos hq]

theorem toRat?_div {x y : Float} {p q : ℚ} (hx : toRat? x = some p) (hy : toRat? y = some q)
    (hq : 0 < q) (h : p ≠ 0 → Representable (|p| / q)) : toRat? (x / y) = some (p / q) := by
  by_cases hp : p = 0
  · obtain ⟨m', e', hm', hv, -⟩ := unpack_of_ne_zero hy hq.ne'
    have hdiv : x / y = packed (UnpackedFloat.div .binary64 x.toModel.unpack y.toModel.unpack) := rfl
    rcases unpack_of_toRat? hx with ⟨s, hu, -⟩ | ⟨s, m, e, hm, hu, hpm⟩
    · rw [hdiv, hu, hv, hp, zero_div]
      exact toRat?_packed trivial
    · have hpow : (2 : ℚ) ^ e ≠ 0 := by positivity
      cases s <;> simp [Sign.apply, hp, hm.ne', hpow] at hpm
  · rw [div_eq hx hy hp hq, toRat?_rounded (h hp), signOf, Option.some.injEq]
    split
    · next hneg => rw [abs_of_neg hneg]; simp [Sign.apply, neg_div]
    · next hnonneg => rw [abs_of_nonneg (not_lt.mp hnonneg)]; simp [Sign.apply]

theorem mul_eq {x y : Float} {p q : ℚ} (hx : toRat? x = some p) (hy : toRat? y = some q)
    (hp : 1 ≤ p) (hq : 0 < q) : x * y = nearest (p * q) := by
  have hp0 : 0 < p := lt_of_lt_of_le one_pos hp
  have hcanonical := canonical_toModel x
  obtain ⟨m, e, hm, hu, hpm⟩ := unpack_of_ne_zero hx hp0.ne'
  obtain ⟨m', e', hm', hv, hqm⟩ := unpack_of_ne_zero hy hq.ne'
  rw [hu] at hcanonical
  have hmul : x * y = packed (UnpackedFloat.mul .binary64 x.toModel.unpack y.toModel.unpack) := rfl
  have hx1 : signOf p = .positive := if_neg hp0.not_gt
  have hy1 : signOf q = .positive := if_neg hq.not_gt
  have hbig : 2 ^ 52 ≤ m := by
    obtain ⟨hlt, -, -, hnormal⟩ := hcanonical
    apply hnormal.resolve_right
    rintro rfl
    have hsmall : (m : ℚ) * 2 ^ (-1074 : ℤ) < 1 := by
      calc (m : ℚ) * 2 ^ (-1074 : ℤ) < (2 ^ 53 : ℕ) * 2 ^ (-1074 : ℤ) := by gcongr
        _ = 2 ^ (-1021 : ℤ) := by
            rw [show (-1021 : ℤ) =
              (53 : ℕ) + -1074 by norm_num, zpow_add₀ (by norm_num), zpow_natCast,
              Nat.cast_pow, Nat.cast_ofNat]
        _ < 1 := zpow_lt_one_of_neg₀ (by norm_num) (by norm_num)
    rw [abs_of_pos hp0] at hpm
    linarith
  rw [hmul, hu, hv, mul_finite _ _ _ _ _ _ (hbig.trans (Nat.le_mul_of_pos_right m hm')), hx1, hy1,
    ← hpm, ← hqm, abs_of_pos hp0, abs_of_pos hq]
  rfl

theorem toRat?_powerOfTen (e : Fin Float.exactlyRepresentablePowersOfTen.size) :
    toRat? Float.exactlyRepresentablePowersOfTen[e] = some (10 ^ e.val) := by
  revert e
  decide +kernel

theorem toRat?_toFloat {m : ℕ} (hm : 0 < m) (hlt : m < 2 ^ 53) :
    toRat? m.toUInt64.toFloat = some (m : ℚ) := by
  have hto : m.toUInt64.toNat = m := Nat.mod_eq_of_lt (by omega)
  have hfloat : m.toUInt64.toFloat = packed (UnpackedFloat.ofInt .binary64 (m : ℤ)) := by
    nth_rewrite 2 [← hto]
    rfl
  have hrounded : UnpackedFloat.ofInt .binary64 (m : ℤ) = rounded .positive m := by
    have hcompare : compare (m : ℤ) 0 = .gt := by
      rw [Int.compare_eq_gt]
      omega
    rw [UnpackedFloat.ofInt, UnpackedFloat.normalize, hcompare]
    simp only [Int.toNat_natCast]
    rw [round_eq _ hm, zpow_zero, mul_one]
  rw [hfloat, hrounded]
  apply toRat?_nearest
  refine ⟨m, 0, hm, hlt, by norm_num, by rw [zpow_zero, mul_one], ?_⟩
  calc (m : ℚ) < (2 ^ 53 : ℕ) := by exact_mod_cast hlt
    _ ≤ 2 ^ (1024 : ℤ) := by
        rw [Nat.cast_pow, Nat.cast_ofNat, ← zpow_natCast]
        exact zpow_le_zpow_right₀ (by norm_num) (by norm_num)

theorem unpackedOfScientific_eq {m : ℕ} (hm : 0 < m) {e : ℤ} (hhigh : e ≤ 2048)
    (hlow : -(2048 + (m.log2 : ℤ)) ≤ e) :
    UnpackedFloat.ofScientific .binary64 m e = rounded .positive (m * 10 ^ e) := by
  have hsize : (2 : ℤ) ^ Format.exponentBits .binary64 = 2048 := rfl
  rw [UnpackedFloat.ofScientific, dif_neg hm.ne', hsize, if_neg (not_lt.mpr hhigh),
    if_neg (not_lt.mpr hlow)]
  split
  · next he =>
    obtain ⟨n, rfl⟩ := Int.eq_ofNat_of_zero_le he
    have hbits : Format.mantissaBits .binary64 = 53 := rfl
    have hpos : 0 < 10 ^ n := by positivity
    rw [mul_finite]
    · simp only [Int.toNat_natCast, Nat.shiftLeft_eq, hbits, zpow_zero, mul_one]
      have hcancel : ((m * 2 ^ 53 : ℕ) : ℚ) * 2 ^ (-(53 : ℕ) : ℤ) = m := by
        rw [zpow_neg, zpow_natCast, Nat.cast_mul, Nat.cast_pow, Nat.cast_ofNat, mul_assoc,
          mul_inv_cancel₀ (by norm_num), mul_one]
      rw [hcancel, Nat.cast_pow, Nat.cast_ofNat, zpow_natCast]
      rfl
    · simp only [Int.toNat_natCast, Nat.shiftLeft_eq, hbits]
      calc 2 ^ 52 ≤ 1 * 2 ^ 53 * 1 := by norm_num
        _ ≤ m * 2 ^ 53 * 10 ^ n := by gcongr <;> omega
  · next he =>
    obtain ⟨n, hn⟩ := Int.eq_ofNat_of_zero_le (show 0 ≤ -e by omega)
    rw [div_finite]
    simp only [hn, Int.toNat_natCast, zpow_zero, mul_one]
    rw [show e = -(n : ℤ) by omega, zpow_neg, zpow_natCast, Nat.cast_pow, Nat.cast_ofNat,
      div_eq_mul_inv]
    rfl

/-- The nearest double to a decimal, unless its size is beyond the bounds up to which the power of
ten is worked out. -/
theorem ofScientific_eq {m e : ℕ} (hm : 0 < m) (s : Bool)
    (hbound : e ≤ if s then 2048 + m.log2 else 2048) :
    Float.ofScientific m s e = nearest (Decimal.toRat ⟨m, if s then -(e : ℤ) else e⟩) := by
  have hsign : signOf (m : ℚ) = .positive := if_neg (not_lt.mpr (Nat.cast_nonneg m))
  have hpos : (0 : ℚ) < m := by exact_mod_cast hm
  rw [Float.ofScientific, Decimal.toRat]
  split
  · next hfast =>
    have hsize : Float.exactlyRepresentablePowersOfTen.size = 23 := rfl
    have hten := toRat?_powerOfTen ⟨e, by omega⟩
    have hone := toRat?_toFloat hm hfast.1
    cases s with
    | true =>
        have hdiv := div_eq hone hten hpos.ne' (by positivity)
        rw [hsign, abs_of_pos hpos, div_eq_mul_inv, ← zpow_natCast, ← zpow_neg] at hdiv
        exact hdiv
    | false =>
        have hmul := mul_eq hone hten (by exact_mod_cast hm) (by positivity)
        rw [← zpow_natCast] at hmul
        exact hmul
  · have hexponent : (if s then Int.negOfNat e else Int.ofNat e) = if s then -(e : ℤ) else e := by
      rw [Int.negOfNat_eq]
      rfl
    rw [hexponent]
    apply congrArg packed
    cases s with
    | true =>
        rw [if_pos rfl] at hbound ⊢
        exact unpackedOfScientific_eq hm (by omega) (by omega)
    | false =>
        rw [if_neg Bool.false_ne_true] at hbound ⊢
        exact unpackedOfScientific_eq hm (by omega) (by omega)

theorem digitCount_bounds {n : ℕ} (hn : 0 < n) :
    10 ^ (Decimal.digitCount n - 1) ≤ n ∧ n < 10 ^ Decimal.digitCount n := by
  have hpos : 0 < Decimal.digitCount n := Nat.length_toDigits_pos
  constructor
  · by_cases hone : Decimal.digitCount n = 1
    · rw [hone]
      exact hn
    · have hlt : ¬ Decimal.digitCount n ≤ Decimal.digitCount n - 1 := by omega
      exact Nat.not_lt.mp (mt (Nat.length_toDigits_le_iff (by decide) (by omega)).mpr hlt)
  · exact (Nat.length_toDigits_le_iff (by decide) hpos).mp le_rfl

theorem digitCount_le_log2 {n : ℕ} (hn : 0 < n) : Decimal.digitCount n ≤ n.log2 + 1 := by
  have h : 2 ^ (Decimal.digitCount n - 1) ≤ n := by
    calc 2 ^ (Decimal.digitCount n - 1) ≤ 10 ^ (Decimal.digitCount n - 1) := by gcongr; norm_num
      _ ≤ n := (digitCount_bounds hn).1
  have := (Nat.le_log2 hn.ne').mpr h
  omega

theorem log_toRat {d : Decimal} (hd : 0 < d.coefficient) :
    Int.log 10 d.toRat = Decimal.digitCount d.coefficient + d.exponent - 1 := by
  obtain ⟨hlow, hhigh⟩ := digitCount_bounds hd
  have hpos : 0 < d.toRat := by
    rw [Decimal.toRat]
    positivity
  have hcount : 0 < Decimal.digitCount d.coefficient := Nat.length_toDigits_pos
  apply le_antisymm
  · rw [← Int.lt_add_one_iff, ← Int.lt_zpow_iff_log_lt (by decide) hpos, sub_add_cancel,
      Decimal.toRat, Nat.cast_ofNat, zpow_add₀ (by norm_num), zpow_natCast]
    gcongr
    exact_mod_cast hhigh
  · rw [← Int.zpow_le_iff_le_log (by decide) hpos, Decimal.toRat, Nat.cast_ofNat,
      show (Decimal.digitCount d.coefficient : ℤ) + d.exponent - 1 =
        (Decimal.digitCount d.coefficient - 1 : ℕ) + d.exponent by omega,
      zpow_add₀ (by norm_num), zpow_natCast]
    gcongr
    exact_mod_cast hlow

theorem ofDecimal_eq (d : Decimal) :
    ofDecimal d = if d.toRat = 0 then 0
      else if 400 ≤ Int.log 10 d.toRat then infinity
      else if Int.log 10 d.toRat < -401 then 0
      else nearest d.toRat := by
  have hzero : d.toRat = 0 ↔ d.coefficient = 0 := by
    have hten : (10 : ℚ) ^ d.exponent ≠ 0 := by positivity
    simp [Decimal.toRat, hten]
  rw [ofDecimal]
  simp only [hzero]
  by_cases hc : d.coefficient = 0
  · rw [if_pos hc, if_pos hc]
  · have hpos := Nat.pos_of_ne_zero hc
    have hbits := digitCount_le_log2 hpos
    rw [if_neg hc, if_neg hc, log_toRat hpos]
    generalize hp : (Decimal.digitCount d.coefficient : ℤ) + d.exponent = point
    have hhigh : 400 ≤ point - 1 ↔ 400 < point := by omega
    have hlow : point - 1 < -401 ↔ point < -400 := by omega
    simp only [hhigh, hlow]
    split
    · rfl
    · split
      · rfl
      · rw [ofScientific_eq hpos]
        · congr 2
          by_cases he : d.exponent < 0
          · simp [he, abs_of_neg he]
          · simp [he, abs_of_nonneg (not_lt.mp he)]
        · by_cases he : d.exponent < 0
          · rw [if_pos (decide_eq_true he)]
            omega
          · rw [if_neg (by simpa using he)]
            omega

theorem ofDecimal_congr {d d' : Decimal} (h : d.toRat = d'.toRat) : ofDecimal d = ofDecimal d' := by
  rw [ofDecimal_eq, ofDecimal_eq, h]

theorem Representable.log_bounds {r : ℚ} (h : Representable r) :
    -400 ≤ Int.log 10 r ∧ Int.log 10 r < 400 := by
  have hpos := h.pos
  obtain ⟨m, e, hm, -, he, hr, hbig⟩ := h
  have hpow (n : ℕ) (hn : n ≤ 1200) : (2 : ℚ) ^ n ≤ 10 ^ 400 := by
    calc (2 : ℚ) ^ n ≤ 2 ^ (3 * 400) := pow_le_pow_right₀ (by norm_num) hn
      _ = 8 ^ 400 := by rw [pow_mul]; norm_num
      _ ≤ 10 ^ 400 := by gcongr; norm_num
  constructor
  · rw [← Int.zpow_le_iff_le_log (by decide) hpos, Nat.cast_ofNat, zpow_neg]
    calc ((10 : ℚ) ^ (400 : ℤ))⁻¹ ≤ (2 ^ (1074 : ℕ))⁻¹ := by
          gcongr
          exact_mod_cast hpow 1074 (by norm_num)
      _ = 1 * 2 ^ (-1074 : ℤ) := by
          rw [one_mul, zpow_neg, zpow_ofNat]
      _ ≤ m * 2 ^ e := by
          gcongr
          · exact_mod_cast hm
          · norm_num
      _ = r := hr.symm
  · rw [← Int.lt_zpow_iff_log_lt (by decide) hpos]
    calc r < 2 ^ (1024 : ℤ) := hbig
      _ ≤ ((10 : ℕ) : ℚ) ^ (400 : ℤ) := by exact_mod_cast hpow 1024 (by norm_num)

/-- A decimal whose value a double can have is read as that value. -/
theorem toRat?_ofDecimal {d : Decimal} (h : Representable d.toRat) :
    toRat? (ofDecimal d) = some d.toRat := by
  obtain ⟨hlow, hhigh⟩ := h.log_bounds
  rw [ofDecimal_eq, if_neg h.pos.ne', if_neg (by omega), if_neg (by omega), toRat?_nearest h]

theorem toRat?_ofInt {n : ℕ} (h : Representable n) : toRat? (Float.ofInt n) = some (n : ℚ) := by
  have hpos : 0 < n := by exact_mod_cast h.pos
  have hdecimal : Decimal.toRat ⟨n, 0⟩ = n := by
    rw [Decimal.toRat, zpow_zero, mul_one]
  have hint : Float.ofInt n = Float.ofScientific n false 0 := rfl
  rw [hint, ofScientific_eq hpos false (by omega)]
  exact (congrArg (toRat? ∘ nearest) hdecimal).trans (toRat?_nearest h)

theorem representable_of_le {n : ℕ} (hpos : 0 < n) (hn : n ≤ 2 ^ 53) : Representable n := by
  obtain hlt | rfl := Nat.lt_or_eq_of_le hn
  · refine ⟨n, 0, hpos, hlt, by norm_num, by simp, ?_⟩
    calc (n : ℚ) < 2 ^ (53 : ℤ) := by exact_mod_cast hlt
      _ < 2 ^ (1024 : ℤ) := zpow_lt_zpow_right₀ one_lt_two (by norm_num)
  · refine ⟨1, 53, one_pos, by norm_num, by norm_num, by norm_num, ?_⟩
    calc ((2 ^ 53 : ℕ) : ℚ) = 2 ^ (53 : ℤ) := by norm_num
      _ < 2 ^ (1024 : ℤ) := zpow_lt_zpow_right₀ one_lt_two (by norm_num)

theorem toRat?_ofNat {n : ℕ} (hn : n ≤ 2 ^ 53) :
    Number.toRat? (OfNat.ofNat n : Float) = some (n : ℚ) := by
  obtain rfl | hpos := Nat.eq_zero_or_pos n
  · exact RationalNumber.toRat?_zero.trans (by rw [Nat.cast_zero])
  · exact toRat?_ofInt (representable_of_le hpos hn)

theorem toRat?_neg_ofNat {n : ℕ} (hn : n ≤ 2 ^ 53) :
    Number.toRat? (-OfNat.ofNat n : Float) = some (-n : ℚ) := by
  rw [RationalNumber.toRat?_neg, toRat?_ofNat hn, Option.map_some]

theorem Representable.of_dvd {n d : ℕ} (h : Representable n) (hd : d ∣ n) : Representable d := by
  have hn : 0 < n := by exact_mod_cast h.pos
  have hdpos : 0 < d := Nat.pos_of_dvd_of_pos hd hn
  have hle : d ≤ n := Nat.le_of_dvd hn hd
  obtain ⟨m, e, hm, hlt, -, hr, hbig⟩ := h
  obtain ⟨j, o, hodd, hdo⟩ := Nat.exists_eq_two_pow_mul_odd hdpos.ne'
  have hod : o ∣ d := ⟨2 ^ j, by rw [hdo, mul_comm]⟩
  have hom : o ≤ m := by
    by_cases he : 0 ≤ e
    · obtain ⟨k, rfl⟩ := Int.eq_ofNat_of_zero_le he
      rw [zpow_natCast] at hr
      have hnat : n = m * 2 ^ k := by exact_mod_cast hr
      have hcoprime : Nat.Coprime o (2 ^ k) := (Nat.coprime_two_right.mpr hodd).pow_right k
      exact Nat.le_of_dvd hm (hcoprime.dvd_of_dvd_mul_right (hnat ▸ hod.trans hd))
    · have hsmall : (n : ℚ) ≤ m := by
        rw [hr]
        calc (m : ℚ) * 2 ^ e ≤ m * 1 := by
              gcongr
              exact zpow_le_one_of_nonpos₀ (by norm_num) (by omega)
          _ = m := mul_one _
      exact ((Nat.le_of_dvd hdpos hod).trans hle).trans (by exact_mod_cast hsmall)
  refine ⟨o, j, hodd.pos, lt_of_le_of_lt hom hlt,
    by omega, ?_, lt_of_le_of_lt (by exact_mod_cast hle) hbig⟩
  rw [hdo, zpow_natCast]
  push_cast
  ring

end Formulary.Double
