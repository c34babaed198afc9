import Formulary.Number.Double
import Mathlib

namespace Formulary.Double

open Float.Model Float.Model.UnpackedFloat

def extended (x : ℚ) : ExtendedMantissa := ⟨⌊x⌋₊, ⌊2 * x⌋₊ % 2 != 0, ((⌊2 * x⌋₊ : ℕ) : ℚ) != 2 * x⟩

theorem extended_div (a b : ℕ) (hb : 0 < b) :
    extended (a / b) = ⟨a / b, 2 * a / b % 2 != 0, 2 * a % b != 0⟩ := by
  have h : (2 * (a / b : ℚ)) = ((2 * a : ℕ) : ℚ) / (b : ℚ) := by
    push_cast
    ring
  have hs : (((2 * a / b : ℕ) : ℚ) != ((2 * a : ℕ) : ℚ) / (b : ℚ)) = (2 * a % b != 0) := by
    rw [Bool.eq_iff_iff, bne_iff_ne, bne_iff_ne, ne_eq, ne_eq, not_iff_not,
      eq_div_iff (by positivity)]
    norm_cast
    have := Nat.div_add_mod' (2 * a) b
    omega
  rw [extended, h, Nat.floor_div_eq_div, Nat.floor_div_eq_div, hs]

theorem double_div_mod (a b : ℕ) (hb : 0 < b) :
    (2 * (a % b) < b ∧ 2 * a / b = 2 * (a / b) ∧ 2 * a % b = 2 * (a % b)) ∨
      (b ≤ 2 * (a % b) ∧ 2 * a / b = 2 * (a / b) + 1 ∧ 2 * a % b = 2 * (a % b) - b) := by
  have hlt := Nat.mod_lt a hb
  have hsum := Nat.div_add_mod a b
  have hdouble : 2 * a = 2 * (a % b) + b * (2 * (a / b)) := by
    calc 2 * a = 2 * (b * (a / b) + a % b) := by rw [hsum]
      _ = 2 * (a % b) + b * (2 * (a / b)) := by ring
  have hdiv : 2 * a / b = 2 * (a % b) / b + 2 * (a / b) := by
    rw [hdouble, Nat.add_mul_div_left _ _ hb]
  have hmod : 2 * a % b = 2 * (a % b) % b := by
    rw [hdouble, Nat.add_mul_mod_self_left]
  by_cases h : 2 * (a % b) < b
  · left
    rw [hdiv, hmod, Nat.div_eq_of_lt h, Nat.mod_eq_of_lt h]
    exact ⟨h, by omega, rfl⟩
  · right
    have hone : 2 * (a % b) / b = 1 := by
      apply Nat.div_eq_of_lt_le <;> omega
    have hrest : 2 * (a % b) % b = 2 * (a % b) - b := by
      rw [Nat.mod_eq_sub_mod (Nat.not_lt.mp h), Nat.mod_eq_of_lt (by omega)]
    rw [hdiv, hmod, hone, hrest]
    exact ⟨Nat.not_lt.mp h, by omega, rfl⟩

theorem shiftRightOne_extended {x : ℚ} (hx : 0 ≤ x) :
    (extended x).shiftRightOne = extended (x / 2) := by
  have hn : ((x.num.natAbs : ℕ) : ℚ) / (x.den : ℚ) = x := by
    rw [Nat.cast_natAbs, abs_of_nonneg (Rat.num_nonneg.mpr hx), Rat.num_div_den]
  have hd : x / 2 = ((x.num.natAbs : ℕ) : ℚ) / ((2 * x.den : ℕ) : ℚ) := by
    nth_rewrite 1 [← hn]
    push_cast
    rw [div_div, mul_comm]
  have hpos : 0 < x.den := x.den_pos
  rw [hd, extended_div _ _ (by omega)]
  nth_rewrite 1 [← hn]
  rw [extended_div _ _ hpos]
  generalize x.num.natAbs = a
  generalize x.den = b at hpos
  have hmantissa : a / b / 2 = a / (2 * b) := by
    rw [Nat.div_div_eq_div_mul, Nat.mul_comm]
  have hround : 2 * a / (2 * b) = a / b := Nat.mul_div_mul_left a b (by decide)
  have hsticky : (2 * a / b % 2 != 0 || 2 * a % b != 0) = (2 * a % (2 * b) != 0) := by
    rw [Nat.mul_mod_mul_left, Bool.eq_iff_iff, Bool.or_eq_true, bne_iff_ne, bne_iff_ne, bne_iff_ne]
    rcases double_div_mod a b hpos with ⟨-, hq, hr⟩ | ⟨hle, hq, hr⟩ <;> rw [hq, hr] <;> omega
  simp only [ExtendedMantissa.shiftRightOne, hmantissa, hround, hsticky]

theorem shiftRight_extended {x : ℚ} (hx : 0 ≤ x) (n : ℕ) :
    extended x >>> n = extended (x / 2 ^ n) := by
  change n.repeat ExtendedMantissa.shiftRightOne (extended x) = _
  induction n with
  | zero => simp [Nat.repeat]
  | succ n ih =>
      rw [Nat.repeat, ih, shiftRightOne_extended (by positivity), div_div, ← pow_succ]

theorem ofMantissa_exact (m : ℕ) : ExtendedMantissa.ofMantissaAndAccuracy m .exact = extended m := by
  have h := extended_div m 1 (by decide)
  simp only [Nat.cast_one, div_one, Nat.div_one, Nat.mod_one, Nat.mul_mod_right] at h
  rw [h]
  rfl

theorem ofMantissa_fraction (a b : ℕ) (hb : 0 < b) :
    ExtendedMantissa.ofMantissaAndAccuracy (a / b) (accuracyOfFraction (a % b) b) =
      extended (a / b) := by
  rw [extended_div a b hb, accuracyOfFraction]
  have hcases := double_div_mod a b hb
  by_cases hz : a % b = 0
  · rw [if_pos hz, ExtendedMantissa.ofMantissaAndAccuracy]
    rcases hcases with ⟨-, hq, hr⟩ | ⟨hle, -, -⟩
    · simp [hq, hr, hz]
    · omega
  · rw [if_neg hz]
    rcases Nat.lt_trichotomy (2 * (a % b)) b with h | h | h
    all_goals rcases hcases with ⟨hlt, hq, hr⟩ | ⟨hle, hq, hr⟩
    · simp [Nat.compare_eq_lt.mpr h, ExtendedMantissa.ofMantissaAndAccuracy, hq, hr, hz]
    · omega
    · omega
    · simp [ExtendedMantissa.ofMantissaAndAccuracy, hq, hr, h, Nat.add_mod]
    · omega
    · simp [Nat.compare_eq_gt.mpr h, ExtendedMantissa.ofMantissaAndAccuracy, hq, hr, Nat.add_mod]
      omega

def lastExponent (r : ℚ) : ℤ := Format.binary64.targetExponent (Int.log 2 r + 1)

theorem targetExponent_eq (n : ℤ) : Format.binary64.targetExponent n = max (n - 53) (-1074) := rfl

theorem lastExponent_eq (r : ℚ) : lastExponent r = max (Int.log 2 r - 52) (-1074) := by
  rw [lastExponent, targetExponent_eq]
  omega

theorem log_eq {r : ℚ} {m : ℕ} {e : ℤ} (hm : m ≠ 0) (hr : (m : ℚ) * 2 ^ e ≤ r)
    (hr' : r < (m + 1 : ℕ) * (2 : ℚ) ^ e) : Int.log 2 r = m.log2 + e := by
  have hpos : 0 < r := lt_of_lt_of_le (by positivity) hr
  apply le_antisymm
  · rw [← Int.lt_add_one_iff, ← Int.lt_zpow_iff_log_lt (by decide) hpos]
    calc r < (m + 1 : ℕ) * (2 : ℚ) ^ e := hr'
      _ ≤ ((2 ^ (m.log2 + 1) : ℕ) : ℚ) * 2 ^ e := by
          gcongr
          exact Nat.lt_log2_self
      _ = ((2 : ℕ) : ℚ) ^ ((m.log2 : ℤ) + e + 1) := by
          push_cast
          rw [← zpow_natCast, ← zpow_add₀ (by norm_num)]
          congr 1
          push_cast
          ring
  · rw [← Int.zpow_le_iff_le_log (by decide) hpos]
    calc ((2 : ℕ) : ℚ) ^ ((m.log2 : ℤ) + e) = ((2 ^ m.log2 : ℕ) : ℚ) * 2 ^ e := by
          push_cast
          rw [zpow_add₀ (by norm_num), zpow_natCast]
      _ ≤ m * (2 : ℚ) ^ e := by
          gcongr
          exact Nat.log2_self_le hm
      _ ≤ r := hr

/-- The exponent is found from a mantissa cut off, unless nothing is left of it above the least
exponent. -/
theorem targetExponent_floor {r : ℚ} {e : ℤ} (hr : 0 < r) (h : ⌊r / 2 ^ e⌋₊ ≠ 0 ∨ e ≤ -1074) :
    Format.binary64.targetExponent (totalExponent ⌊r / 2 ^ e⌋₊ e) = lastExponent r := by
  have he : (0 : ℚ) < 2 ^ e := by positivity
  have hlow : (⌊r / 2 ^ e⌋₊ : ℚ) * 2 ^ e ≤ r := (le_div_iff₀ he).mp (Nat.floor_le (by positivity))
  have hhigh : r < (⌊r / 2 ^ e⌋₊ + 1 : ℕ) * (2 : ℚ) ^ e := by
    rw [← div_lt_iff₀ he]
    exact_mod_cast Nat.lt_floor_add_one _
  rw [targetExponent_eq, lastExponent_eq, totalExponent]
  by_cases hm : ⌊r / 2 ^ e⌋₊ = 0
  · have hlog : Int.log 2 r < e := by
      rw [← Int.lt_zpow_iff_log_lt (by decide) hr]
      rw [hm] at hhigh
      simpa using hhigh
    have := h.resolve_left (not_not.mpr hm)
    rw [hm, Nat.log2_zero]
    omega
  · rw [log_eq hm hlow hhigh]
    omega

def ofMantissa (s : Sign) (kept : ExtendedMantissa × ℤ) : UnpackedFloat :=
  if h : kept.1.mantissa = 0 then .zero s else .finite s kept.1.mantissa kept.2 (Nat.pos_of_ne_zero h)

/-- The double nearest to a positive magnitude, unpacked; of two equally near the one with an even
mantissa. -/
def rounded (s : Sign) (r : ℚ) : UnpackedFloat :=
  ofMantissa s (shiftToTargetExponent .binary64 (extended (r / 2 ^ lastExponent r)).roundedMantissa
    (lastExponent r) .exact)

/-- Rounding looks at the magnitude only, not at how it is given. -/
theorem roundWithAccuracy_eq {s : Sign} {r : ℚ} {m : ℕ} {e : ℤ} {a : Accuracy} (hr : 0 < r)
    (hm : ExtendedMantissa.ofMantissaAndAccuracy m a = extended (r / 2 ^ e)) (he : e ≤ lastExponent r)
    (h : m ≠ 0 ∨ e ≤ -1074) : roundWithAccuracy .binary64 s m e a = rounded s r := by
  have hfloor : m = ⌊r / 2 ^ e⌋₊ := by
    have hfield := congrArg ExtendedMantissa.mantissa hm
    simp only [extended] at hfield
    rw [← hfield]
    cases a with
    | exact => rfl
    | inexact o => cases o <;> rfl
  have hshift : shiftToTargetExponent .binary64 m e a =
      (extended (r / 2 ^ lastExponent r), lastExponent r) := by
    have ht : Format.binary64.targetExponent (totalExponent m e) = lastExponent r := by
      rw [hfloor] at h ⊢
      exact targetExponent_floor hr h
    have hk : e + ((lastExponent r - e).toNat : ℤ) = lastExponent r := by omega
    rw [shiftToTargetExponent, shiftToExponent, ht, hm, shiftRight_extended (by positivity), hk,
      div_div, ← zpow_natCast, ← zpow_add₀ (by norm_num), hk]
  rw [roundWithAccuracy, hshift]
  rfl

theorem log_mul_zpow {m : ℕ} (hm : 0 < m) (e : ℤ) : Int.log 2 ((m : ℚ) * 2 ^ e) = m.log2 + e := by
  apply log_eq hm.ne' le_rfl
  gcongr
  exact Nat.lt_succ_self m

theorem rounded_of_mantissa {r : ℚ} {k : ℕ} (s : Sign) (hk : 0 < k)
    (h : (k : ℚ) * 2 ^ lastExponent r = r) : rounded s r = .finite s k (lastExponent r) hk := by
  have hlog := log_mul_zpow hk (lastExponent r)
  rw [h] at hlog
  have htarget :
      Format.binary64.targetExponent (totalExponent k (lastExponent r)) = lastExponent r := by
    rw [targetExponent_eq, totalExponent]
    nth_rewrite 2 [lastExponent_eq]
    omega
  have hquotient : r / 2 ^ lastExponent r = k := by
    rw [div_eq_iff (by positivity), h]
  have hmantissa : (extended (k : ℚ)).roundedMantissa = k := by
    rw [← ofMantissa_exact]
    rfl
  have hshift : shiftToTargetExponent .binary64 k (lastExponent r) .exact =
      (⟨k, false, false⟩, lastExponent r) := by
    rw [shiftToTargetExponent, shiftToExponent, htarget, Int.sub_self, Int.toNat_zero,
      Nat.cast_zero, Int.add_zero]
    rfl
  rw [rounded, hquotient, hmantissa, hshift]
  exact dif_neg hk.ne'

/-- A magnitude of at most fifty-three bits is a mantissa that fits its exponent. -/
theorem exists_mantissa {m : ℕ} {e : ℤ} (hm : 0 < m) (hlt : m < 2 ^ 53) (he : -1074 ≤ e) :
    ∃ k : ℕ, 0 < k ∧ (k : ℚ) * 2 ^ lastExponent ((m : ℚ) * 2 ^ e) = m * 2 ^ e := by
  have hbits : m.log2 < 53 := (Nat.log2_lt hm.ne').mpr hlt
  have hlast := lastExponent_eq ((m : ℚ) * 2 ^ e)
  rw [log_mul_zpow hm] at hlast
  generalize lastExponent ((m : ℚ) * 2 ^ e) = t at hlast
  obtain ⟨d, hd⟩ := Int.eq_ofNat_of_zero_le (show 0 ≤ e - t by omega)
  refine ⟨m * 2 ^ d, by positivity, ?_⟩
  rw [show e = (d : ℤ) + t by omega, zpow_add₀ (by norm_num), zpow_natCast, ← mul_assoc]
  push_cast
  rfl

theorem round_eq (s : Sign) {m : ℕ} (hm : 0 < m) (e : ℤ) :
    UnpackedFloat.round .binary64 s m e = rounded s (m * 2 ^ e) := by
  have hlast := lastExponent_eq ((m : ℚ) * 2 ^ e)
  rw [log_mul_zpow hm] at hlast
  have htarget :
      Format.binary64.targetExponent (totalExponent m e) = lastExponent ((m : ℚ) * 2 ^ e) := by
    rw [targetExponent_eq, totalExponent, hlast]
    omega
  rw [UnpackedFloat.round, htarget, decreaseExponent]
  generalize hk : (e - lastExponent ((m : ℚ) * 2 ^ e)).toNat = k
  apply roundWithAccuracy_eq (by positivity)
  · rw [ofMantissa_exact, Nat.shiftLeft_eq, mul_div_assoc, ← zpow_sub₀ (by norm_num), sub_sub_cancel]
    push_cast
    rw [zpow_natCast]
  · omega
  · left
    rw [Nat.shiftLeft_eq]
    positivity

theorem mul_finite (s₁ s₂ : Sign) {m₁ m₂ : ℕ} (e₁ e₂ : ℤ) (h₁ : 0 < m₁) (h₂ : 0 < m₂)
    (h : 2 ^ 52 ≤ m₁ * m₂) :
    UnpackedFloat.mul .binary64 (.finite s₁ m₁ e₁ h₁) (.finite s₂ m₂ e₂ h₂) =
      rounded (s₁ * s₂) (m₁ * 2 ^ e₁ * (m₂ * 2 ^ e₂)) := by
  have hpos : 0 < m₁ * m₂ := Nat.mul_pos h₁ h₂
  have hr : (m₁ : ℚ) * 2 ^ e₁ * (m₂ * 2 ^ e₂) = (m₁ * m₂ : ℕ) * 2 ^ (e₁ + e₂) := by
    rw [zpow_add₀ (by norm_num)]
    push_cast
    ring
  have hlast := lastExponent_eq (((m₁ * m₂ : ℕ) : ℚ) * 2 ^ (e₁ + e₂))
  rw [log_mul_zpow hpos] at hlast
  have hbits := (Nat.le_log2 hpos.ne').mpr h
  rw [hr, UnpackedFloat.mul]
  apply roundWithAccuracy_eq (by positivity)
  · rw [ofMantissa_exact, mul_div_assoc, div_self (by positivity), mul_one]
  · omega
  · exact .inl hpos.ne'

theorem log_div {a b : ℚ} (ha : 0 < a) (hb : 0 < b) :
    Int.log 2 a - Int.log 2 b - 1 ≤ Int.log 2 (a / b) ∧
    Int.log 2 (a / b) ≤ Int.log 2 a - Int.log 2 b := by
  have ha1 := Int.zpow_log_le_self (b := 2) (by decide) ha
  have ha2 := Int.lt_zpow_succ_log_self (b := 2) (by decide) a
  have hb1 := Int.zpow_log_le_self (b := 2) (by decide) hb
  have hb2 := Int.lt_zpow_succ_log_self (b := 2) (by decide) b
  have hdiv : 0 < a / b := by positivity
  constructor
  · rw [← Int.zpow_le_iff_le_log (by decide) hdiv, le_div_iff₀ hb]
    calc ((2 : ℕ) : ℚ) ^ (Int.log 2 a - Int.log 2 b - 1) * b
        ≤ ((2 : ℕ) : ℚ) ^ (Int.log 2 a - Int.log 2 b - 1) * ((2 : ℕ) : ℚ) ^ (Int.log 2 b + 1) := by
          gcongr
      _ = ((2 : ℕ) : ℚ) ^ Int.log 2 a := by
          rw [← zpow_add₀ (by norm_num)]
          congr 1
          ring
      _ ≤ a := ha1
  · rw [← Int.lt_add_one_iff, ← Int.lt_zpow_iff_log_lt (by decide) hdiv, div_lt_iff₀ hb]
    calc a < ((2 : ℕ) : ℚ) ^ (Int.log 2 a + 1) := ha2
      _ = ((2 : ℕ) : ℚ) ^ (Int.log 2 a - Int.log 2 b + 1) * ((2 : ℕ) : ℚ) ^ Int.log 2 b := by
          rw [← zpow_add₀ (by norm_num)]
          congr 1
          ring
      _ ≤ ((2 : ℕ) : ℚ) ^ (Int.log 2 a - Int.log 2 b + 1) * b := by gcongr

theorem div_finite (s₁ s₂ : Sign) {m₁ m₂ : ℕ} (e₁ e₂ : ℤ) (h₁ : 0 < m₁) (h₂ : 0 < m₂) :
    UnpackedFloat.div .binary64 (.finite s₁ m₁ e₁ h₁) (.finite s₂ m₂ e₂ h₂) =
      rounded (s₁ / s₂) (m₁ * 2 ^ e₁ / (m₂ * 2 ^ e₂)) := by
  have hlog := log_div (a := (m₁ : ℚ) * 2 ^ e₁) (b := (m₂ : ℚ) * 2 ^ e₂) (by positivity)
    (by positivity)
  rw [log_mul_zpow h₁, log_mul_zpow h₂] at hlog
  have hlast := lastExponent_eq ((m₁ : ℚ) * 2 ^ e₁ / (m₂ * 2 ^ e₂))
  have hpos : (0 : ℚ) < m₁ * 2 ^ e₁ / (m₂ * 2 ^ e₂) := by positivity
  have htotal : totalExponent m₁ e₁ - totalExponent m₂ e₂ = (m₁.log2 + e₁ : ℤ) - (m₂.log2 + e₂) := by
    rw [totalExponent, totalExponent]
    omega
  rw [UnpackedFloat.div, divCore, htotal, targetExponent_eq]
  generalize he : min (e₁ - e₂) (max ((m₁.log2 + e₁ : ℤ) - (m₂.log2 + e₂) - 53) (-1074)) = e
  obtain ⟨k, hk⟩ := Int.eq_ofNat_of_zero_le (show 0 ≤ e₁ - e₂ - e by omega)
  have hquotient : (m₁ : ℚ) * 2 ^ e₁ / (m₂ * 2 ^ e₂) / 2 ^ e = (m₁ * 2 ^ k : ℕ) / m₂ := by
    rw [show e₁ = (k : ℤ) + e₂ + e by omega, zpow_add₀ (by norm_num), zpow_add₀ (by norm_num),
      zpow_natCast]
    push_cast
    field_simp
  simp only [hk, Int.toNat_natCast, Nat.shiftLeft_eq]
  apply roundWithAccuracy_eq hpos
  · rw [ofMantissa_fraction _ _ h₂, hquotient]
  · omega
  · by_cases hsmall : e ≤ -1074
    · exact .inr hsmall
    · left
      have hle := (Int.zpow_le_iff_le_log (b := 2) (by decide) hpos).mpr (show e ≤ _ by omega)
      rw [Nat.cast_ofNat, ← one_le_div (by positivity), hquotient, one_le_div (by positivity)] at hle
      exact (Nat.div_pos (by exact_mod_cast hle) h₂).ne'

end Formulary.Double
