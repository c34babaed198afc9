import Formulary.Proofs.Sign.Facts
import Mathlib

namespace Formulary.Double

open Float.Model Float.Model.UnpackedFloat

/-- No double stands between a rational and a place. -/
def Adjacent (r : ℚ) (y : EReal) : Prop :=
  ∀ (x : Float) (q : ℚ), toRat? x = some q → (q ≤ r → ((q : ℝ) : EReal) ≤ y) ∧
    (r ≤ q → y ≤ ((q : ℝ) : EReal))

variable {r q : ℚ} {y : EReal}

/-- The value of a double is read exactly. -/
theorem Adjacent.eq (h : Adjacent r y) {x : Float} (hx : toRat? x = some r) : y = ((r : ℝ) : EReal) :=
  le_antisymm ((h x r hx).2 le_rfl) ((h x r hx).1 le_rfl)

theorem adjacent_of_representable (hr : 0 ≤ r) (hy : 0 ≤ y)
    (hbelow : ∀ q, Representable q → q ≤ r → ((q : ℝ) : EReal) ≤ y)
    (habove : ∀ q, Representable q → r ≤ q → y ≤ ((q : ℝ) : EReal)) (hzero : r = 0 → y ≤ 0) :
    Adjacent r y := by
  intro x q hx
  rcases lt_trichotomy q 0 with hq | rfl | hq
  · refine ⟨fun _ => ?_, fun h => absurd (hr.trans h) (not_le.mpr hq)⟩
    exact le_trans (EReal.coe_nonpos.mpr (by exact_mod_cast hq.le)) hy
  · refine ⟨fun _ => ?_, fun h => ?_⟩
    · simpa using hy
    · simpa using hzero (le_antisymm h hr)
  · have h := representable_of_toRat? hx hq.ne'
    rw [abs_of_pos hq] at h
    exact ⟨hbelow q h, habove q h⟩

theorem adjacent_zero (hr : 0 ≤ r) (h : ∀ q, Representable q → ¬ q ≤ r) : Adjacent r 0 :=
  adjacent_of_representable hr le_rfl (fun q hq hle => absurd hle (h q hq))
    (fun _ hq _ => EReal.coe_nonneg.mpr (by exact_mod_cast hq.pos.le)) fun _ => le_rfl

theorem adjacent_top (hr : 0 < r) (h : ∀ q, Representable q → ¬ r ≤ q) : Adjacent r ⊤ :=
  adjacent_of_representable hr.le le_top (fun _ _ _ => le_top) (fun q hq hle => absurd hle (h q hq))
    fun hzero => absurd hzero hr.ne'

theorem roundedMantissa_step (m : ExtendedMantissa) :
    m.mantissa ≤ m.roundedMantissa ∧ m.roundedMantissa ≤ m.mantissa + 1 := by
  obtain ⟨m, round, sticky⟩ := m
  have hmod := Nat.mod_lt m (show 0 < 2 by decide)
  cases round <;> cases sticky <;>
    simp only [ExtendedMantissa.roundedMantissa, ExtendedMantissa.accuracy,
      Accuracy.roundToNearestEven] <;> omega

theorem roundedMantissa_bounds {x : ℚ} (hx : 0 ≤ x) :
    ⌊x⌋₊ ≤ (extended x).roundedMantissa ∧ (extended x).roundedMantissa ≤ ⌈x⌉₊ := by
  by_cases hwhole : ((⌊x⌋₊ : ℕ) : ℚ) = x
  · have hexact : (extended x).roundedMantissa = ⌊x⌋₊ := by
      nth_rewrite 1 [← hwhole]
      rw [← ofMantissa_exact]
      rfl
    rw [hexact]
    exact ⟨le_rfl, Nat.floor_le_ceil x⟩
  · obtain ⟨hlow, hhigh⟩ := roundedMantissa_step (extended x)
    exact ⟨hlow, hhigh.trans (Nat.lt_ceil.mpr (lt_of_le_of_ne (Nat.floor_le hx) hwhole))⟩

def kept (r : ℚ) : ℕ := (extended (r / 2 ^ lastExponent r)).roundedMantissa

theorem kept_bounds (hr : 0 < r) :
    ⌊r / 2 ^ lastExponent r⌋₊ ≤ kept r ∧ kept r ≤ ⌈r / 2 ^ lastExponent r⌉₊ :=
  roundedMantissa_bounds (by positivity)

theorem kept_le (hr : 0 < r) : kept r ≤ 2 ^ 53 := by
  have hlast := lastExponent_eq r
  refine (kept_bounds hr).2.trans (Nat.ceil_le.mpr ?_)
  rw [div_le_iff₀ (by positivity)]
  calc r ≤ ((2 : ℕ) : ℚ) ^ (Int.log 2 r + 1) := (Int.lt_zpow_succ_log_self (by decide) r).le
    _ ≤ (2 : ℚ) ^ ((53 : ℕ) + lastExponent r) := by
        rw [Nat.cast_ofNat]
        exact zpow_le_zpow_right₀ (by norm_num) (by omega)
    _ = ((2 ^ 53 : ℕ) : ℚ) * 2 ^ lastExponent r := by
        rw [zpow_add₀ (by norm_num), zpow_natCast, Nat.cast_pow, Nat.cast_ofNat]

/-- Above the least exponent the mantissa has all its bits. -/
theorem le_floor (hr : 0 < r) (h : lastExponent r ≠ -1074) : 2 ^ 52 ≤ ⌊r / 2 ^ lastExponent r⌋₊ := by
  have hlast := lastExponent_eq r
  refine Nat.le_floor ?_
  rw [le_div_iff₀ (by positivity)]
  calc ((2 ^ 52 : ℕ) : ℚ) * 2 ^ lastExponent r = (2 : ℚ) ^ ((52 : ℕ) + lastExponent r) := by
        rw [zpow_add₀ (by norm_num), zpow_natCast, Nat.cast_pow, Nat.cast_ofNat]
    _ = ((2 : ℕ) : ℚ) ^ Int.log 2 r := by
        rw [Nat.cast_ofNat]
        congr 1
        omega
    _ ≤ r := Int.zpow_log_le_self (by decide) hr

theorem shift_kept {k : ℕ} {t : ℤ} (hlt : k < 2 ^ 53) (ht : -1074 ≤ t) :
    shiftToTargetExponent .binary64 k t .exact = (⟨k, false, false⟩, t) := by
  have hlog : k.log2 < 53 := by
    rcases Nat.eq_zero_or_pos k with rfl | hk
    · decide
    · exact (Nat.log2_lt hk.ne').mpr hlt
  have htarget : (Format.binary64.targetExponent (totalExponent k t) - t).toNat = 0 := by
    rw [targetExponent_eq, totalExponent]
    omega
  rw [shiftToTargetExponent, shiftToExponent, htarget, Nat.cast_zero, add_zero]
  rfl

theorem shift_carry {t : ℤ} (ht : -1074 ≤ t) :
    shiftToTargetExponent .binary64 (2 ^ 53) t .exact = (⟨2 ^ 52, false, false⟩, t + 1) := by
  have htarget : (Format.binary64.targetExponent (totalExponent (2 ^ 53) t) - t).toNat = 1 := by
    rw [targetExponent_eq, totalExponent, Nat.log2_two_pow]
    omega
  rw [shiftToTargetExponent, shiftToExponent, htarget]
  rfl

theorem le_lastExponent (r : ℚ) : -1074 ≤ lastExponent r := by
  rw [lastExponent_eq]
  exact le_max_right _ _

/-- What a magnitude is rounded to, unless that is zero. -/
theorem exists_rounded (hr : 0 < r) (hk : kept r ≠ 0) :
    ∃ m e hm, rounded .positive r = .finite .positive m e hm ∧
    (m : ℚ) * 2 ^ e = kept r * 2 ^ lastExponent r ∧ m < 2 ^ 53 ∧ -1074 ≤ e ∧
    (2 ^ 52 ≤ m ∨ e = -1074) := by
  have hlast := le_lastExponent r
  have hrounded : rounded .positive r =
      ofMantissa .positive (shiftToTargetExponent .binary64 (kept r) (lastExponent r) .exact) := rfl
  rcases lt_or_eq_of_le (kept_le hr) with hlt | heq
  · rw [shift_kept hlt hlast] at hrounded
    refine ⟨kept r, lastExponent r, Nat.pos_of_ne_zero hk, hrounded.trans (dif_neg hk), rfl,
      hlt, hlast, ?_⟩
    exact or_iff_not_imp_right.mpr fun h => (le_floor hr h).trans (kept_bounds hr).1
  · rw [heq, shift_carry hlast] at hrounded
    refine ⟨2 ^ 52, lastExponent r + 1, by decide, hrounded, ?_, by decide, by omega, .inl le_rfl⟩
    rw [heq, zpow_add_one₀ (by norm_num)]
    push_cast
    ring

theorem toExact_packed_of_lt {m : ℕ} {e : ℤ} (hm : 0 < m) (he : 971 < e) :
    Number.toExact (packed (.finite .positive m e hm)) = .infinite false := by
  have hbiased :
      2 ^ Format.exponentBits .binary64 ≤ (e + (Format.exponentBias .binary64 : ℕ) +
          (Format.mantissaBitsWithoutImplicit .binary64 : ℕ)).toNat + 1 := by
    change 2 ^ 11 ≤ (e + (1023 : ℕ) + (52 : ℕ)).toNat + 1
    omega
  have hpack : UnpackedFloat.pack .binary64 (.finite .positive m e hm) =
      packedInfinity .binary64 .positive := by
    rw [UnpackedFloat.pack]
    exact if_pos hbiased
  have hunpack : (packed (.finite .positive m e hm)).toModel.unpack =
      UnpackedFloat.unpack .binary64 (UnpackedFloat.pack .binary64 (.finite .positive m e hm)) := rfl
  rw [toExact_eq, hunpack, hpack]
  rfl

/-- The place that a magnitude is rounded to. -/
theorem toExact_nearest (hr : 0 < r) :
    Number.toExact (nearest r) = .finite (kept r * 2 ^ lastExponent r) ∨
      Number.toExact (nearest r) = .infinite false ∧
        (2 : ℚ) ^ (1024 : ℤ) ≤ kept r * 2 ^ lastExponent r := by
  by_cases hk : kept r = 0
  · left
    have hzero : rounded .positive r = .zero .positive := by
      change ofMantissa .positive (shiftToTargetExponent .binary64 (kept r) (lastExponent r) .exact)
        = _
      rw [hk, shift_kept (by decide) (le_lastExponent r)]
      rfl
    have hcanonical : Canonical (.zero .positive) := trivial
    rw [nearest, hzero, hk, Nat.cast_zero, zero_mul, toExact_eq, unpack_packed hcanonical]
    rfl
  · obtain ⟨m, e, hm, hrounded, hvalue, hlt, hmin, hnormal⟩ := exists_rounded hr hk
    rw [nearest, hrounded, ← hvalue]
    by_cases he : e ≤ 971
    · left
      have hcanonical : Canonical (.finite .positive m e hm) := ⟨hlt, hmin, he, hnormal⟩
      rw [toExact_eq, unpack_packed hcanonical]
      rfl
    · refine .inr ⟨toExact_packed_of_lt hm (not_le.mp he), ?_⟩
      have hbig : 2 ^ 52 ≤ m := hnormal.resolve_right (by omega)
      calc (2 : ℚ) ^ (1024 : ℤ) = (2 ^ 52 : ℕ) * 2 ^ (972 : ℤ) := by
            rw [show (1024 : ℤ) = (52 : ℕ) + 972 by norm_num, zpow_add₀ (by norm_num), zpow_natCast,
              Nat.cast_pow, Nat.cast_ofNat]
        _ ≤ m * 2 ^ e := by
            gcongr
            · norm_num
            · omega

theorem lastExponent_mono (hr : 0 < r) (h : r ≤ q) : lastExponent r ≤ lastExponent q := by
  have hlog := Int.log_mono_right (b := 2) hr h
  rw [lastExponent_eq, lastExponent_eq]
  omega

/-- A double is a multiple of every smaller unit. -/
theorem Representable.exists_multiple (h : Representable q) {t : ℤ} (ht : t ≤ lastExponent q) :
    ∃ n : ℕ, q = n * 2 ^ t := by
  obtain ⟨m, e, hm, hlt, he, rfl, -⟩ := h
  obtain ⟨k, -, hk⟩ := exists_mantissa hm hlt he
  obtain ⟨d, hd⟩ := Int.eq_ofNat_of_zero_le (sub_nonneg.mpr ht)
  refine ⟨k * 2 ^ d, ?_⟩
  rw [← hk, eq_add_of_sub_eq hd, zpow_add₀ (by norm_num), zpow_natCast]
  push_cast
  ring

theorem Representable.le_floor (h : Representable q) (hle : q ≤ r) :
    q ≤ ⌊r / 2 ^ lastExponent r⌋₊ * 2 ^ lastExponent r := by
  have hr : 0 < r := h.pos.trans_le hle
  rcases le_or_gt (lastExponent r) (lastExponent q) with ht | ht
  · obtain ⟨n, rfl⟩ := h.exists_multiple ht
    gcongr
    apply Nat.le_floor
    rwa [le_div_iff₀ (by positivity)]
  · -- With a smaller last exponent the double is below the least magnitude that has the larger one.
    have hq := lastExponent_eq q
    have hlast := lastExponent_eq r
    calc q ≤ ((2 : ℕ) : ℚ) ^ (Int.log 2 q + 1) := (Int.lt_zpow_succ_log_self (by decide) q).le
      _ ≤ (2 : ℚ) ^ ((52 : ℕ) + lastExponent r) := by
          rw [Nat.cast_ofNat]
          exact zpow_le_zpow_right₀ (by norm_num) (by omega)
      _ = ((2 ^ 52 : ℕ) : ℚ) * 2 ^ lastExponent r := by
          rw [zpow_add₀ (by norm_num), zpow_natCast, Nat.cast_pow, Nat.cast_ofNat]
      _ ≤ ⌊r / 2 ^ lastExponent r⌋₊ * 2 ^ lastExponent r := by
          gcongr
          exact Double.le_floor hr (by omega)

theorem Representable.ceil_le (h : Representable q) (hr : 0 < r) (hle : r ≤ q) :
    ⌈r / 2 ^ lastExponent r⌉₊ * 2 ^ lastExponent r ≤ q := by
  obtain ⟨n, rfl⟩ := h.exists_multiple (lastExponent_mono hr hle)
  gcongr
  apply Nat.ceil_le.mpr
  rwa [div_le_iff₀ (by positivity)]

theorem adjacent_nearest (hr : 0 < r) :
    ∃ y, (Number.toExact (nearest r)).toEReal? = some y ∧ Adjacent r y := by
  have hunit : (0 : ℚ) < 2 ^ lastExponent r := by positivity
  obtain ⟨hlow, hhigh⟩ := kept_bounds hr
  have hbelow (q : ℚ) (hq : Representable q) (hle : q ≤ r) : q ≤ kept r * 2 ^ lastExponent r := by
    refine (hq.le_floor hle).trans ?_
    gcongr
  have habove (q : ℚ) (hq : Representable q) (hle : r ≤ q) : kept r * 2 ^ lastExponent r ≤ q := by
    refine le_trans ?_ (hq.ceil_le hr hle)
    gcongr
  rcases toExact_nearest hr with h | ⟨h, hbig⟩
  · rw [h]
    refine ⟨_, rfl, adjacent_of_representable hr.le ?_ ?_ ?_ fun h => absurd h hr.ne'⟩
    · exact EReal.coe_nonneg.mpr (by positivity)
    · exact fun q hq hle => EReal.coe_le_coe_iff.mpr (by exact_mod_cast hbelow q hq hle)
    · exact fun q hq hle => EReal.coe_le_coe_iff.mpr (by exact_mod_cast habove q hq hle)
  · rw [h]
    refine ⟨⊤, rfl, adjacent_top hr fun q hq hle => ?_⟩
    have hsmall := hbig.trans (habove q hq hle)
    obtain ⟨_, _, _, _, _, _, hlt⟩ := hq
    exact absurd hsmall (not_le.mpr hlt)

/-- A decimal is read at a place beside it. -/
theorem adjacent_ofDecimal (d : Decimal) :
    ∃ y, (Number.toExact (ofDecimal d)).toEReal? = some y ∧ Adjacent d.toRat y := by
  have hd : 0 ≤ d.toRat := by
    rw [Decimal.toRat]
    positivity
  have hzero : (Number.toExact (0 : Float)).toEReal? = some 0 := by
    have hplace : Number.toExact (0 : Float) = Number.zero := Number.toExact_zero
    rw [hplace, Exact.toEReal?_zero]
  have hmono {p q : ℚ} (hp : 0 < p) (h : p ≤ q) : Int.log 10 p ≤ Int.log 10 q :=
    Int.log_mono_right (b := 10) hp h
  rw [ofDecimal_eq]
  split
  · next h =>
    rw [h]
    exact ⟨0, hzero, adjacent_zero le_rfl fun q hq => not_le.mpr hq.pos⟩
  · next hne =>
    have hpos : 0 < d.toRat := lt_of_le_of_ne hd (Ne.symm hne)
    split
    · next hbig =>
      have hplace : Number.toExact infinity = .infinite false := OrderedNumber.toExact_infinity
      rw [hplace]
      refine ⟨⊤, rfl, adjacent_top hpos fun q hq hle => ?_⟩
      have hlog := hq.log_bounds.2
      have := hmono hpos hle
      omega
    · split
      · next hsmall =>
        refine ⟨0, hzero, adjacent_zero hd fun q hq hle => ?_⟩
        have hlog := hq.log_bounds.1
        have := hmono hq.pos hle
        omega
      · exact adjacent_nearest hpos

theorem toEReal?_neg (x : Float) :
    (Number.toExact (-x)).toEReal? = (Number.toExact x).toEReal?.map Neg.neg := by
  have hneg : (-x).toModel.unpack = x.toModel.unpack.neg :=
    unpack_packed (canonical_neg (canonical_toModel x))
  rw [toExact_eq, toExact_eq, hneg]
  cases x.toModel.unpack with
  | finite s m e hm =>
      simp only [UnpackedFloat.neg, place, Exact.toEReal?, Option.map_some, apply_neg, Int.cast_neg,
        neg_mul, Rat.cast_neg, EReal.coe_neg]
  | zero s =>
    simp only [UnpackedFloat.neg, place, Exact.toEReal?, Option.map_some, Rat.cast_zero,
      EReal.coe_zero, neg_zero]
  | infinity s =>
      cases s with
      | positive => exact congrArg some EReal.neg_top.symm
      | negative => exact congrArg some EReal.neg_bot.symm
  | notANumber => rfl

theorem Adjacent.neg (h : Adjacent r y) : Adjacent (-r) (-y) := by
  intro x q hx
  have hneg : toRat? (-x) = some (-q) := by rw [toRat?_neg, hx, Option.map_some]
  have hcoe : (((-q : ℚ) : ℝ) : EReal) = -((q : ℝ) : EReal) := by
    rw [Rat.cast_neg, EReal.coe_neg]
  obtain ⟨hbelow, habove⟩ := h (-x) (-q) hneg
  rw [hcoe] at hbelow habove
  exact ⟨fun hle => EReal.le_neg_of_le_neg (habove (le_neg_of_le_neg hle)),
    fun hle => EReal.neg_le_of_neg_le (hbelow (neg_le.mp hle))⟩

end Formulary.Double
