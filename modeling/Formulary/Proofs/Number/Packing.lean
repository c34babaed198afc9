import Formulary.Number.Double
import Mathlib

namespace Formulary.Double

open Float.Model Float.Model.UnpackedFloat

def unpackedRat? : UnpackedFloat → Option ℚ
  | .finite s m e _ => some ((s.apply m : ℤ) * 2 ^ e)
  | .zero _ => some 0
  | _ => none

def Canonical : UnpackedFloat → Prop
  | .finite _ m e _ => m < 2 ^ 53 ∧ -1074 ≤ e ∧ e ≤ 971 ∧ (2 ^ 52 ≤ m ∨ e = -1074)
  | _ => True

theorem toNat_unpackMantissa (b : BitVec Format.binary64.numBits) :
    (unpackMantissa b).toNat = b.toNat % 2 ^ 52 := by
  simp [unpackMantissa]

theorem toNat_unpackExponent (b : BitVec Format.binary64.numBits) :
    (unpackExponent b).toNat = b.toNat / 2 ^ 52 % 2 ^ 11 := by
  simp [unpackExponent, Nat.shiftRight_eq_div_pow]

theorem toNat_unpackSign (b : BitVec Format.binary64.numBits) :
    (unpackSign b).toNat = b.toNat / 2 ^ 63 % 2 := by
  simp [unpackSign, Nat.shiftRight_eq_div_pow]

@[simp] theorem ofBitVec_toBitVec (s : Sign) : Sign.ofBitVec s.toBitVec = s := by
  cases s <;> rfl

@[simp] theorem toBitVec_ofBitVec (b : BitVec 1) : (Sign.ofBitVec b).toBitVec = b := by
  have hlt := b.isLt
  rw [Sign.ofBitVec]
  split
  · next h =>
    rw [h]
    rfl
  · next h =>
    have hne : b.toNat ≠ 0 := fun h0 => h (BitVec.toNat_inj.mp h0)
    have hone : b.toNat = 1 := by omega
    exact BitVec.toNat_inj.mp hone.symm

theorem toNat_one_append (m : BitVec 52) : (1#1 ++ m).toNat = m.toNat + 2 ^ 52 := by
  rw [BitVec.toNat_append, ← Nat.shiftLeft_add_eq_or_of_lt m.isLt, Nat.shiftLeft_eq, Nat.add_comm]
  rfl

theorem unpack_cases (b : BitVec Format.binary64.numBits) :
    let s := Sign.ofBitVec (unpackSign b)
    let m : ℕ := b.toNat % 2 ^ 52
    let e : ℕ := b.toNat / 2 ^ 52 % 2 ^ 11
    (e = 2047 ∧ unpackedRat? (UnpackedFloat.unpack .binary64 b) = none ∧
      Canonical (UnpackedFloat.unpack .binary64 b)) ∨
      (e = 0 ∧ m = 0 ∧ UnpackedFloat.unpack .binary64 b = .zero s) ∨
      (e = 0 ∧ ∃ h : 0 < m, UnpackedFloat.unpack .binary64 b = .finite s m (-1074) h) ∨
      (0 < e ∧ e < 2047 ∧ ∃ h : 0 < m + 2 ^ 52, UnpackedFloat.unpack .binary64 b =
          .finite s (m + 2 ^ 52) (e - 1075) h) := by
  intro s m e
  have hm : (unpackMantissa b).toNat = m := toNat_unpackMantissa b
  have he : (unpackExponent b).toNat = e := toNat_unpackExponent b
  have hlt : e < 2 ^ 11 := Nat.mod_lt _ (by decide)
  have hones : unpackExponent b = -1#_ ↔ e = 2047 := by
    rw [← BitVec.toNat_inj, he]
    rfl
  have hzero : unpackExponent b = 0#_ ↔ e = 0 := by
    rw [← BitVec.toNat_inj, he]
    rfl
  have hnone : unpackMantissa b = 0#_ ↔ m = 0 := by
    rw [← BitVec.toNat_inj, hm]
    rfl
  rw [UnpackedFloat.unpack]
  simp only [hones, hzero, hnone]
  by_cases h1 : e = 2047
  · left
    rw [if_pos h1]
    refine ⟨h1, ?_⟩
    split <;> exact ⟨rfl, trivial⟩
  · right
    rw [if_neg h1]
    by_cases h2 : e = 0
    · rw [if_pos h2]
      by_cases h3 : m = 0
      · left
        rw [dif_pos h3]
        exact ⟨h2, h3, rfl⟩
      · right
        left
        rw [dif_neg h3]
        refine ⟨h2, Nat.pos_of_ne_zero h3, ?_⟩
        simp only [hm, he, h2]
        rfl
    · right
      right
      rw [if_neg h2]
      refine ⟨by omega, by omega, by omega, ?_⟩
      simp only [toNat_one_append, hm, he]
      rfl

theorem unpack_kinds {b : BitVec Format.binary64.numBits} {s : Sign}
    (hs : Sign.ofBitVec (unpackSign b) = s) :
    UnpackedFloat.unpack .binary64 b = .notANumber ∨ UnpackedFloat.unpack .binary64 b = .infinity s ∨
      UnpackedFloat.unpack .binary64 b = .zero s ∨
        ∃ m e h, UnpackedFloat.unpack .binary64 b = .finite s m e h := by
  subst hs
  by_cases hones : unpackExponent b = -1#_
  · rw [UnpackedFloat.unpack]
    simp only [hones, if_true]
    split
    · exact .inr (.inl rfl)
    · exact .inl rfl
  · rcases unpack_cases b with ⟨he, -, -⟩ | ⟨-, -, h⟩ | ⟨-, _, h⟩ | ⟨-, -, _, h⟩
    · rw [← toNat_unpackExponent] at he
      exact absurd (BitVec.toNat_inj.mp he) hones
    · exact .inr (.inr (.inl h))
    · exact .inr (.inr (.inr ⟨_, _, _, h⟩))
    · exact .inr (.inr (.inr ⟨_, _, _, h⟩))

theorem canonical_unpack (b : BitVec Format.binary64.numBits) :
    Canonical (UnpackedFloat.unpack .binary64 b) := by
  have hm : b.toNat % 2 ^ 52 < 2 ^ 52 := Nat.mod_lt _ (by decide)
  rcases unpack_cases b with ⟨_, _, h⟩ | ⟨_, _, h⟩ | ⟨_, _, h⟩ | ⟨h1, h2, _, h⟩
  · exact h
  all_goals rw [h]
  · trivial
  · exact ⟨by omega, by omega, by omega, .inr rfl⟩
  · exact ⟨by omega, by omega, by omega, .inl (by omega)⟩

theorem unpack_packNormal (s : Sign) {m b : ℕ} (hlow : 2 ^ 52 ≤ m) (hhigh : m < 2 ^ 53) (hb : 0 < b)
    (hb' : b < 2047) :
    UnpackedFloat.unpack .binary64
      (packComponents .binary64 s (BitVec.ofNat 11 b) (BitVec.ofNat 52 m)) =
      .finite s m (b - 1075) (by omega) := by
  have he : (BitVec.ofNat 11 b).toNat = b := Nat.mod_eq_of_lt (by omega)
  have hm : (1#1 ++ BitVec.ofNat 52 m).toNat = m := by
    rw [toNat_one_append, BitVec.toNat_ofNat]
    omega
  have hones : BitVec.ofNat 11 b ≠ -1#11 := by
    rw [ne_eq, ← BitVec.toNat_inj, he]
    exact hb'.ne
  have hzero : BitVec.ofNat 11 b ≠ 0#11 := by
    rw [ne_eq, ← BitVec.toNat_inj, he]
    exact hb.ne'
  rw [UnpackedFloat.unpack]
  simp only [unpackMantissa_packComponents, unpackExponent_packComponents,
    unpackSign_packComponents, ofBitVec_toBitVec]
  rw [if_neg hones, if_neg hzero]
  simp only [hm, he]
  rfl

theorem unpack_packSubnormal (s : Sign) {m : ℕ} (hpos : 0 < m) (hlt : m < 2 ^ 52) :
    UnpackedFloat.unpack .binary64 (packComponents .binary64 s 0#11 (BitVec.ofNat 52 m)) =
      .finite s m (-1074) hpos := by
  have hm : (BitVec.ofNat 52 m).toNat = m := Nat.mod_eq_of_lt hlt
  have hones : (0#11) ≠ -1#11 := by decide
  have hsome : BitVec.ofNat 52 m ≠ 0#52 := by
    rw [ne_eq, ← BitVec.toNat_inj, hm]
    exact hpos.ne'
  rw [UnpackedFloat.unpack]
  simp only [unpackMantissa_packComponents, unpackExponent_packComponents,
    unpackSign_packComponents, ofBitVec_toBitVec]
  rw [if_neg hones, if_pos trivial, dif_neg hsome]
  simp only [hm]
  rfl

/-- Packing loses nothing of what a double can hold. -/
theorem unpack_pack {u : UnpackedFloat} (h : Canonical u) :
    UnpackedFloat.unpack .binary64 (UnpackedFloat.pack .binary64 u) = u := by
  cases u with
  | notANumber => rfl
  | infinity s => cases s <;> rfl
  | zero s => cases s <;> rfl
  | finite s m e hm =>
      obtain ⟨hlt, hmin, hmax, hnormal⟩ := h
      have hlog : m.log2 < 53 := (Nat.log2_lt hm.ne').mpr hlt
      have hb : (e + (Format.exponentBias .binary64 : ℕ) +
          (Format.mantissaBitsWithoutImplicit .binary64 : ℕ)).toNat = (e + 1075).toNat := by
        congr 1
        exact add_assoc e 1023 52
      rw [UnpackedFloat.pack]
      simp only [hb]
      rw [if_neg (show ¬ 2048 ≤ (e + 1075).toNat + 1 by omega)]
      by_cases hbig : 2 ^ 52 ≤ m
      · have hfull : m.log2 + 1 = Format.mantissaBits .binary64 := by
          have := (Nat.le_log2 hm.ne').mpr hbig
          change m.log2 + 1 = 53
          omega
        rw [if_pos hfull]
        refine (unpack_packNormal s hbig hlt (by omega) (by omega)).trans ?_
        congr 1
        omega
      · have hsmall : ¬ m.log2 + 1 = Format.mantissaBits .binary64 := by
          have := (Nat.log2_lt hm.ne').mpr (Nat.not_le.mp hbig)
          change ¬ m.log2 + 1 = 53
          omega
        rw [if_neg hsmall]
        refine (unpack_packSubnormal s hm (Nat.not_le.mp hbig)).trans ?_
        congr 1
        omega

theorem Parts.fraction_eq (p : Parts) :
    ((p.fraction.1 : ℕ) : ℚ) / (p.fraction.2 : ℕ) = p.mantissa * 2 ^ p.exponent := by
  rw [Parts.fraction]
  by_cases he : 0 ≤ p.exponent
  · obtain ⟨n, hn⟩ := Int.eq_ofNat_of_zero_le he
    simp [hn]
  · obtain ⟨n, hn⟩ := Int.eq_ofNat_of_zero_le (show 0 ≤ -p.exponent by omega)
    rw [if_neg he, hn, show p.exponent = -(n : ℤ) by omega, zpow_neg, zpow_natCast, div_eq_mul_inv]
    simp

theorem Parts.toRat_eq (p : Parts) :
    p.toRat = ((if p.negative then -(p.mantissa : ℤ) else p.mantissa : ℤ) : ℚ) * 2 ^ p.exponent := by
  have h := p.fraction_eq
  rw [Parts.toRat]
  simp only [Rat.mkRat_eq_div]
  split
  · push_cast
    rw [neg_div, h, neg_mul]
  · push_cast
    rw [h]

def bits (x : Float) : BitVec Format.binary64.numBits := x.toModel.toBits.toBitVec

theorem toModel_unpack (x : Float) : x.toModel.unpack = UnpackedFloat.unpack .binary64 (bits x) := rfl

theorem toNat_of_unpack {b : BitVec Format.binary64.numBits} {s : Sign} {m : ℕ} {e : ℤ} {h : 0 < m}
    (hu : UnpackedFloat.unpack .binary64 b = .finite s m e h) :
    b.toNat = s.toBitVec.toNat * 2 ^ 63 + if m < 2 ^ 52 then m
      else (e + 1075).toNat * 2 ^ 52 + (m - 2 ^ 52) := by
  have hlt : b.toNat < 2 ^ 64 := b.isLt
  have hsign : (Sign.ofBitVec (unpackSign b)).toBitVec.toNat = b.toNat / 2 ^ 63 % 2 := by
    rw [toBitVec_ofBitVec, toNat_unpackSign]
  rcases unpack_cases b with ⟨-, hnone, -⟩ | ⟨-, -, hzero⟩ | ⟨he, _, hfinite⟩ | ⟨-, -, _, hfinite⟩
  · rw [hu] at hnone
    cases hnone
  · rw [hu] at hzero
    cases hzero
  · rw [hu] at hfinite
    cases hfinite
    rw [hsign, if_pos (Nat.mod_lt _ (by decide))]
    omega
  · rw [hu] at hfinite
    cases hfinite
    rw [hsign, if_neg (Nat.not_lt.mpr (Nat.le_add_left _ _))]
    omega

theorem eq_of_unpack {x y : Float} {s : Sign} {m : ℕ} {e : ℤ} {h : 0 < m}
    (hx : x.toModel.unpack = .finite s m e h) (hy : y.toModel.unpack = .finite s m e h) :
    x = y := by
  have hbits : (bits x).toNat = (bits y).toNat := (toNat_of_unpack hx).trans (toNat_of_unpack hy).symm
  rcases x with ⟨⟨a, _⟩⟩
  rcases y with ⟨⟨b, _⟩⟩
  congr 2
  exact UInt64.toNat_inj.mp hbits

theorem sign_eq (x : Float) : Sign.ofBitVec (unpackSign (bits x)) = if signBit x then .negative
    else .positive := by
  have hlt := (bits x).isLt
  have hone : unpackSign (bits x) = 0#1 ↔ ¬ signBit x = true := by
    rw [← BitVec.toNat_inj, toNat_unpackSign, signBit, beq_iff_eq]
    change (bits x).toNat / 2 ^ 63 % 2 = 0 ↔ ¬ (bits x).toNat / 2 ^ 63 = 1
    change (bits x).toNat < 2 ^ 64 at hlt
    omega
  rw [Sign.ofBitVec]
  by_cases h : signBit x = true
  · rw [if_neg (by rw [hone]; exact not_not.mpr h), if_pos h]
  · rw [if_pos (hone.mpr h), if_neg h]

theorem toRat?_eq (x : Float) : toRat? x = unpackedRat? x.toModel.unpack := by
  have hbits : x.toBits.toNat = (bits x).toNat := rfl
  rw [toModel_unpack, toRat?, parts?]
  simp only [Nat.pow_eq, hbits]
  rcases unpack_cases (bits x) with ⟨he, h, -⟩ | ⟨he, hm, h⟩ | ⟨he, _, h⟩ | ⟨he, he', _, h⟩
  · rw [if_pos he, h]
    rfl
  · rw [if_neg (by omega), if_pos he, h, Option.map_some, Parts.toRat_eq, hm]
    simp [unpackedRat?]
  · rw [if_neg (by omega), if_pos he, h, Option.map_some, Parts.toRat_eq, sign_eq]
    cases signBit x <;> simp only [unpackedRat?, Sign.apply, Bool.false_eq_true, if_true, if_false]
  · rw [if_neg (by omega), if_neg (by omega), h, Option.map_some, Parts.toRat_eq, sign_eq]
    cases signBit x <;> simp only [unpackedRat?, Sign.apply, Bool.false_eq_true, if_true, if_false]

end Formulary.Double
