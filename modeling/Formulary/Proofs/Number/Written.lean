import Formulary.Expr.Basic
import Formulary.Proofs.Decimal.Text
import Formulary.Proofs.Number.Nearest
import Formulary.Proofs.Value.Interpretation

namespace Formulary

open Number

/-- What writing numbers down and reading them again relies on. -/
class WrittenNumber (ν : Type) [Number ν] : Prop extends RationalNumber ν where
  beq_self : ∀ {x : ν} {q : ℚ}, toRat? x = some q → (x == x) = true
  isInfinite_eq_false : ∀ {x : ν} {q : ℚ}, toRat? x = some q → isInfinite x = false
  isZero_of_toRat? : ∀ {x : ν}, toRat? x = some 0 → isZero x = true
  isNegative_iff : ∀ {x : ν} {q : ℚ}, toRat? x = some q → (isNegative x = true ↔ q < 0)
  sign_of_signBit : ∀ {x : ν} {q : ℚ}, toRat? x = some q → if signBit x then q ≤ 0 else 0 ≤ q
  toRat?_div_ofInt : ∀ {x y : ν} {a b g : ℤ}, toRat? x = some (a : ℚ) → toRat? y = some (b : ℚ) →
    b ≠ 0 → 0 < g → g ∣ a → g ∣ b → toRat? (x / ofInt g) = some (a / g : ℚ)
  toRat?_div_one : ∀ {x y : ν} {q : ℚ}, toRat? x = some q → toRat? y = some 1 →
    toRat? (x / y) = some q
  /-- Every decimal with the value of the one that is written is read as the number. -/
  toRat?_ofDecimal : ∀ {x : ν} {q : ℚ} {d : Decimal}, toRat? x = some q → 0 ≤ q →
    d.toRat = (decimal x).toRat → toRat? (ofDecimal d : ν) = some q
  ofDecimal_one : ((ofDecimal ⟨1, 0⟩ : ν) == one) = true

namespace Double

theorem exists_fraction_eq (p : Parts) : ∃ n : ℕ, p.fraction.2 = 2 ^ n := by
  rw [Parts.fraction]
  split
  · exact ⟨0, rfl⟩
  · exact ⟨_, rfl⟩

theorem toRat?_of_parts {x : Float} {p : Parts} (hp : parts? x = some p) :
    toRat? x.abs = some ((p.fraction.1 : ℚ) / (p.fraction.2 : ℕ)) := by
  have hx : toRat? x = some p.toRat := by rw [toRat?, hp, Option.map_some]
  have hpos : (0 : ℚ) ≤ p.mantissa * 2 ^ p.exponent := by positivity
  rw [toRat?_abs, hx, Option.map_some, Parts.toRat_eq, Parts.fraction_eq]
  split <;> simp [abs_of_nonneg hpos]

/-- A decimal with the value of the one that is written is read as the magnitude. -/
theorem toRat?_ofDecimal_of_eq {x : Float} {q : ℚ} {d : Decimal} (hx : toRat? x = some q)
    (hd : d.toRat = (decimal x).toRat) : toRat? (ofDecimal d) = some |q| := by
  have habs : toRat? x.abs = some |q| := by
    rw [toRat?_abs, hx, Option.map_some]
  obtain ⟨p, hp⟩ : ∃ p, parts? x = some p := by
    rw [toRat?, Option.map_eq_some_iff] at hx
    exact ⟨_, hx.choose_spec.1⟩
  have hfraction : (p.fraction.1 : ℚ) / (p.fraction.2 : ℕ) = |q| :=
    Option.some.inj ((toRat?_of_parts hp).symm.trans habs)
  have hdecimal : decimal x = if p.fraction.1 = 0 then ⟨0, 0⟩
      else Decimal.shortest (fun d => ofDecimal d == x.abs) p.fraction.1 p.fraction.2 := by
    rw [decimal, hp]
  rw [hdecimal] at hd
  by_cases hzero : p.fraction.1 = 0
  · have hq0 : |q| = 0 := by
      rw [← hfraction, hzero, Nat.cast_zero, zero_div]
    have hd0 : d.toRat = 0 := by
      rw [hd, if_pos hzero, Decimal.toRat, Nat.cast_zero, zero_mul]
    rw [ofDecimal_eq, if_pos hd0, hq0]
    decide +kernel
  · rw [if_neg hzero] at hd
    rcases Decimal.shortest_cases (fun d => ofDecimal d == x.abs) p.fraction.1 p.fraction.2
      with ⟨d', hback, hd'⟩ | hd'
    · rw [hd', Decimal.toRat_normal] at hd
      rw [ofDecimal_congr hd, toRat?_eq_of_beq hback, habs]
    · obtain ⟨n, hn⟩ := exists_fraction_eq p
      have hdq : d.toRat = |q| := by
        rw [hd, hd', ← hfraction, hn, Decimal.toRat_expansion]
      have hne : q ≠ 0 := by
        rw [← abs_ne_zero, ← hfraction]
        have hden : p.fraction.2 ≠ 0 := by
          rw [hn]
          positivity
        exact div_ne_zero (by exact_mod_cast hzero) (by exact_mod_cast hden)
      have hr := representable_of_toRat? hx hne
      rw [← hdq] at hr
      rw [toRat?_ofDecimal hr, hdq]

theorem toRat?_div_ofInt {x y : Float} {a b g : ℤ} (hx : toRat? x = some (a : ℚ))
    (hy : toRat? y = some (b : ℚ)) (hb : b ≠ 0) (hg : 0 < g) (ha : g ∣ a) (hgb : g ∣ b) :
    toRat? (x / Float.ofInt g) = some (a / g : ℚ) := by
  obtain ⟨n, rfl⟩ := Int.eq_ofNat_of_zero_le hg.le
  have hdivisor : Representable (n : ℚ) := by
    have hrepresentable := representable_of_toRat? hy (by exact_mod_cast hb)
    rw [← Int.cast_abs, ← Int.natCast_natAbs, Int.cast_natCast] at hrepresentable
    exact hrepresentable.of_dvd (Int.natCast_dvd.mp hgb)
  have hn := toRat?_ofInt hdivisor
  rw [Int.cast_natCast]
  refine toRat?_div hx hn hdivisor.pos fun ha0 => ?_
  have hrepresentable := representable_of_toRat? hx ha0
  rw [← Int.cast_abs, ← Int.natCast_natAbs, Int.cast_natCast] at hrepresentable ⊢
  obtain ⟨k, hk⟩ := Int.natCast_dvd.mp ha
  have hquotient : ((a.natAbs : ℕ) : ℚ) / n = k := by
    rw [hk, Nat.cast_mul, mul_div_cancel_left₀ _ hdivisor.pos.ne']
  rw [hquotient]
  exact hrepresentable.of_dvd ⟨n, by rw [hk, mul_comm]⟩

theorem toRat?_div_one {x y : Float} {q : ℚ} (hx : toRat? x = some q) (hy : toRat? y = some 1) :
    toRat? (x / y) = some q := by
  have h := toRat?_div hx hy one_pos fun hq => by
    rw [div_one]
    exact representable_of_toRat? hx hq
  rwa [div_one] at h

instance : WrittenNumber Float where
  beq_self := beq_self_of_toRat?
  isInfinite_eq_false := isInfinite_of_toRat?
  isZero_of_toRat? := isZero_of_toRat?
  isNegative_iff := less_zero_iff
  sign_of_signBit := sign_of_signBit
  toRat?_div_ofInt := toRat?_div_ofInt
  toRat?_div_one := toRat?_div_one
  toRat?_ofDecimal hx hq hd := (toRat?_ofDecimal_of_eq hx hd).trans (by rw [abs_of_nonneg hq])
  ofDecimal_one := by decide +kernel

end Double

variable {ν : Type} [Number ν]

theorem toInt?_of_toRat? {x : ν} {a : ℤ} (h : toRat? x = some (a : ℚ)) : toInt? x = some a := by
  rw [toInt?, h]
  simp

theorem toRat?_of_toInt? {x : ν} {a : ℤ} (h : toInt? x = some a) : toRat? x = some (a : ℚ) := by
  rw [toInt?] at h
  split at h
  · next q hq =>
    split at h
    · next hden =>
      rw [hq, ← Option.some.inj h, Rat.coe_int_num_of_den_eq_one hden]
    · cases h
  · cases h

variable [WrittenNumber ν]

theorem toList_text {x : ν} {q : ℚ} (hx : toRat? x = some q) :
    (Number.text x).toList = (if q < 0 then ['-'] else []) ++
      Decimal.Layout.plain.chars (decimal x) := by
  have hinfinite := WrittenNumber.isInfinite_eq_false hx
  rw [isInfinite, Bool.or_eq_false_iff] at hinfinite
  rw [Number.text, isNaN, WrittenNumber.beq_self hx, hinfinite.1, hinfinite.2]
  by_cases hq : q < 0
  · rw [(WrittenNumber.isNegative_iff hx).mpr hq, if_pos hq]
    simp [Decimal.text]
  · rw [Bool.eq_false_iff.mpr (mt (WrittenNumber.isNegative_iff hx).mp hq), if_neg hq]
    simp [Decimal.text]

/-- The text of a number without a sign is one numeral that reads back as the number. -/
theorem exists_literal_text {x : ν} {q : ℚ} (hx : toRat? x = some q) (hq : 0 ≤ q) :
    ∃ l : Decimal.Literal, l.Plain ∧ (Number.text x).toList = l.chars ∧
    toRat? (ofDecimal l.value : ν) = some q := by
  obtain ⟨l, hl, hchars, hvalue⟩ := Decimal.Layout.plain.exists_literal (decimal x)
  refine ⟨l, hl, ?_, WrittenNumber.toRat?_ofDecimal hx hq hvalue⟩
  rw [toList_text hx, if_neg hq.not_gt, List.nil_append, hchars]

theorem signBit_eq_false {x : ν} {q : ℚ} (hx : toRat? x = some q) (hq : 0 < q) :
    signBit x = false := by
  have h := WrittenNumber.sign_of_signBit hx
  cases hsign : signBit x with
  | false => rfl
  | true =>
      rw [hsign, if_pos rfl] at h
      exact absurd h hq.not_ge

theorem isZero_eq_false {q : ν} {b : ℚ} (hq : toRat? q = some b) (hb : b ≠ 0) : isZero q = false := by
  rw [Bool.eq_false_iff]
  intro h
  have := RationalNumber.toRat?_eq_of_beq h
  rw [hq, RationalNumber.toRat?_zero, Option.some.injEq] at this
  exact hb this

/-- The parts of a quotient of integers, reduced and with a positive denominator. -/
theorem toRat?_ratio_parts {p q : ν} {a b : ℤ} (hp : toRat? p = some (a : ℚ))
    (hq : toRat? q = some (b : ℚ)) (hb : b ≠ 0) :
    toRat? (Numeral.ratio p q).numerator = some ((b.sign * a : ℤ) / Int.gcd a b : ℚ) ∧
      toRat? (Numeral.ratio p q).denominator = some ((|b| : ℤ) / Int.gcd a b : ℚ) := by
  have hg : (0 : ℤ) < Int.gcd a b := by exact_mod_cast Int.gcd_pos_of_ne_zero_right a hb
  have hga := Int.gcd_dvd_left a b
  have hgb := Int.gcd_dvd_right a b
  rw [Numeral.ratio, if_neg (by rw [isZero_eq_false hq (by exact_mod_cast hb)]; decide),
    toInt?_of_toRat? hp, toInt?_of_toRat? hq]
  simp only [Numeral.commonDivisor_natAbs]
  by_cases hneg : isNegative q = true
  · have hlt : b < 0 := by exact_mod_cast (WrittenNumber.isNegative_iff hq).mp hneg
    have hp' : toRat? (-p) = some ((-a : ℤ) : ℚ) := by
      rw [RationalNumber.toRat?_neg, hp, Int.cast_neg]
      rfl
    have hq' : toRat? (-q) = some ((-b : ℤ) : ℚ) := by
      rw [RationalNumber.toRat?_neg, hq, Int.cast_neg]
      rfl
    rw [if_pos hneg, if_pos hneg, Int.sign_eq_neg_one_of_neg hlt, neg_one_mul, abs_of_neg hlt]
    exact ⟨WrittenNumber.toRat?_div_ofInt hp' hq hb hg (Int.dvd_neg.mpr hga) hgb,
      WrittenNumber.toRat?_div_ofInt hq' hq hb hg (Int.dvd_neg.mpr hgb) hgb⟩
  · have hlt : 0 < b := by
      have hle : 0 ≤ b := by
        exact_mod_cast not_lt.mp fun h => hneg ((WrittenNumber.isNegative_iff hq).mpr h)
      omega
    rw [if_neg hneg, if_neg hneg, Int.sign_eq_one_of_pos hlt, one_mul, abs_of_pos hlt]
    exact ⟨WrittenNumber.toRat?_div_ofInt hp hq hb hg hga hgb,
      WrittenNumber.toRat?_div_ofInt hq hq hb hg hgb hgb⟩

/-- A quotient of integers is reduced without loss. -/
theorem toRat?_ratio {p q : ν} {a b : ℤ} (hp : toRat? p = some (a : ℚ))
    (hq : toRat? q = some (b : ℚ)) (hb : b ≠ 0) :
    (Numeral.ratio p q).toRat? = some (a / b : ℚ) := by
  obtain ⟨hnum, hden⟩ := toRat?_ratio_parts hp hq hb
  have hg0 : ((Int.gcd a b : ℕ) : ℚ) ≠ 0 := by exact_mod_cast (Int.gcd_pos_of_ne_zero_right a hb).ne'
  have hb0 : ((|b| : ℤ) : ℚ) ≠ 0 := by exact_mod_cast abs_ne_zero.mpr hb
  rw [Numeral.toRat?, hnum, hden]
  simp only
  rw [if_neg (div_ne_zero hb0 hg0), div_div_div_cancel_right₀ hg0, Int.abs_eq_natAbs,
    ← Int.sign_mul_self_eq_natAbs, Int.cast_mul, Int.cast_mul,
    mul_div_mul_left _ _ (by exact_mod_cast mt Int.sign_eq_zero_iff_zero.mp hb)]

theorem toRat?_ofNumber {x : ν} : (Numeral.ofNumber x).toRat? = toRat? x := by
  rw [Numeral.toRat?, Numeral.ofNumber, RationalNumber.toRat?_one]
  cases toRat? x <;> simp

theorem toRat?_ratio_one {p q : ν} {r : ℚ} (hp : toRat? p = some r) (hq : toRat? q = some 1) :
    (Numeral.ratio p q).toRat? = some r := by
  cases hi : toInt? p with
  | some a =>
      have ha := toRat?_of_toInt? hi
      have hratio := toRat?_ratio (b := 1) ha (by rw [hq]; norm_num) one_ne_zero
      rw [hratio, ← hp, ha, Int.cast_one, div_one]
  | none =>
      rw [Numeral.ratio, if_neg (by rw [isZero_eq_false hq one_ne_zero]; decide), hi]
      simp only
      rw [toRat?_ofNumber, WrittenNumber.toRat?_div_one hp hq]

theorem toRat?_half : (Numeral.half : Numeral ν).toRat? = some (1 / 2) := by
  have h := toRat?_ratio (a := 1) (b := 2) (p := (one : ν)) (q := ofInt 2)
    (by rw [RationalNumber.toRat?_one]; norm_num)
    (by rw [RationalNumber.toRat?_two]; norm_num) two_ne_zero
  rw [Numeral.half, h]
  norm_num

namespace Numeral

def Proper (n : Numeral ν) : Prop :=
  ∃ p q : ℚ, Number.toRat? n.numerator = some p ∧ Number.toRat? n.denominator = some q ∧ 0 < q

/-- Quotients of integers, and numbers over one: what is reduced without rounding. -/
def Reducible (n : Numeral ν) : Prop :=
  (n.denominator == one) = true ∨ Number.isInteger n.numerator = true ∧
    Number.isInteger n.denominator = true

variable {p q : ν} {n : Numeral ν}

theorem proper_ratio {a b : ℤ} (hp : Number.toRat? p = some (a : ℚ))
    (hq : Number.toRat? q = some (b : ℚ)) (hb : b ≠ 0) : (ratio p q).Proper := by
  obtain ⟨hnum, hden⟩ := toRat?_ratio_parts hp hq hb
  have hg : (0 : ℚ) < Int.gcd a b := by exact_mod_cast Int.gcd_pos_of_ne_zero_right a hb
  exact ⟨_, _, hnum, hden, div_pos (by exact_mod_cast abs_pos.mpr hb) hg⟩

theorem proper_ratio_one {r : ℚ} (hp : Number.toRat? p = some r) (hq : Number.toRat? q = some 1) :
    (ratio p q).Proper := by
  cases hi : toInt? p with
  | some a => exact proper_ratio (b := 1) (toRat?_of_toInt? hi) (by rw [hq]; norm_num) one_ne_zero
  | none =>
      rw [ratio, if_neg (by rw [isZero_eq_false hq one_ne_zero]; decide), hi]
      exact ⟨r, 1, WrittenNumber.toRat?_div_one hp hq, RationalNumber.toRat?_one, one_pos⟩

theorem Proper.opposite (hn : n.Proper) (he : n.Reducible) :
    (ratio (-n.numerator) n.denominator).Proper ∧
      (ratio (-n.numerator) n.denominator).toRat? = n.toRat?.map Neg.neg := by
  obtain ⟨r, s, hr, hs, hpos⟩ := hn
  have hneg : Number.toRat? (-n.numerator) = some (-r) := by
    rw [RationalNumber.toRat?_neg, hr, Option.map_some]
  rw [toRat?_of_parts hr hs hpos.ne', Option.map_some, ← neg_div]
  rcases he with hone | ⟨hnum, hden⟩
  · have hs1 := (RationalNumber.toRat?_eq_of_beq hone).trans RationalNumber.toRat?_one
    rw [hs1, Option.some.injEq] at hs
    rw [← hs, div_one]
    exact ⟨proper_ratio_one hneg hs1, toRat?_ratio_one hneg hs1⟩
  · obtain ⟨a, ha⟩ := Option.isSome_iff_exists.mp hnum
    obtain ⟨b, hb⟩ := Option.isSome_iff_exists.mp hden
    have hb' := toRat?_of_toInt? hb
    rw [toRat?_of_toInt? ha, Option.some.injEq] at hr
    rw [hb', Option.some.injEq] at hs
    subst hr hs
    rw [← Int.cast_neg] at hneg ⊢
    have hb0 : b ≠ 0 := by exact_mod_cast hpos.ne'
    exact ⟨proper_ratio hneg hb' hb0, toRat?_ratio hneg hb' hb0⟩

end Numeral

end Formulary
