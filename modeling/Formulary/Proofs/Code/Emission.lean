import Formulary.Proofs.Code.Rendering

namespace Formulary

open Number Interpretation

variable {ν K : Type} [Number ν] [WrittenNumber ν] [Field K] [CharZero K] {R : Reading ν K}

namespace Numeral

variable {n : Numeral ν} {p q : ℚ}

theorem isNaN_eq_false {x : ν} (hx : Number.toRat? x = some p) : isNaN x = false := by
  rw [isNaN, WrittenNumber.beq_self hx]
  rfl

theorem toRat?_abs {x : ν} (hx : Number.toRat? x = some p) :
    Number.toRat? (Number.abs x) = some (if signBit x then -p else p) := by
  rw [Number.abs]
  split
  · rw [RationalNumber.toRat?_neg, hx, Option.map_some]
  · exact hx

theorem abs_nonneg {x : ν} (hx : Number.toRat? x = some p) : 0 ≤ if signBit x then -p else p := by
  have hsign := WrittenNumber.sign_of_signBit hx
  split at hsign
  · next h =>
    rw [if_pos h]
    exact neg_nonneg.mpr hsign
  · next h =>
    rw [if_neg h]
    exact hsign

end Numeral

namespace Target

variable {n : Numeral ν} {p q : ℚ} (hR : R.meaning.Lawful ν R.target)

include hR

theorem unsignedNumeral_means (hp : Number.toRat? n.numerator = some p)
    (hq : Number.toRat? n.denominator = some q) (hpos : 0 < q) (hnonneg : 0 ≤ p) :
    (R.target.unsignedNumeral n).Means R (some ((p / q : ℚ) : K)) := by
  obtain ⟨hnum, hnumValue⟩ := R.numberCode_readable hp hnonneg .atom
  obtain ⟨hden, hdenValue⟩ := R.numberCode_readable hq hpos.le .atom
  rw [unsignedNumeral, WrittenNumber.isInfinite_eq_false hp, if_neg Bool.false_ne_true]
  split
  · next hone =>
    have hq1 := (RationalNumber.toRat?_eq_of_beq hone).trans RationalNumber.toRat?_one
    rw [hq, Option.some.injEq] at hq1
    refine .of_code hnum ?_
    rw [hnumValue, hq1, div_one]
  · have hqK : (q : K) ≠ 0 := by exact_mod_cast hpos.ne'
    refine .of_code ((hnum.mono (by decide)).div (hden.mono (by decide))) ?_
    rw [Reading.value_div hR, hnumValue, hdenValue, divide_some _ hqK, Rat.cast_div]

theorem numeral_means (hn : n.Proper) : (R.target.numeral n).Means R (n.toRat?.map Rat.cast) := by
  obtain ⟨p, q, hp, hq, hpos⟩ := hn
  have hsign := WrittenNumber.sign_of_signBit hp
  rw [numeral, Numeral.isNaN_eq_false hp, if_neg Bool.false_ne_true,
    Numeral.toRat?_of_parts hp hq hpos.ne', Option.map_some]
  split
  · next h =>
    rw [if_pos h] at hsign
    have hneg : Number.toRat? n.neg.numerator = some (-p) := by
      rw [Numeral.neg, RationalNumber.toRat?_neg, hp, Option.map_some]
    have hmagnitude := (unsignedNumeral_means hR hneg hq hpos (neg_nonneg.mpr hsign)).negative hR
    have hvalue : -((-p / q : ℚ) : K) = (p / q : ℚ) := by
      rw [neg_div, Rat.cast_neg, neg_neg]
    rwa [Option.map_some, hvalue] at hmagnitude
  · next h =>
    rw [if_neg h] at hsign
    exact unsignedNumeral_means hR hp hq hpos hsign

omit [CharZero K] hR in
/-- A factor of one may be left out. -/
theorem means_unless_one {r : Rendering} {x : ν} {a : ℚ} (hx : Number.toRat? x = some a)
    (hr : r.Means R (some (a : K))) :
    (∀ s ∈ (if x == one then [] else [r]), s.Means R (R.value s.code)) ∧
      R.product ((if x == one then [] else [r]).map Rendering.code) = some (a : K) := by
  split
  · next hone =>
    rw [RationalNumber.toRat?_eq_of_beq hone, RationalNumber.toRat?_one, Option.some.injEq] at hx
    refine ⟨?_, ?_⟩
    · rintro s ⟨⟩
    · rw [← hx, Rat.cast_one]
      exact R.product_nil
  · exact hr.singleton

theorem numeralFraction_means (hn : n.Proper) :
    (R.target.numeralFraction n).Means R (n.toRat?.map Rat.cast) := by
  obtain ⟨p, q, hp, hq, hpos⟩ := hn
  have habs := Numeral.toRat?_abs hp
  have hnonneg := Numeral.abs_nonneg hp
  have hsigned :
      signed (signBit n.numerator) (((if signBit n.numerator then -p else p : ℚ)) : K) = p := by
    cases signBit n.numerator <;> simp [signed]
  generalize (if signBit n.numerator then -p else p) = a at habs hnonneg hsigned
  have hqK : (q : K) ≠ 0 := by exact_mod_cast hpos.ne'
  simp only [numeralFraction]
  rw [Numeral.isNaN_eq_false hp, if_neg Bool.false_ne_true, Numeral.toRat?_of_parts hp hq hpos.ne',
    Option.map_some]
  split
  · next hone =>
    have hq1 := (RationalNumber.toRat?_eq_of_beq hone).trans RationalNumber.toRat?_one
    rw [hq, Option.some.injEq] at hq1
    have hmagnitude :=
      unsignedNumeral_means hR (n := ⟨Number.abs n.numerator, one⟩) habs RationalNumber.toRat?_one
      one_pos hnonneg
    rw [div_one] at hmagnitude
    obtain ⟨htop, hvalue⟩ := means_unless_one habs hmagnitude
    refine ⟨htop, by rintro s ⟨⟩, ?_⟩
    rw [hvalue, List.map_nil, Reading.product_nil, divide_one, Option.map_some, hsigned, hq1, div_one]
  · obtain ⟨hnum, hnumValue⟩ := R.numberCode_readable habs hnonneg .atom
    obtain ⟨hden, hdenValue⟩ := R.numberCode_readable hq hpos.le .atom
    have hnumerator : (Rendering.atom (numberCode (Number.abs n.numerator))).Means R
        (some (a : K)) := .of_code hnum hnumValue
    have hdenominator : (Rendering.atom (numberCode n.denominator)).Means R (some (q : K)) :=
      .of_code hden hdenValue
    obtain ⟨htop, hvalue⟩ := means_unless_one habs hnumerator
    obtain ⟨hbottom, hbelow⟩ := hdenominator.singleton
    refine ⟨htop, hbottom, ?_⟩
    rw [hvalue, hbelow, divide_some _ hqK, Option.map_some, Rat.cast_div, ← hsigned]
    cases signBit n.numerator <;> simp [signed, neg_div]

omit hR in
theorem power_means (ht : R.target.Invertible) {b e : Rendering} {v w : Option K} (hb : b.Means R v)
    (he : e.Means R w) {half : Bool} (hhalf : half = true → w = some (1 / 2)) :
    (R.target.power b e half).Means R (v.bind fun x => w.bind fun y => R.meaning.power x y) := by
  have hreadable := (power_legible ht hb.legible he.legible half).readable
  rw [power] at hreadable ⊢
  split at hreadable
  · next h =>
    have hw := hhalf (Bool.and_eq_true_iff.mp h).1
    rw [if_pos h]
    refine .of_code hreadable ?_
    rw [Reading.value_root, hb.value, hw]
    rfl
  · next h =>
    rw [if_neg h]
    refine .of_code hreadable ?_
    rw [R.value_power, (hb.within .atom).2, (he.within .unary).2]

theorem numeralPower_means (ht : R.target.Invertible) {b : Rendering} {v : Option K}
    (hb : b.Means R v) (hn : n.Proper) :
    (R.target.numeralPower b n).Means R (v.bind fun x => (n.toRat?.map Rat.cast).bind fun y =>
      R.meaning.power x y) := by
  refine power_means ht hb (numeral_means hR hn) fun hhalf => ?_
  obtain ⟨hone, htwo⟩ := Bool.and_eq_true_iff.mp hhalf
  have hnum := (RationalNumber.toRat?_eq_of_beq hone).trans RationalNumber.toRat?_one
  have hden := (RationalNumber.toRat?_eq_of_beq htwo).trans RationalNumber.toRat?_two
  rw [Numeral.toRat?_of_parts hnum hden two_ne_zero, Option.map_some, Rat.cast_div, Rat.cast_one,
    Rat.cast_ofNat]

/-- What stands below the line for a power with a negative exponent is the power with the opposite
exponent. -/
theorem reciprocal_means (ht : R.target.Invertible) {b : Rendering} {v : Option K}
    (hb : b.Means R v) (hn : n.Proper) (hreducible : n.Reducible)
    (hnegative : n.isNegative = true) :
    ∃ u, (R.target.reciprocal b n).Means R u ∧
      u.bind Interpretation.reciprocal = v.bind fun x => (n.toRat?.map Rat.cast).bind fun y =>
        R.meaning.power x y := by
  obtain ⟨hopposite, hvalue⟩ := hn.opposite hreducible
  obtain ⟨p, q, hp, hq, hpos⟩ := hn
  have hneg : p < 0 := (WrittenNumber.isNegative_iff hp).mp hnegative
  rw [Numeral.toRat?_of_parts hp hq hpos.ne', Option.map_some] at hvalue ⊢
  have hpositive : (Numeral.ratio (-n.numerator) n.denominator).isNegative = false := by
    obtain ⟨r, s, hr, hs, hspos⟩ := hopposite
    rw [Numeral.toRat?_of_parts hr hs hspos.ne', Option.some.injEq] at hvalue
    have hrpos : 0 < r := by
      have hquotient : 0 < r / s := by
        rw [hvalue]
        exact neg_pos.mpr (div_neg_of_neg_of_pos hneg hpos)
      exact (div_pos_iff_of_pos_right hspos).mp hquotient
    rw [Numeral.isNegative, Bool.eq_false_iff, ne_eq, WrittenNumber.isNegative_iff hr]
    exact hrpos.le.not_gt
  have hplain :
      R.target.reciprocal b n = if n.isMinusOne then b
          else R.target.numeralPower b (Numeral.ratio (-n.numerator) n.denominator) := by
    simp only [Target.reciprocal]
    rw [hpositive, Bool.and_false, if_neg Bool.false_ne_true]
  rw [hplain]
  split
  · next hone =>
    obtain ⟨hnum, hden⟩ := Bool.and_eq_true_iff.mp hone
    rw [RationalNumber.toRat?_eq_of_beq hnum, RationalNumber.toRat?_minusOne, Option.some.injEq] at hp
    rw [RationalNumber.toRat?_eq_of_beq hden, RationalNumber.toRat?_one, Option.some.injEq] at hq
    refine ⟨v, hb, ?_⟩
    congr 1
    funext x
    rw [← hp, ← hq, div_one, Rat.cast_neg, Rat.cast_one, Option.bind_some]
    exact (hR.power_minusOne x).symm
  · refine ⟨_, numeralPower_means hR ht hb hopposite, ?_⟩
    rw [hvalue, Option.map_some, Option.bind_assoc]
    congr 1
    funext x
    have hlaw := hR.power_neg x _ _ hvalue (neg_pos.mpr (div_neg_of_neg_of_pos hneg hpos))
    rw [Rat.cast_neg, neg_neg] at hlaw
    rw [Option.bind_some, Option.bind_some, hlaw, Rat.cast_neg]

end Target

end Formulary
