import Formulary.Proofs.Code.Emission
import Formulary.Proofs.Code.Emitted
import Formulary.Proofs.Expr.Normal

namespace Formulary

open Number

/-- Only what binds less tightly than a product is parenthesized after a sign. -/
theorem Rendering.code_negative {r : Rendering} (h : .product ≤ r.binding) :
    r.negative.code = r.code.negated := by
  rw [negative, if_pos h]

structure Numeral.Plain (n : Numeral Float) : Prop where
  normal : n.Normal
  finite : isFinite n.numerator = true
  unsigned : isZero n.numerator = true → signBit n.numerator = false

namespace Target

section Numerals

variable (t : Target) {x p q : Float} {n : Numeral Float}

theorem numberOf_text (hfinite : isFinite x = true) (hsign : signBit x = false) :
    numberOf (Number.text x) = x := by
  obtain ⟨q, hx⟩ := Option.isSome_iff_exists.mp hfinite
  have hq : 0 ≤ q := by
    have h := WrittenNumber.sign_of_signBit hx
    rwa [hsign, if_neg Bool.false_ne_true] at h
  have hread : toRat? (numberOf (Number.text x) : Float) = some q := toRat?_numberOf_text hx hq
  by_cases hzero : q = 0
  · subst hzero
    have hx0 : x = 0 := Double.eq_zero_of_toRat? hx hsign
    subst hx0
    exact Double.eq_zero_of_toRat? hread (by decide +kernel)
  · exact Double.eq_of_toRat? hread hx hzero

theorem treeOfCode_numberCode (hfinite : isFinite x = true) (hsign : signBit x = false) :
    t.treeOfCode (numberCode x) = .ofNumber x := by
  rw [numberCode_of_not_negative (Double.isNegative_of_signBit hsign), unsignedCode, if_pos hfinite,
    treeOfCode_number, numberOf_text hfinite hsign]

theorem negated_numberCode (hfinite : isFinite x = true) (hsign : signBit x = false) :
    (numberCode x).negated = .negative (numberCode x) := by
  rw [numberCode_of_not_negative (Double.isNegative_of_signBit hsign), unsignedCode, if_pos hfinite,
    Code.negated]
  · rintro l r ⟨⟩
  · rintro l r ⟨⟩

theorem isInteger_ofNumber {a : ℤ} (hx : toRat? x = some (a : ℚ)) :
    (Numeral.ofNumber x).isInteger = true := by
  have hone : (one == (one : Float)) = true := WrittenNumber.beq_self RationalNumber.toRat?_one
  have hinteger : Number.isInteger x = true := by
    rw [Number.isInteger, toInt?_of_toRat? hx, Option.isSome_some]
  rw [Numeral.isInteger, Numeral.ofNumber, hone, hinteger, Bool.and_self]

/-- The quotient of the parts of a normal numeral is read as the numeral. -/
theorem treeOfQuotient_of_normal (hn : n.Normal) (hone : ¬ (n.denominator == one) = true) :
    treeOfQuotient (.ofNumber n.numerator) (.ofNumber n.denominator) = .number n := by
  obtain ⟨d, hd, hle, hlowest⟩ := id hn
  have hne : 1 ≠ d := by
    rintro rfl
    rw [Double.eq_of_toRat? hd RationalNumber.toRat?_one one_ne_zero] at hone
    exact hone (WrittenNumber.beq_self RationalNumber.toRat?_one)
  obtain ⟨a, b, ha, rfl, -⟩ := hlowest (lt_of_le_of_ne hle hne)
  have hzero : isZero (Numeral.ofNumber n.denominator).numerator = false :=
    isZero_eq_false hd (zero_lt_one.trans_le hle).ne'
  rw [Expr.ofNumber, Expr.ofNumber, treeOfQuotient, isInteger_ofNumber ha, isInteger_ofNumber hd,
    hzero, if_pos (by decide)]
  exact congrArg Expr.number (Numeral.ratio_of_normal hn)

/-- A numeral without a sign is read back, and after a sign with that sign. -/
theorem treeOfCode_unsignedNumeral (hn : n.Normal) (hfinite : isFinite n.numerator = true)
    (hsign : signBit n.numerator = false) :
    t.treeOfCode (t.unsignedNumeral n).code = .number n ∧
    t.treeOfCode (t.unsignedNumeral n).negative.code = .number n.neg := by
  obtain ⟨q, hnumerator⟩ := Option.isSome_iff_exists.mp hfinite
  have hread := t.treeOfCode_numberCode hfinite hsign
  have hnegated := negated_numberCode hfinite hsign
  rw [unsignedNumeral, WrittenNumber.isInfinite_eq_false hnumerator, if_neg Bool.false_ne_true]
  split
  · next hone =>
    have hofNumber : .ofNumber n.numerator = n := by
      rw [Numeral.ofNumber, ← Double.eq_of_beq hone RationalNumber.toRat?_one one_ne_zero]
    have hnumber : (.ofNumber n.numerator : Expr Float) = .number n := congrArg Expr.number hofNumber
    have hatom : Binding.product ≤ .atom := by decide
    rw [Rendering.code_negative (r := .atom _) hatom, Rendering.atom]
    simp only [hnegated, treeOfCode_negative, hread, hnumber, Expr.neg, and_self]
  · next hone =>
    obtain ⟨d, hd, hle, -⟩ := id hn
    have hdenominator : t.treeOfCode (numberCode n.denominator) = .ofNumber n.denominator :=
      t.treeOfCode_numberCode (by rw [isFinite, hd, Option.isSome_some])
        (signBit_eq_false hd (zero_lt_one.trans_le hle))
    have hnegative : (Expr.ofNumber n.numerator).neg = .ofNumber n.neg.numerator := rfl
    have hproduct : Binding.product ≤ .product := by decide
    rw [Rendering.code_negative (r := ⟨_, .product, none⟩) hproduct]
    simp only [Code.negated, hnegated, treeOfCode_div, treeOfCode_negative, hread, hdenominator,
      hnegative]
    exact ⟨treeOfQuotient_of_normal hn hone, treeOfQuotient_of_normal hn.neg hone⟩

theorem neg_of_signBit (hn : n.Plain) (hsign : signBit n.numerator = true) :
    ∃ q : ℚ, toRat? n.numerator = some q ∧ q < 0 := by
  obtain ⟨q, hq⟩ := Option.isSome_iff_exists.mp hn.finite
  have hle := WrittenNumber.sign_of_signBit hq
  rw [hsign, if_pos rfl] at hle
  refine ⟨q, hq, lt_of_le_of_ne hle ?_⟩
  rintro rfl
  rw [hn.unsigned (WrittenNumber.isZero_of_toRat? hq)] at hsign
  cases hsign

theorem treeOfCode_opposite (hn : n.Plain) (hsign : signBit n.numerator = true) :
    t.treeOfCode (t.unsignedNumeral n.neg).code = .number n.neg ∧
      t.treeOfCode (t.unsignedNumeral n.neg).negative.code = .number n.neg.neg := by
  obtain ⟨q, hq, hlt⟩ := neg_of_signBit hn hsign
  have hneg : toRat? n.neg.numerator = some (-q) := by
    rw [Numeral.neg, RationalNumber.toRat?_neg, hq, Option.map_some]
  have hfinite : isFinite n.neg.numerator = true := by rw [isFinite, hneg, Option.isSome_some]
  exact t.treeOfCode_unsignedNumeral hn.normal.neg hfinite (signBit_eq_false hneg (neg_pos.mpr hlt))

theorem numeral_of_finite (hfinite : isFinite n.numerator = true) :
    t.numeral n = if signBit n.numerator then (t.unsignedNumeral n.neg).negative
      else t.unsignedNumeral n := by
  obtain ⟨q, hq⟩ := Option.isSome_iff_exists.mp hfinite
  rw [numeral, Numeral.isNaN_eq_false hq, if_neg Bool.false_ne_true]

theorem treeOfCode_numeral (hn : n.Plain) : t.treeOfCode (t.numeral n).code = .number n := by
  rw [t.numeral_of_finite hn.finite]
  split
  · next hsign =>
    rw [(t.treeOfCode_opposite hn hsign).2, Numeral.neg_neg]
  · next hsign =>
      exact (t.treeOfCode_unsignedNumeral hn.normal hn.finite (Bool.eq_false_of_not_eq_true hsign)).1

theorem treeOfCode_half (h : n.isHalf = true) :
    (t.treeOfCode (t.numeral n).code : Expr Float) = .number .half := by
  obtain ⟨hnumerator, hdenominator⟩ := Bool.and_eq_true_iff.mp h
  have hone : n.numerator = one := Double.eq_of_beq hnumerator RationalNumber.toRat?_one one_ne_zero
  have htwo : n.denominator = Number.ofInt 2 :=
    Double.eq_of_beq hdenominator RationalNumber.toRat?_two two_ne_zero
  have hnumerator : toRat? n.numerator = some ((1 : ℤ) : ℚ) := by
    rw [hone, RationalNumber.toRat?_one, Int.cast_one]
  have hnormal : n.Normal :=
    ⟨2, by rw [htwo, RationalNumber.toRat?_two], one_le_two,
      fun _ => ⟨1, 2, hnumerator, rfl, by decide⟩⟩
  have hplain : n.Plain :=
    ⟨hnormal, by rw [isFinite, hnumerator, Option.isSome_some],
      fun _ => signBit_eq_false hnumerator (by rw [Int.cast_one]; exact one_pos)⟩
  have hhalf : n = .half := by
    rw [← Numeral.ratio_of_normal hnormal, hone, htwo, Numeral.half]
  rw [t.treeOfCode_numeral hplain, hhalf]

end Numerals

end Target

theorem Code.Readable.negated_eq {c : Code} (h : Code.Readable .power c) :
    c.negated = .negative c := by
  obtain ⟨ts, -, hts, -⟩ := h.scanned 0 [] boundary_nil
  cases hts with
  | mul hle => exact absurd hle (by decide)
  | div hle => exact absurd hle (by decide)
  | _ => rfl

namespace Target

variable {ν : Type} [Number ν] (t : Target)

/-- A power is read back as one, called as a square root or not. -/
theorem treeOfCode_code_power {b e : Rendering} {half : Bool}
    (hhalf : half = true → (t.treeOfCode e.code : Expr ν) = .number .half) :
    (t.treeOfCode (t.power b e half).code : Expr ν) =
      .power (t.treeOfCode b.code) (t.treeOfCode e.code) := by
  rw [power]
  split
  · next hcall =>
    rw [hhalf (Bool.and_eq_true_iff.mp hcall).1]
    exact t.treeOfCode_root b.code
  · rw [treeOfCode_power, treeOfCode_within, treeOfCode_within]

def Adds (r : Rendering) (x : Expr ν) : Prop :=
  ∀ left, t.treeOfCode (Rendering.addTo left r) = .add [t.treeOfCode left, x]

variable {t}

theorem adds_of_unsigned {r : Rendering} {x : Expr ν} (h : r.magnitude = none)
    (hcode : t.treeOfCode r.code = x) : t.Adds r x := by
  intro left
  rw [Rendering.addTo, h, treeOfCode_add, treeOfCode_within, hcode]

theorem adds_negative {r : Rendering} {x : Expr ν} (hcode : t.treeOfCode r.code = x) :
    t.Adds r.negative x.neg := by
  intro left
  rw [Rendering.negative]
  split
  · rw [Rendering.addTo, treeOfCode_sub, treeOfCode_wrap, hcode]
  · rw [Rendering.addTo, treeOfCode_sub, ← hcode]
    rfl

theorem treeOfCode_foldl_addTo {rs : List Rendering} {us : List (Expr ν)}
    (hrs : List.Forall₂ t.Adds rs us) {c : Code} {ts : List (Expr ν)} (hne : ts ≠ [])
    (hc : t.treeOfCode c = .add ts) (h : ∀ x ∈ ts ++ us, x.IsTerm) :
    t.treeOfCode (rs.foldl Rendering.addTo c) = .add (ts ++ us) := by
  induction hrs generalizing c ts with
  | nil => rw [List.foldl_nil, hc, List.append_nil]
  | @cons r u rs us hr _ ih =>
      rw [List.append_cons] at h ⊢
      refine ih (by simp) ?_ h
      rw [hr, hc, Expr.add_add_pair hne fun x hx => h x (List.mem_append_left us hx)]

theorem treeOfCode_chain {cs : List Code} {c : Code} {fs : List (Expr ν)} (hne : fs ≠ [])
    (hc : t.treeOfCode c = .mul fs) (h : ∀ x ∈ fs ++ cs.map t.treeOfCode, x.IsFactor) :
    t.treeOfCode (Code.chain c cs) = .mul (fs ++ cs.map t.treeOfCode) := by
  induction cs generalizing c fs with
  | nil => rw [Code.chain, List.foldl_nil, hc, List.map_nil, List.append_nil]
  | cons d ds ih =>
      rw [List.map_cons, List.append_cons] at h ⊢
      have hchain : Code.chain c (d :: ds) = Code.chain (.mul c d) ds := rfl
      rw [hchain]
      refine ih (by simp) ?_ h
      rw [treeOfCode_mul, hc, Expr.mul_mul_pair hne fun x hx => h x (List.mem_append_left _ hx)]

end Target

end Formulary
