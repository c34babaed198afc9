import Formulary.Code.Emit
import Formulary.Code.Read
import Formulary.Proofs.Code.Readable
import Formulary.Proofs.Number.Written

namespace Formulary

open Number

namespace Interpretation

variable {K : Type} [Field K]

open Classical in
/-- One over a value other than zero. -/
noncomputable def reciprocal (v : K) : Option K := if v = 0 then none else some v⁻¹

noncomputable def divide (a b : Option K) : Option K := Option.map₂ (· * ·) a (b.bind reciprocal)

theorem reciprocal_of_ne_zero {v : K} (hv : v ≠ 0) : reciprocal v = some v⁻¹ := if_neg hv

theorem reciprocal_one : reciprocal (1 : K) = some 1 := by
  rw [reciprocal_of_ne_zero one_ne_zero, inv_one]

theorem reciprocal_mul (v w : K) :
    reciprocal (v * w) = Option.map₂ (· * ·) (reciprocal v) (reciprocal w) := by
  by_cases hv : v = 0
  · simp [reciprocal, hv]
  · by_cases hw : w = 0
    · simp [reciprocal, hw]
    · rw [reciprocal_of_ne_zero hv, reciprocal_of_ne_zero hw,
        reciprocal_of_ne_zero (mul_ne_zero hv hw), mul_inv]
      rfl

@[simp] theorem divide_one (a : Option K) : divide a (some 1) = a := by
  rw [divide, Option.bind_some, reciprocal_one, Option.map₂_right_identity mul_one]

theorem divide_mul (a b c d : Option K) :
    divide (Option.map₂ (· * ·) a b) (Option.map₂ (· * ·) c d) =
      Option.map₂ (· * ·) (divide a c) (divide b d) := by
  have hbelow : (Option.map₂ (· * ·) c d).bind reciprocal =
      Option.map₂ (· * ·) (c.bind reciprocal) (d.bind reciprocal) := by
    cases c with
    | none => rfl
    | some v =>
        cases d with
        | none =>
          rw [Option.bind_none, Option.map₂_none_right, Option.map₂_none_right, Option.bind_none]
        | some w => exact reciprocal_mul v w
  rw [divide, hbelow]
  cases a <;> cases b <;> cases h : c.bind reciprocal <;> cases h' : d.bind reciprocal
    <;> simp [divide, h, h', mul_mul_mul_comm]

theorem map_neg_divide (a b : Option K) : divide (a.map Neg.neg) b = (divide a b).map Neg.neg := by
  rw [divide, divide]
  exact (Option.map_map₂_distrib_left fun v w => (neg_mul v w).symm).symm

theorem divide_some (v : K) {w : K} (hw : w ≠ 0) : divide (some v) (some w) = some (v / w) := by
  rw [divide, Option.bind_some, reciprocal_of_ne_zero hw, div_eq_mul_inv]
  rfl

/-- What emitted code relies on: negative powers are reciprocals, roots are powers, a logarithm to a
base is a quotient, and a long call of a function of two arguments is nested to the right. -/
structure Lawful (ν : Type) [Number ν] (t : Target) (I : Interpretation K) : Prop where
  power_minusOne : ∀ v, I.power v (-1) = reciprocal v
  power_neg : ∀ (v : K) (n : Numeral ν) (r : ℚ), n.toRat? = some r → 0 < r →
    I.power v (-r) = (I.power v r).bind reciprocal
  sqrt : ∀ v, I.call "Sqrt" [v] = I.power v (1 / 2)
  log : ∀ b v, I.call "Log" [b, v] = divide (I.call "Log" [v]) (I.call "Log" [b])
  nested : ∀ h ∈ t.binaryHeads, ∀ u v w ws, I.call h (u :: v :: w :: ws) =
    (I.call h (v :: w :: ws)).bind fun r => I.call h [u, r]

theorem Lawful.bind_nested {ν : Type} [Number ν] {t : Target} {I : Interpretation K}
    (hI : I.Lawful ν t) {h : String} (hh : h ∈ t.binaryHeads) (a b c : Option K)
    (ds : Option (List K)) :
    (Option.map₂ List.cons a
        (Option.map₂ List.cons ((Option.map₂ List.cons b (Option.map₂ List.cons c ds)).bind
          (I.call h)) (some []))).bind (I.call h) =
      (Option.map₂ List.cons a (Option.map₂ List.cons b (Option.map₂ List.cons c ds))).bind
        (I.call h) := by
  cases a <;> cases b <;> cases c <;> cases ds <;> try rfl
  next u v w ws =>
  rw [Option.map₂_some_some, Option.map₂_some_some, Option.map₂_some_some, Option.bind_some,
    Option.bind_some, hI.nested h hh]
  cases I.call h (v :: w :: ws) <;> rfl

end Interpretation

namespace Target

variable {ν : Type} [Number ν] (t : Target)

theorem treesOfCodes_eq_map (cs : List Code) :
    (t.treesOfCodes cs : List (Expr ν)) = cs.map t.treeOfCode := by
  induction cs with
  | nil => rfl
  | cons c cs ih =>
      rw [List.map_cons, ← ih]
      rfl

@[simp] theorem treeOfCode_number (s : String) :
    (t.treeOfCode (.number s) : Expr ν) = .ofNumber (numberOf s) := rfl

@[simp] theorem treeOfCode_imaginary (s : String) :
    (t.treeOfCode (.imaginary s) : Expr ν) = treeOfImaginary s := rfl

@[simp] theorem treeOfCode_name (s : String) : (t.treeOfCode (.name s) : Expr ν) = t.treeOfName s :=
  rfl

@[simp] theorem treeOfCode_call (f : String) (cs : List Code) :
    (t.treeOfCode (.call f cs) : Expr ν) = t.treeOfCall f (cs.map t.treeOfCode) := by
  rw [← treesOfCodes_eq_map]
  rfl

@[simp] theorem treeOfCode_list (cs : List Code) :
    (t.treeOfCode (.list cs) : Expr ν) = .list (cs.map t.treeOfCode) := by
  rw [← treesOfCodes_eq_map]
  rfl

@[simp] theorem treeOfCode_paren (c : Code) : (t.treeOfCode (.paren c) : Expr ν) = t.treeOfCode c :=
  rfl

@[simp] theorem treeOfCode_power (b e : Code) :
    (t.treeOfCode (.power b e) : Expr ν) = .power (t.treeOfCode b) (t.treeOfCode e) := rfl

@[simp] theorem treeOfCode_negative (c : Code) :
    (t.treeOfCode (.negative c) : Expr ν) = (t.treeOfCode c).neg := rfl

@[simp] theorem treeOfCode_mul (l r : Code) :
    (t.treeOfCode (.mul l r) : Expr ν) = .mul [t.treeOfCode l, t.treeOfCode r] := rfl

@[simp] theorem treeOfCode_div (l r : Code) :
    (t.treeOfCode (.div l r) : Expr ν) = treeOfQuotient (t.treeOfCode l) (t.treeOfCode r) := rfl

@[simp] theorem treeOfCode_add (l r : Code) :
    (t.treeOfCode (.add l r) : Expr ν) = .add [t.treeOfCode l, t.treeOfCode r] := rfl

@[simp] theorem treeOfCode_sub (l r : Code) :
    (t.treeOfCode (.sub l r) : Expr ν) = .add [t.treeOfCode l, (t.treeOfCode r).neg] := rfl

theorem treeOfCode_wrap (c : Code) (strength need : Binding) :
    (t.treeOfCode (Rendering.wrap c strength need) : Expr ν) = t.treeOfCode c := by
  rw [Rendering.wrap]
  split
  · rfl
  · exact t.treeOfCode_paren c

theorem treeOfCode_within (r : Rendering) (need : Binding) :
    (t.treeOfCode (r.within need) : Expr ν) = t.treeOfCode r.code :=
  t.treeOfCode_wrap r.code r.binding need

theorem toRat?_numberOf_text [WrittenNumber ν] {x : ν} {q : ℚ} (hx : toRat? x = some q) (hq : 0 ≤ q) :
    toRat? (numberOf (Number.text x) : ν) = some q := by
  obtain ⟨l, hl, hchars, hvalue⟩ := exists_literal_text hx hq
  have hscan : Decimal.Literal.scan (Number.text x).toList = some (l, []) := by
    have := Decimal.Literal.scan_append hl.wellFormed Decimal.Literal.ends_nil
    rwa [List.append_nil, ← hchars] at this
  rw [numberOf, Decimal.Literal.value?, hscan]
  exact hvalue

end Target

open Interpretation

structure Reading (ν K : Type) where
  target : Target
  meaning : Interpretation K

namespace Reading

variable {ν K : Type} [Number ν] [Field K] (R : Reading ν K)

def value (c : Code) : Option K := R.meaning.value (R.target.treeOfCode c : Expr ν)

def values (cs : List Code) : Option (List K) :=
  R.meaning.values (cs.map R.target.treeOfCode : List (Expr ν))

def product (cs : List Code) : Option K :=
  R.meaning.product (cs.map R.target.treeOfCode : List (Expr ν))

@[simp] theorem values_nil : R.values [] = some [] := rfl

@[simp] theorem values_cons (c : Code) (cs : List Code) :
    R.values (c :: cs) = Option.map₂ List.cons (R.value c) (R.values cs) := by
  rw [values, List.map_cons, Interpretation.values_cons]
  rfl

@[simp] theorem product_nil : R.product [] = some 1 := Interpretation.product_nil _

@[simp] theorem product_cons (c : Code) (cs : List Code) :
    R.product (c :: cs) = Option.map₂ (· * ·) (R.value c) (R.product cs) := by
  rw [product, List.map_cons, Interpretation.product_cons]
  rfl

theorem product_singleton (c : Code) : R.product [c] = R.value c := by
  rw [product_cons, product_nil, Option.map₂_right_identity mul_one]

@[simp] theorem product_append (cs ds : List Code) :
    R.product (cs ++ ds) = Option.map₂ (· * ·) (R.product cs) (R.product ds) := by
  rw [product, List.map_append, Interpretation.product_append]
  rfl

@[simp] theorem value_paren (c : Code) : R.value (.paren c) = R.value c := by
  rw [value, Target.treeOfCode_paren, value]

theorem value_wrap (c : Code) (strength need : Binding) :
    R.value (Rendering.wrap c strength need) = R.value c := by
  rw [value, Target.treeOfCode_wrap, value]

theorem value_power (b e : Code) :
    R.value (.power b e) = (R.value b).bind fun v => (R.value e).bind fun w =>
      R.meaning.power v w := by
  rw [value, Target.treeOfCode_power, Interpretation.value_power]
  rfl

theorem value_list (cs : List Code) : R.value (.list cs) = (R.values cs).bind R.meaning.list := by
  rw [value, Target.treeOfCode_list, Interpretation.value_list]
  rfl

variable [WrittenNumber ν]

theorem value_mul (l r : Code) :
    R.value (.mul l r) = Option.map₂ (· * ·) (R.value l) (R.value r) := by
  rw [value, Target.treeOfCode_mul, Interpretation.value_mul, Interpretation.product_cons,
    Interpretation.product_cons, Interpretation.product_nil, Option.map₂_right_identity mul_one]
  rfl

theorem value_chain (c : Code) (cs : List Code) :
    R.value (Code.chain c cs) = R.product (c :: cs) := by
  induction cs generalizing c with
  | nil => rw [product_singleton, Code.chain, List.foldl_nil]
  | cons d ds ih =>
      have hchain : Code.chain c (d :: ds) = Code.chain (.mul c d) ds := rfl
      rw [hchain, ih, product_cons, product_cons, product_cons, value_mul,
        Option.map₂_assoc mul_assoc]

theorem value_add (l r : Code) :
    R.value (.add l r) = Option.map₂ (· + ·) (R.value l) (R.value r) := by
  rw [value, Target.treeOfCode_add, Interpretation.value_add, Interpretation.sum_cons,
    Interpretation.sum_cons, Interpretation.sum_nil, Option.map₂_right_identity add_zero]
  rfl

theorem one_readable (b : Binding) :
    Code.Readable b (.number "1") ∧ R.value (.number "1") = some 1 := by
  have hread : (Target.numberOf "1" : ν) = ofDecimal ⟨1, 0⟩ := rfl
  refine ⟨Code.readable_number Decimal.Literal.plain_one, ?_⟩
  rw [value, Target.treeOfCode_number, hread, Expr.ofNumber, Interpretation.value_number,
    toRat?_ofNumber, RationalNumber.toRat?_eq_of_beq WrittenNumber.ofDecimal_one,
    RationalNumber.toRat?_one, Option.map_some, Rat.cast_one]

theorem numberCode_readable {x : ν} {q : ℚ} (hx : toRat? x = some q) (hq : 0 ≤ q) (b : Binding) :
    Code.Readable b (Target.numberCode x) ∧ R.value (Target.numberCode x) = some (q : K) := by
  obtain ⟨l, hl, hchars, -⟩ := exists_literal_text hx hq
  have hnegative : Number.isNegative x = false := by
    rw [Bool.eq_false_iff, ne_eq, WrittenNumber.isNegative_iff hx]
    exact hq.not_gt
  have htext : Number.text x = l.text := by
    rw [Decimal.Literal.text, ← hchars, String.ofList_toList]
  have hcode : Target.numberCode x = .number (Number.text x) := by
    rw [Target.numberCode, hnegative, if_neg Bool.false_ne_true, Target.unsignedCode,
      Number.isFinite, hx, Option.isSome_some, if_pos rfl]
  refine ⟨?_, ?_⟩
  · rw [hcode, htext]
    exact Code.readable_number hl
  · rw [hcode, value, Target.treeOfCode_number, Expr.ofNumber, Interpretation.value_number,
      toRat?_ofNumber, Target.toRat?_numberOf_text hx hq, Option.map_some]

variable [CharZero K]

theorem value_negative (c : Code) : R.value (.negative c) = (R.value c).map Neg.neg := by
  rw [value, Target.treeOfCode_negative, Interpretation.value_neg]
  rfl

theorem value_sub (l r : Code) :
    R.value (.sub l r) = Option.map₂ (· + ·) (R.value l) ((R.value r).map Neg.neg) := by
  rw [value, Target.treeOfCode_sub, Interpretation.value_add, Interpretation.sum_cons,
    Interpretation.sum_cons, Interpretation.sum_nil, Option.map₂_right_identity add_zero,
    Interpretation.value_neg]
  rfl

theorem toRat?_of_isInteger {n : Numeral ν} (h : n.isInteger = true) :
    ∃ a : ℤ, toRat? n.numerator = some (a : ℚ) ∧ n.toRat? = some (a : ℚ) := by
  obtain ⟨hone, hint⟩ := Bool.and_eq_true_iff.mp h
  obtain ⟨a, ha⟩ := Option.isSome_iff_exists.mp hint
  have hden := (RationalNumber.toRat?_eq_of_beq hone).trans RationalNumber.toRat?_one
  refine ⟨a, toRat?_of_toInt? ha, ?_⟩
  rw [Numeral.toRat?_of_parts (toRat?_of_toInt? ha) hden one_ne_zero, div_one]

theorem value_treeOfQuotient {I : Interpretation K} (hpower : ∀ v, I.power v (-1) = reciprocal v)
    (x y : Expr ν) : I.value (Target.treeOfQuotient x y) = divide (I.value x) (I.value y) := by
  have hminus : I.value (.number (.ofInt (-1)) : Expr ν) = some (-1) := by
    rw [Interpretation.value_number, Numeral.ofInt, toRat?_ofNumber, RationalNumber.toRat?_minusOne,
      Option.map_some, Rat.cast_neg, Rat.cast_one]
  have hproduct : I.value (.mul [x, .power y (.number (.ofInt (-1)))] : Expr ν) =
      divide (I.value x) (I.value y) := by
    rw [Interpretation.value_mul, Interpretation.product_cons, Interpretation.product_cons,
      Interpretation.product_nil, Option.map₂_right_identity mul_one, Interpretation.value_power,
      hminus, divide]
    simp only [Option.bind_some, hpower]
  unfold Target.treeOfQuotient
  split
  · next p q =>
    split
    · next h =>
      obtain ⟨hpq, hzero⟩ := Bool.and_eq_true_iff.mp h
      obtain ⟨hp, hq⟩ := Bool.and_eq_true_iff.mp hpq
      obtain ⟨a, ha, hpa⟩ := toRat?_of_isInteger hp
      obtain ⟨b, hb, hqb⟩ := toRat?_of_isInteger hq
      have hb0 : b ≠ 0 := by
        rintro rfl
        rw [WrittenNumber.isZero_of_toRat? (by simpa using hb)] at hzero
        cases hzero
      have hbK : ((b : ℚ) : K) ≠ 0 := by exact_mod_cast hb0
      rw [Expr.ratio, Interpretation.value_number, Interpretation.value_number,
        Interpretation.value_number, toRat?_ratio ha hb hb0, hpa, hqb, Option.map_some,
        Option.map_some, Option.map_some, divide_some _ hbK, Rat.cast_div]
    · exact hproduct
  · exact hproduct

theorem value_sqrt (I : Interpretation K) (x : Expr ν) :
    I.value (.sqrt x) = (I.value x).bind fun v => I.power v (1 / 2) := by
  rw [Expr.sqrt, Interpretation.value_power, Interpretation.value_number, toRat?_half,
    Option.map_some, Rat.cast_div, Rat.cast_one, Rat.cast_ofNat]
  rfl

variable {R} (hR : R.meaning.Lawful ν R.target)

include hR

theorem value_div (l r : Code) : R.value (.div l r) = divide (R.value l) (R.value r) := by
  rw [value, Target.treeOfCode_div, value_treeOfQuotient hR.power_minusOne]
  rfl

theorem value_negated (c : Code) : R.value c.negated = (R.value c).map Neg.neg := by
  induction c using Code.negated.induct with
  | case1 l r ih =>
      rw [Code.negated, value_mul, value_mul, ih]
      exact (Option.map_map₂_distrib_left fun v w => (neg_mul v w).symm).symm
  | case2 l r ih => rw [Code.negated, value_div hR, value_div hR, ih, map_neg_divide]
  | case3 c hmul hdiv =>
      rw [Code.negated, value_negative]
      · exact hmul
      · exact hdiv

end Reading

end Formulary
