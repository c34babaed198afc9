import Formulary.Expr.Build
import Formulary.Proofs.Expr.Induction
import Formulary.Proofs.Number.Rational
import Mathlib

namespace Formulary

/-- Partial meanings of what the field operations leave open. -/
structure Interpretation (K : Type) where
  symbol : String → Option K
  pattern : String → Option String → Option K
  call : String → List K → Option K
  list : List K → Option K
  power : K → K → Option K

open Number

def Numeral.toRat? {ν : Type} [Number ν] (n : Numeral ν) : Option ℚ :=
  match Number.toRat? n.numerator, Number.toRat? n.denominator with
  | some p, some q => if q = 0 then none else some (p / q)
  | _, _ => none

theorem Numeral.toRat?_of_parts {ν : Type} [Number ν] {n : Numeral ν} {p q : ℚ}
    (hp : Number.toRat? n.numerator = some p) (hq : Number.toRat? n.denominator = some q)
    (hq0 : q ≠ 0) : n.toRat? = some (p / q) := by
  rw [Numeral.toRat?, hp, hq]
  exact if_neg hq0

theorem Numeral.toRat?_neg {ν : Type} [Number ν] [RationalNumber ν] (n : Numeral ν) :
    n.neg.toRat? = n.toRat?.map Neg.neg := by
  unfold Numeral.toRat? neg
  rw [RationalNumber.toRat?_neg]
  cases Number.toRat? n.numerator with
  | none => rfl
  | some p =>
      cases Number.toRat? n.denominator with
      | none => rfl
      | some q =>
          simp only [Option.map_some]
          split
          · rfl
          · rw [Option.map_some, neg_div]

namespace Interpretation

variable {ν K : Type} [Number ν] [Field K] (I : Interpretation K)

mutual

def value : Expr ν → Option K
  | .number n => n.toRat?.map Rat.cast
  | .symbol s => I.symbol s
  | .sum ts => (values ts).map List.sum
  | .product fs => (values fs).map List.prod
  | .power b e => (value b).bind fun v => (value e).bind fun w => I.power v w
  | .call h args => (values args).bind (I.call h)
  | .negation x => (value x).map Neg.neg
  | .list items => (values items).bind I.list
  | .pattern s h => I.pattern s h

def values : List (Expr ν) → Option (List K)
  | [] => some []
  | x :: xs => Option.map₂ List.cons (value x) (values xs)

end

def product (xs : List (Expr ν)) : Option K := (I.values xs).map List.prod

def sum (xs : List (Expr ν)) : Option K := (I.values xs).map List.sum

@[simp] theorem value_number (n : Numeral ν) : I.value (.number n) = n.toRat?.map Rat.cast := rfl

@[simp] theorem value_symbol (s : String) : I.value (.symbol s : Expr ν) = I.symbol s := rfl

@[simp] theorem value_sum (ts : List (Expr ν)) : I.value (.sum ts) = I.sum ts := rfl

@[simp] theorem value_product (fs : List (Expr ν)) : I.value (.product fs) = I.product fs := rfl

@[simp] theorem value_power (b e : Expr ν) :
    I.value (.power b e) = (I.value b).bind fun v => (I.value e).bind fun w => I.power v w := rfl

@[simp] theorem value_call (h : String) (args : List (Expr ν)) :
    I.value (.call h args) = (I.values args).bind (I.call h) := rfl

@[simp] theorem value_negation (x : Expr ν) : I.value (.negation x) = (I.value x).map Neg.neg := rfl

@[simp] theorem value_list (items : List (Expr ν)) :
    I.value (.list items) = (I.values items).bind I.list := rfl

@[simp] theorem values_nil : I.values ([] : List (Expr ν)) = some [] := rfl

@[simp] theorem values_cons (x : Expr ν) (xs : List (Expr ν)) :
    I.values (x :: xs) = Option.map₂ List.cons (I.value x) (I.values xs) := rfl

@[simp] theorem product_nil : I.product ([] : List (Expr ν)) = some 1 := by
  rw [product, values_nil, Option.map_some, List.prod_nil]

@[simp] theorem product_cons (x : Expr ν) (xs : List (Expr ν)) :
    I.product (x :: xs) = Option.map₂ (· * ·) (I.value x) (I.product xs) := by
  rw [product, values_cons, product]
  cases I.value x <;> cases I.values xs <;> simp

@[simp] theorem product_append (xs ys : List (Expr ν)) :
    I.product (xs ++ ys) = Option.map₂ (· * ·) (I.product xs) (I.product ys) := by
  induction xs with
  | nil => rw [List.nil_append, product_nil, Option.map₂_left_identity one_mul]
  | cons x xs ih =>
      rw [List.cons_append, product_cons, product_cons, ih, Option.map₂_assoc mul_assoc]

@[simp] theorem sum_nil : I.sum ([] : List (Expr ν)) = some 0 := by
  rw [sum, values_nil, Option.map_some, List.sum_nil]

@[simp] theorem sum_cons (x : Expr ν) (xs : List (Expr ν)) :
    I.sum (x :: xs) = Option.map₂ (· + ·) (I.value x) (I.sum xs) := by
  rw [sum, values_cons, sum]
  cases I.value x <;> cases I.values xs <;> simp

@[simp] theorem sum_append (xs ys : List (Expr ν)) :
    I.sum (xs ++ ys) = Option.map₂ (· + ·) (I.sum xs) (I.sum ys) := by
  induction xs with
  | nil => rw [List.nil_append, sum_nil, Option.map₂_left_identity zero_add]
  | cons x xs ih =>
      rw [List.cons_append, sum_cons, sum_cons, ih, Option.map₂_assoc add_assoc]

theorem value_ofFactors [RationalNumber ν] (fs : List (Expr ν)) :
    I.value (Expr.ofFactors fs) = I.product fs := by
  unfold Expr.ofFactors
  split
  · simp [Expr.ofNumber, Numeral.ofNumber, Numeral.toRat?, RationalNumber.toRat?_one]
  · next x =>
    rw [product_cons, product_nil, Option.map₂_right_identity mul_one]
  · rw [value_product]

theorem value_ofTerms [RationalNumber ν] (ts : List (Expr ν)) :
    I.value (Expr.ofTerms ts) = I.sum ts := by
  unfold Expr.ofTerms
  split
  · simp [Expr.ofNumber, Numeral.ofNumber, Numeral.toRat?, RationalNumber.toRat?_one,
      RationalNumber.toRat?_zero]
  · next x =>
    rw [sum_cons, sum_nil, Option.map₂_right_identity add_zero]
  · rw [value_sum]

theorem product_flatMap_factorsOf (fs : List (Expr ν)) :
    I.product (fs.flatMap Expr.factorsOf) = I.product fs := by
  induction fs with
  | nil => rfl
  | cons f fs ih =>
      rw [List.flatMap_cons, product_append, ih, product_cons]
      congr 1
      unfold Expr.factorsOf
      split
      · rw [value_product]
      · rw [product_cons, product_nil, Option.map₂_right_identity mul_one]

theorem sum_flatMap_termsOf (ts : List (Expr ν)) : I.sum (ts.flatMap Expr.termsOf) = I.sum ts := by
  induction ts with
  | nil => rfl
  | cons t ts ih =>
      rw [List.flatMap_cons, sum_append, ih, sum_cons]
      congr 1
      unfold Expr.termsOf
      split
      · rw [value_sum]
      · rw [sum_cons, sum_nil, Option.map₂_right_identity add_zero]

theorem value_add [RationalNumber ν] (ts : List (Expr ν)) : I.value (Expr.add ts) = I.sum ts := by
  rw [Expr.add, value_ofTerms, sum_flatMap_termsOf]

variable [RationalNumber ν]

/-- Equal trees have equal values. -/
theorem value_eq_of_beq {x y : Expr ν} (h : (x == y) = true) : I.value x = I.value y := by
  have numeral (a b : Numeral ν) (h : (a == b) = true) : a.toRat? = b.toRat? := by
    obtain ⟨hp, hq⟩ := Bool.and_eq_true_iff.mp h
    rw [Numeral.toRat?, Numeral.toRat?, RationalNumber.toRat?_eq_of_beq hp,
      RationalNumber.toRat?_eq_of_beq hq]
  have list (xs : List (Expr ν)) (ih : ∀ x ∈ xs, ∀ y, Expr.same x y = true → I.value x = I.value y)
      (ys : List (Expr ν)) (h : Expr.sameAll xs ys = true) : I.values xs = I.values ys := by
    induction xs generalizing ys with
    | nil =>
        cases ys with
        | nil => rfl
        | cons y ys => cases h
    | cons x xs ihx =>
        cases ys with
        | nil => cases h
        | cons y ys =>
            obtain ⟨hx, hxs⟩ := Bool.and_eq_true_iff.mp h
            rw [values_cons, values_cons, ih x List.mem_cons_self y hx,
              ihx (fun z hz => ih z (List.mem_cons_of_mem _ hz)) ys hxs]
  change Expr.same x y = true at h
  induction x generalizing y with
  | number a =>
      cases y <;> try cases h
      rw [value_number, value_number, numeral _ _ h]
  | symbol a =>
      cases y <;> try cases h
      rw [eq_of_beq h]
  | sum xs ih =>
      cases y <;> try cases h
      rw [value_sum, value_sum, sum, sum, list xs (fun x hx y => ih x hx) _ h]
  | product xs ih =>
      cases y <;> try cases h
      rw [value_product, value_product, product, product, list xs (fun x hx y => ih x hx) _ h]
  | list xs ih =>
      cases y <;> try cases h
      rw [value_list, value_list, list xs (fun x hx y => ih x hx) _ h]
  | negation x ih =>
      cases y <;> try cases h
      rw [value_negation, value_negation, ih h]
  | power b e ihb ihe =>
      cases y <;> try cases h
      obtain ⟨hb, he⟩ := Bool.and_eq_true_iff.mp h
      rw [value_power, value_power, ihb hb, ihe he]
  | call f xs ih =>
      cases y <;> try cases h
      obtain ⟨hf, hxs⟩ := Bool.and_eq_true_iff.mp h
      rw [value_call, value_call, eq_of_beq hf, list xs (fun x hx y => ih x hx) _ hxs]
  | pattern a k =>
      cases y <;> try cases h
      obtain ⟨ha, hk⟩ := Bool.and_eq_true_iff.mp h
      rw [eq_of_beq ha, eq_of_beq hk]

theorem value_of_isOne {x : Expr ν} (h : x.isOne = true) : I.value x = some 1 := by
  cases x with
  | number n =>
      simp only [Expr.isOne, Numeral.isOne, Bool.and_eq_true] at h
      have hp := RationalNumber.toRat?_eq_of_beq h.1
      have hq := RationalNumber.toRat?_eq_of_beq h.2
      rw [RationalNumber.toRat?_one] at hp hq
      simp [Numeral.toRat?, hp, hq]
  | _ => simp [Expr.isOne] at h

theorem product_filter_isOne (fs : List (Expr ν)) :
    I.product (fs.filter (!·.isOne)) = I.product fs := by
  induction fs with
  | nil => rfl
  | cons f fs ih =>
      rw [List.filter_cons]
      cases hf : f.isOne with
      | false => simp [ih]
      | true =>
          simp only [Bool.not_true, Bool.false_eq_true, if_false]
          rw [ih, product_cons, I.value_of_isOne hf, Option.map₂_left_identity one_mul]

theorem value_mul (fs : List (Expr ν)) : I.value (Expr.mul fs) = I.product fs := by
  rw [Expr.mul, value_ofFactors, product_filter_isOne, product_flatMap_factorsOf]

theorem value_neg [CharZero K] (x : Expr ν) : I.value x.neg = (I.value x).map Neg.neg := by
  unfold Expr.neg
  split
  · next n =>
    rw [value_number, value_number, Numeral.toRat?_neg]
    cases n.toRat? <;> simp
  · next y =>
    rw [value_negation]
    cases I.value y <;> simp
  · rw [value_negation]

def signed (negative : Bool) (v : K) : K := if negative then -v else v

theorem value_signed [CharZero K] (negative : Bool) (x : Expr ν) :
    I.value (x.signed negative) = (I.value x).map (signed negative) := by
  cases negative with
  | false =>
      change I.value x = (I.value x).map (fun v => v)
      rw [Option.map_id']
  | true => exact I.value_neg x

end Interpretation

end Formulary
