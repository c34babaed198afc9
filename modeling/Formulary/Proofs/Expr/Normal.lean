import Formulary.Proofs.Expr.Induction
import Formulary.Proofs.Number.Identity
import Formulary.Proofs.Value.Interpretation

namespace Formulary

open Number

variable {ν : Type} [Number ν]

/-- The denominator is at least one, and where it is larger the numerator is an integer without a
common divisor. -/
def Numeral.Normal (n : Numeral ν) : Prop :=
  ∃ d : ℚ, Number.toRat? n.denominator = some d ∧ 1 ≤ d ∧
    (1 < d → ∃ a b : ℤ, Number.toRat? n.numerator = some (a : ℚ) ∧ d = b ∧ Int.gcd a b = 1)

namespace Numeral

section

variable [RationalNumber ν]

theorem normal_ofNumber (x : ν) : (ofNumber x).Normal :=
  ⟨1, RationalNumber.toRat?_one, le_rfl, fun h => absurd h (lt_irrefl 1)⟩

theorem Normal.neg {n : Numeral ν} (h : n.Normal) : n.neg.Normal := by
  obtain ⟨d, hd, hone, hlowest⟩ := h
  refine ⟨d, hd, hone, fun hlt => ?_⟩
  obtain ⟨a, b, ha, hb, hgcd⟩ := hlowest hlt
  refine ⟨-a, b, ?_, hb, by rwa [Int.neg_gcd]⟩
  rw [Numeral.neg, RationalNumber.toRat?_neg, ha, Option.map_some, Int.cast_neg]

end

/-- Quotients are reduced. -/
theorem normal_ratio [WrittenNumber ν] (p q : ν) : (ratio p q).Normal := by
  by_cases hinteger : isZero q = false ∧ ∃ a b : ℤ, Number.toRat? p = some (a : ℚ) ∧
    Number.toRat? q = some (b : ℚ)
  · obtain ⟨hzero, a, b, ha, hb⟩ := hinteger
    have hb0 : b ≠ 0 := by
      rintro rfl
      rw [WrittenNumber.isZero_of_toRat? (by rw [hb, Int.cast_zero])] at hzero
      cases hzero
    obtain ⟨hnum, hden⟩ := toRat?_ratio_parts ha hb hb0
    have hg : 0 < Int.gcd a b := Int.gcd_pos_of_ne_zero_right a hb0
    have hg0 : ((Int.gcd a b : ℕ) : ℚ) ≠ 0 := by exact_mod_cast hg.ne'
    obtain ⟨k, hk⟩ := Int.gcd_dvd_left a b
    obtain ⟨m, hm⟩ := Int.gcd_dvd_right a b
    have hsign : b.sign * a = Int.gcd a b * (b.sign * k) := by
      nth_rewrite 1 [hk]
      ring
    have habs : |b| = Int.gcd a b * |m| := by
      nth_rewrite 1 [hm]
      rw [abs_mul, Nat.abs_cast]
    have hm0 : m ≠ 0 := by
      rintro rfl
      exact hb0 (by rw [hm, mul_zero])
    have hgcd : Int.gcd k m = 1 := by
      have h := Int.gcd_mul_left (Int.gcd a b : ℤ) k m
      rw [← hk, ← hm, Int.natAbs_natCast] at h
      exact Nat.eq_of_mul_eq_mul_left hg (by rw [mul_one, ← h])
    have hunit : b.sign.natAbs = 1 := by
      rw [Int.natAbs_sign_of_ne_zero hb0]
    refine ⟨(|m| : ℤ), ?_, ?_, fun _ => ⟨b.sign * k, |m|, ?_, rfl, ?_⟩⟩
    · rw [hden, habs, Int.cast_mul, Int.cast_natCast, mul_div_cancel_left₀ _ hg0]
    · exact_mod_cast Int.one_le_abs hm0
    · rw [hnum, hsign, Int.cast_mul, Int.cast_natCast, mul_div_cancel_left₀ _ hg0]
    · rw [Int.gcd_eq_natAbs_gcd_natAbs, Int.natAbs_mul, hunit, one_mul, Int.natAbs_abs,
        ← Int.gcd_eq_natAbs_gcd_natAbs, hgcd]
  · have hnumber : ∃ x : ν, ratio p q = ofNumber x := by
      rw [ratio]
      split
      · exact ⟨nan, rfl⟩
      · next hzero =>
        split
        · next a b ha hb =>
          exact absurd ⟨Bool.eq_false_iff.mpr hzero, a, b, toRat?_of_toInt? ha,
            toRat?_of_toInt? hb⟩ hinteger
        · exact ⟨p / q, rfl⟩
    obtain ⟨x, hx⟩ := hnumber
    rw [hx]
    exact normal_ofNumber x

/-- A normal quotient is reduced as it stands. -/
theorem ratio_of_normal {n : Numeral Float} (h : n.Normal) : ratio n.numerator n.denominator = n := by
  obtain ⟨p, q⟩ := n
  obtain ⟨d, hd, hone, hlowest⟩ := h
  have hd0 : d ≠ 0 := (lt_of_lt_of_le one_pos hone).ne'
  have hzero : ¬ isZero q = true := by rw [isZero_eq_false hd hd0]; decide
  have hnegative : ¬ Number.isNegative q = true := by
    rw [WrittenNumber.isNegative_iff hd]
    exact (zero_le_one.trans hone).not_gt
  rcases hone.eq_or_lt with rfl | hlt
  · have hq : q = one := Double.eq_of_toRat? hd RationalNumber.toRat?_one one_ne_zero
    have hqInt : toInt? q = some 1 := toInt?_of_toRat? (by rw [hd, Int.cast_one])
    rw [ratio, if_neg hzero, hqInt]
    cases toInt? p with
    | none => simp [hq, Double.div_one, ofNumber]
    | some a =>
        have hdivisor : (Number.ofInt (Int.gcd a 1 : ℕ) : Float) = one := by
          rw [Int.gcd_one]
          rfl
        simp only [commonDivisor_natAbs, hdivisor, if_neg hnegative, Double.div_one]
  · obtain ⟨a, b, ha, rfl, hgcd⟩ := hlowest hlt
    have hdivisor : (Number.ofInt (Int.gcd a b : ℕ) : Float) = one := by
      rw [hgcd]
      rfl
    rw [ratio, if_neg hzero, toInt?_of_toRat? ha, toInt?_of_toRat? hd]
    simp only [commonDivisor_natAbs, hdivisor, if_neg hnegative, Double.div_one]

theorem neg_neg (n : Numeral Float) : n.neg.neg = n := by
  rw [Numeral.neg, Numeral.neg, Double.neg_neg]

end Numeral

namespace Expr

def IsTerm (x : Expr ν) : Prop := ∀ ts, x ≠ .sum ts

def IsFactor (x : Expr ν) : Prop := x.isOne = false ∧ ∀ fs, x ≠ .product fs

def NormalNode : Expr ν → Prop
  | .number n => n.Normal
  | .sum ts => 2 ≤ ts.length ∧ ∀ t ∈ ts, t.IsTerm
  | .product fs => 2 ≤ fs.length ∧ ∀ f ∈ fs, f.IsFactor
  | .negation x => (∀ n, x ≠ .number n) ∧ ∀ y, x ≠ .negation y
  | _ => True

def Normal (x : Expr ν) : Prop := x.Every NormalNode

section Lists

variable {x : Expr ν} {ts fs : List (Expr ν)}

omit [Number ν] in
theorem termsOf_of_isTerm (h : x.IsTerm) : termsOf x = [x] := by
  cases x with
  | sum ts => exact absurd rfl (h ts)
  | _ => rfl

theorem factorsOf_of_isFactor (h : x.IsFactor) : factorsOf x = [x] := by
  cases x with
  | product fs => exact absurd rfl (h.2 fs)
  | _ => rfl

theorem add_of_terms (h : ∀ t ∈ ts, t.IsTerm) : add ts = ofTerms ts := by
  have hflat : ts.flatMap termsOf = ts := by
    rw [List.flatMap_congr fun t ht => termsOf_of_isTerm (h t ht), List.flatMap_singleton']
  rw [add, hflat]

theorem mul_of_factors (h : ∀ f ∈ fs, f.IsFactor) : mul fs = ofFactors fs := by
  have hflat : fs.flatMap factorsOf = fs := by
    rw [List.flatMap_congr fun f hf => factorsOf_of_isFactor (h f hf), List.flatMap_singleton']
  rw [mul, hflat, List.filter_eq_self.mpr fun f hf => by rw [(h f hf).1]; rfl]

theorem ofTerms_of_two_le (h : 2 ≤ ts.length) : ofTerms ts = .sum ts := by
  match ts, h with
  | _ :: _ :: _, _ => rfl

theorem ofFactors_of_two_le (h : 2 ≤ fs.length) : ofFactors fs = .product fs := by
  match fs, h with
  | _ :: _ :: _, _ => rfl

theorem add_add_pair (hne : ts ≠ []) (h : ∀ t ∈ ts ++ [x], t.IsTerm) :
    add [add ts, x] = add (ts ++ [x]) := by
  obtain ⟨hts, hx⟩ := List.forall_mem_append.mp h
  have hterms : termsOf (add ts) = ts := by
    rw [add_of_terms hts]
    match ts, hne with
    | [t], _ => exact termsOf_of_isTerm (hts t List.mem_cons_self)
    | _ :: _ :: _, _ => rfl
  rw [add_of_terms h, add, List.flatMap_cons, List.flatMap_singleton, hterms,
    termsOf_of_isTerm (hx x List.mem_cons_self)]

theorem mul_mul_pair (hne : fs ≠ []) (h : ∀ f ∈ fs ++ [x], f.IsFactor) :
    mul [mul fs, x] = mul (fs ++ [x]) := by
  obtain ⟨hfs, hx⟩ := List.forall_mem_append.mp h
  have hfactors : factorsOf (mul fs) = fs := by
    rw [mul_of_factors hfs]
    match fs, hne with
    | [f], _ => exact factorsOf_of_isFactor (hfs f List.mem_cons_self)
    | _ :: _ :: _, _ => rfl
  rw [mul, List.flatMap_cons, List.flatMap_singleton, hfactors,
    factorsOf_of_isFactor (hx x List.mem_cons_self), mul_of_factors h, List.filter_eq_self.mpr]
  intro f hf
  rw [(h f hf).1]
  rfl

theorem normal_of_mem_termsOf (hx : x.Normal) : ∀ t ∈ termsOf x, t.Normal ∧ t.IsTerm := by
  by_cases hsum : ∃ ts, x = .sum ts
  · obtain ⟨ts, rfl⟩ := hsum
    exact fun t ht => ⟨hx.parts t ht, hx.here.2 t ht⟩
  · have hterm : x.IsTerm := fun ts h => hsum ⟨ts, h⟩
    rw [termsOf_of_isTerm hterm]
    exact List.forall_mem_singleton.mpr ⟨hx, hterm⟩

theorem normal_of_mem_factorsOf (hx : x.Normal) (hone : x.isOne = false) :
    ∀ f ∈ factorsOf x, f.Normal ∧ f.IsFactor := by
  by_cases hproduct : ∃ fs, x = .product fs
  · obtain ⟨fs, rfl⟩ := hproduct
    exact fun f hf => ⟨hx.parts f hf, hx.here.2 f hf⟩
  · have hfactor : x.IsFactor := ⟨hone, fun fs h => hproduct ⟨fs, h⟩⟩
    rw [factorsOf_of_isFactor hfactor]
    exact List.forall_mem_singleton.mpr ⟨hx, hfactor⟩

variable [RationalNumber ν]

theorem normal_ofTerms (h : ∀ t ∈ ts, t.Normal ∧ t.IsTerm) : (ofTerms ts).Normal := by
  match ts with
  | [] => exact .leaf (Numeral.normal_ofNumber _) rfl
  | [t] => exact (h t List.mem_cons_self).1
  | t :: u :: us => exact .intro ⟨by simp, fun v hv => (h v hv).2⟩ fun v hv => (h v hv).1

theorem normal_ofFactors (h : ∀ f ∈ fs, f.Normal ∧ f.IsFactor) : (ofFactors fs).Normal := by
  match fs with
  | [] => exact .leaf (Numeral.normal_ofNumber _) rfl
  | [f] => exact (h f List.mem_cons_self).1
  | f :: g :: gs => exact .intro ⟨by simp, fun v hv => (h v hv).2⟩ fun v hv => (h v hv).1

end Lists

section Constructors

variable {x y : Expr ν} {xs : List (Expr ν)}

theorem normal_symbol (s : String) : (.symbol s : Expr ν).Normal := .leaf trivial rfl

theorem normal_power (hx : x.Normal) (hy : y.Normal) : (.power x y : Expr ν).Normal :=
  .intro trivial (List.forall_mem_cons.mpr ⟨hx, List.forall_mem_singleton.mpr hy⟩)

theorem normal_call (head : String) (h : ∀ x ∈ xs, x.Normal) : (.call head xs : Expr ν).Normal :=
  .intro trivial h

theorem normal_list (h : ∀ x ∈ xs, x.Normal) : (.list xs : Expr ν).Normal := .intro trivial h

section

variable [RationalNumber ν]

theorem normal_add (h : ∀ x ∈ xs, x.Normal) : (add xs).Normal := by
  apply normal_ofTerms
  intro t ht
  obtain ⟨x, hx, hmem⟩ := List.mem_flatMap.mp ht
  exact normal_of_mem_termsOf (h x hx) t hmem

theorem normal_mul (h : ∀ x ∈ xs, x.Normal) : (mul xs).Normal := by
  apply normal_ofFactors
  intro f hf
  obtain ⟨hflat, hone⟩ := List.mem_filter.mp hf
  obtain ⟨x, hx, hmem⟩ := List.mem_flatMap.mp hflat
  rw [Bool.not_eq_true'] at hone
  by_cases hxone : x.isOne = true
  · cases x with
    | number n =>
        rw [List.mem_singleton.mp hmem] at hone
        rw [hone] at hxone
        cases hxone
    | _ => cases hxone
  · exact normal_of_mem_factorsOf (h x hx) (Bool.eq_false_iff.mpr hxone) f hmem

theorem normal_neg (hx : x.Normal) : x.neg.Normal := by
  cases x with
  | number n => exact .leaf (Numeral.Normal.neg hx.here) rfl
  | negation y => exact hx.parts y List.mem_cons_self
  | _ => exact .intro ⟨by rintro n ⟨⟩, by rintro y ⟨⟩⟩ (List.forall_mem_singleton.mpr hx)

theorem normal_ofNumber (x : ν) : (ofNumber x).Normal := .leaf (Numeral.normal_ofNumber x) rfl

end

theorem normal_ratio [WrittenNumber ν] (p q : ν) : (ratio p q).Normal :=
  .leaf (Numeral.normal_ratio p q) rfl

theorem normal_sqrt [WrittenNumber ν] (hx : x.Normal) : x.sqrt.Normal :=
  normal_power hx (normal_ratio _ _)

end Constructors

mutual

/-- Put together again from the bottom by the constructors. -/
def rebuilt : Expr ν → Expr ν
  | .number n => .ratio n.numerator n.denominator
  | .symbol s => .symbol s
  | .pattern s h => .pattern s h
  | .sum xs => .add (rebuiltAll xs)
  | .product xs => .mul (rebuiltAll xs)
  | .call h xs => .call h (rebuiltAll xs)
  | .list xs => .list (rebuiltAll xs)
  | .power b e => .power (rebuilt b) (rebuilt e)
  | .negation x => (rebuilt x).neg

def rebuiltAll : List (Expr ν) → List (Expr ν)
  | [] => []
  | x :: xs => rebuilt x :: rebuiltAll xs

end

theorem rebuiltAll_eq_map (xs : List (Expr ν)) : rebuiltAll xs = xs.map rebuilt := by
  induction xs with
  | nil => rfl
  | cons x xs ih => rw [rebuiltAll, ih, List.map_cons]

/-- Whatever is put together by the constructors is normal. -/
theorem normal_rebuilt [WrittenNumber ν] (x : Expr ν) : x.rebuilt.Normal := by
  have hall (xs : List (Expr ν)) (ih : ∀ x ∈ xs, x.rebuilt.Normal) :
      ∀ y ∈ rebuiltAll xs, y.Normal := by
    rw [rebuiltAll_eq_map]
    exact List.forall_mem_map.mpr ih
  induction x with
  | number n => exact normal_ratio n.numerator n.denominator
  | symbol s => exact normal_symbol s
  | pattern s h => exact .leaf trivial rfl
  | sum xs ih => exact normal_add (hall xs ih)
  | product xs ih => exact normal_mul (hall xs ih)
  | call h xs ih => exact normal_call h (hall xs ih)
  | list xs ih => exact normal_list (hall xs ih)
  | power b e ihb ihe => exact normal_power ihb ihe
  | negation x ih => exact normal_neg ih

/-- Putting a normal tree together again gives the same tree. -/
theorem rebuilt_of_normal {x : Expr Float} (h : x.Normal) : x.rebuilt = x := by
  have hall (xs : List (Expr Float)) (ih : ∀ x ∈ xs, x.Normal → x.rebuilt = x)
      (h : ∀ x ∈ xs, x.Normal) : rebuiltAll xs = xs := by
    rw [rebuiltAll_eq_map]
    exact (List.map_congr_left fun x hx => ih x hx (h x hx)).trans (List.map_id _)
  induction x with
  | number n => rw [rebuilt, ratio, Numeral.ratio_of_normal h.here]
  | symbol s => rfl
  | pattern s h => rfl
  | sum xs ih =>
      obtain ⟨hlength, hterms⟩ := h.here
      rw [rebuilt, hall xs ih h.parts, add_of_terms hterms, ofTerms_of_two_le hlength]
  | product xs ih =>
      obtain ⟨hlength, hfactors⟩ := h.here
      rw [rebuilt, hall xs ih h.parts, mul_of_factors hfactors, ofFactors_of_two_le hlength]
  | call head xs ih => rw [rebuilt, hall xs ih h.parts]
  | list xs ih => rw [rebuilt, hall xs ih h.parts]
  | power b e ihb ihe =>
      rw [rebuilt, ihb (h.parts b List.mem_cons_self),
        ihe (h.parts e (List.mem_cons_of_mem _ List.mem_cons_self))]
  | negation x ih =>
      rw [rebuilt, ih (h.parts x List.mem_cons_self)]
      cases x with
      | number n => exact absurd rfl (h.here.1 n)
      | negation y => exact absurd rfl (h.here.2 y)
      | _ => rfl

end Expr

end Formulary
