import Formulary.Number.Double
import Formulary.Number.Exact
import Formulary.Proofs.Expr.Induction
import Formulary.Radical.Combine
import Mathlib

namespace Formulary

/-- Numbers of which one and two are different, so that an integer exponent is no half-integer. -/
class DistinctNumber (ν : Type) [Number ν] : Prop where
  one_beq_two : ((Number.one : ν) == Number.ofInt 2) = false

instance : DistinctNumber Exact := ⟨by decide⟩

instance : DistinctNumber Float := ⟨by decide +kernel⟩

namespace Expr

variable {ν : Type} [Number ν]

mutual

def radicalCount : Expr ν → Nat
  | .number _ | .symbol _ | .pattern _ _ => 0
  | .sum xs | .product xs | .call _ xs | .list xs => radicalCountAll xs
  | .power b e => (if e.isHalfInteger then 1 else 0) + radicalCount b + radicalCount e
  | .negation x => radicalCount x

def radicalCountAll : List (Expr ν) → Nat
  | [] => 0
  | x :: xs => radicalCount x + radicalCountAll xs

end

theorem radicalCountAll_eq_sum (xs : List (Expr ν)) :
    radicalCountAll xs = (xs.map radicalCount).sum := by
  induction xs with
  | nil => rfl
  | cons x xs ih => rw [radicalCountAll, ih, List.map_cons, List.sum_cons]

@[simp] theorem radicalCountAll_append (xs ys : List (Expr ν)) :
    radicalCountAll (xs ++ ys) = radicalCountAll xs + radicalCountAll ys := by
  simp only [radicalCountAll_eq_sum, List.map_append, List.sum_append]

theorem radicalCountAll_le_of_sublist {xs ys : List (Expr ν)} (h : xs.Sublist ys) :
    radicalCountAll xs ≤ radicalCountAll ys := by
  induction h with
  | slnil => exact Nat.le_refl _
  | cons y _ ih => exact Nat.le_trans ih (Nat.le_add_left _ _)
  | cons_cons y _ ih => exact Nat.add_le_add_left ih _

theorem radicalCountAll_flatMap_factorsOf (fs : List (Expr ν)) :
    radicalCountAll (fs.flatMap factorsOf) = radicalCountAll fs := by
  induction fs with
  | nil => rfl
  | cons f fs ih =>
      rw [List.flatMap_cons, radicalCountAll_append, ih, radicalCountAll]
      cases f <;> simp [factorsOf, radicalCount, radicalCountAll]

theorem radicalCount_ofFactors (fs : List (Expr ν)) :
    radicalCount (ofFactors fs) = radicalCountAll fs := by
  unfold ofFactors
  split
  · rfl
  · simp [radicalCountAll]
  · rfl

theorem radicalCount_mul_le (fs : List (Expr ν)) : radicalCount (mul fs) ≤ radicalCountAll fs := by
  rw [mul, radicalCount_ofFactors, ← radicalCountAll_flatMap_factorsOf fs]
  exact radicalCountAll_le_of_sublist List.filter_sublist

@[simp] theorem radicalCount_neg (x : Expr ν) : radicalCount x.neg = radicalCount x := by
  cases x <;> rfl

@[simp] theorem radicalCount_signed (negative : Bool) (x : Expr ν) :
    radicalCount (x.signed negative) = radicalCount x := by
  cases negative
  · rfl
  · exact radicalCount_neg x

theorem radicalCount_of_isHalfInteger {x : Expr ν} (h : x.isHalfInteger = true) :
    radicalCount x = 0 := by
  cases x with
  | number n => rfl
  | _ => simp [isHalfInteger] at h

/-- No node of a tree is counted twice. -/
theorem radicalCount_le_size (x : Expr ν) : radicalCount x ≤ x.size := by
  have list (xs : List (Expr ν)) (h : ∀ x ∈ xs, radicalCount x ≤ x.size) :
      radicalCountAll xs ≤ sizeAll xs := by
    induction xs with
    | nil => exact Nat.le_refl _
    | cons x xs ih =>
        exact Nat.add_le_add (h x List.mem_cons_self) (ih fun y hy => h y (List.mem_cons_of_mem _ hy))
  induction x with
  | number | symbol | pattern => exact Nat.zero_le _
  | sum xs ih | product xs ih | call _ xs ih | list xs ih =>
      exact Nat.le_trans (list xs ih) (Nat.le_add_left _ _)
  | power b e ihb ihe =>
      rw [radicalCount, size]
      split <;> omega
  | negation x ih => exact Nat.le_trans ih (Nat.le_add_left _ _)

end Expr

variable {ν : Type} [Number ν]

open Formulary.Expr

namespace Lifted

@[simp] theorem radicalCountAll_factors_append (l r : Lifted ν) :
    radicalCountAll (l.append r).factors = radicalCountAll l.factors + radicalCountAll r.factors :=
  radicalCountAll_append _ _

theorem radicalCountAll_ofExpr (x : Expr ν) :
    radicalCountAll (ofExpr x).factors = radicalCount x := by
  have list (xs : List (Expr ν)) (h : ∀ x ∈ xs, radicalCountAll (ofExpr x).factors = radicalCount x) :
      radicalCountAll (ofExprs xs).factors = radicalCountAll xs := by
    induction xs with
    | nil => rfl
    | cons x xs ih =>
        rw [ofExprs, radicalCountAll_factors_append, h x List.mem_cons_self,
          ih fun y hy => h y (List.mem_cons_of_mem _ hy), radicalCountAll]
  induction x with
  | product fs ih => exact list fs ih
  | negation x ih => exact ih
  | _ => simp [ofExpr, radicalCountAll]

theorem radicalCountAll_ofExprs (xs : List (Expr ν)) :
    radicalCountAll (ofExprs xs).factors = radicalCountAll xs :=
  radicalCountAll_ofExpr (.product xs)

end Lifted

namespace Radical

def baseCount (rs : List (Radical ν)) : Nat := radicalCountAll (rs.map base)

theorem radicalCount_of_ofExpr? {x : Expr ν} {r : Radical ν} (h : ofExpr? x = some r) :
    radicalCount x = 1 + radicalCount r.base := by
  unfold ofExpr? at h
  split at h
  · next b n =>
    split at h
    · next hn =>
      cases h
      simp [radicalCount, Expr.isHalfInteger, hn]
    · cases h
  · cases h

theorem radicalCountAll_split (fs : List (Expr ν)) :
    radicalCountAll fs =
      radicalCountAll (fs.filter fun f => (ofExpr? f).isNone) + (fs.filterMap ofExpr?).length +
      baseCount (fs.filterMap ofExpr?) := by
  induction fs with
  | nil => rfl
  | cons f fs ih =>
      cases h : ofExpr? f with
      | none =>
          rw [List.filter_cons_of_pos (by simp [h]), List.filterMap_cons_none h, radicalCountAll,
            radicalCountAll, ih]
          omega
      | some r =>
          rw [List.filter_cons_of_neg (by simp [h]), List.filterMap_cons_some h, radicalCountAll,
            ih, radicalCount_of_ofExpr? h]
          simp only [baseCount, List.map_cons, List.length_cons, radicalCountAll]
          omega

theorem baseCount_merge_le (ms : List (Radical ν)) (r : Radical ν) :
    baseCount (merge ms r) ≤ baseCount ms + radicalCount r.base := by
  induction ms with
  | nil => simp [merge, baseCount, radicalCountAll]
  | cons m ms ih =>
      rw [merge]
      split
      · simp [baseCount, radicalCountAll]
      · simp only [baseCount, List.map_cons, radicalCountAll] at ih ⊢
        omega

theorem baseCount_foldl_merge_le (rs ms : List (Radical ν)) :
    baseCount (rs.foldl merge ms) ≤ baseCount ms + baseCount rs := by
  induction rs generalizing ms with
  | nil => exact Nat.le_refl _
  | cons r rs ih =>
      have hm := baseCount_merge_le ms r
      have hr := ih (merge ms r)
      rw [List.foldl_cons]
      have hc : baseCount (r :: rs) = radicalCount r.base + baseCount rs := rfl
      omega

variable [DistinctNumber ν]

theorem radicalCount_squared (r : Radical ν) : radicalCount r.squared = radicalCount r.base := by
  unfold squared
  split
  · rfl
  · simp [radicalCount, Expr.ofNumber, Numeral.ofNumber, Expr.isHalfInteger, Numeral.isHalfInteger,
      DistinctNumber.one_beq_two]

theorem radicalCount_radicand_le (rs : List (Radical ν)) :
    radicalCount (radicand rs) ≤ baseCount rs := by
  have hs (ms : List (Radical ν)) : radicalCountAll (ms.map squared) = baseCount ms := by
    simp only [baseCount, radicalCountAll_eq_sum, List.map_map]
    exact congrArg List.sum (List.map_congr_left fun m _ => radicalCount_squared m)
  have hf : radicalCountAll (((mergeAll rs).filter fun r => !Number.isZero r.turns).map squared) ≤
      baseCount (mergeAll rs) := by
    rw [hs]
    exact radicalCountAll_le_of_sublist (List.filter_sublist.map base)
  have hm : baseCount (mergeAll rs) ≤ 0 + baseCount rs := baseCount_foldl_merge_le rs []
  have hr := radicalCount_mul_le (((mergeAll rs).filter fun r => !Number.isZero r.turns).map squared)
  rw [radicand]
  omega

theorem radicalCount_root_le (rs : List (Radical ν)) : radicalCount (root rs) ≤ 1 + baseCount rs := by
  have h := radicalCount_radicand_le rs
  rw [root]
  split
  · omega
  · have hz : radicalCount (.number (.half : Numeral ν)) = 0 := rfl
    rw [sqrt, radicalCount, hz]
    split <;> omega

end Radical

/-- All radicals of a product but one are gone when they are combined. -/
theorem Lifted.radicalCount_combined [DistinctNumber ν] (l : Lifted ν) :
    radicalCount l.combined + l.radicals.length ≤ radicalCountAll l.factors + 1 := by
  have hs := Radical.radicalCountAll_split l.factors
  have hm := radicalCount_mul_le (l.others ++ [Radical.root l.radicals])
  have hr := Radical.radicalCount_root_le l.radicals
  simp only [radicalCountAll_append, radicalCountAll] at hm
  simp only [Lifted.combined, Lifted.others, Lifted.radicals] at *
  omega

end Formulary
