import Formulary.Proofs.Number.Exact
import Formulary.Proofs.Number.Nearest
import Mathlib

namespace Formulary

/-- Numbers whose sum is rounded only where no number stands for it. -/
class SummingNumber (ν : Type) [Number ν] : Prop where
  toRat?_add : ∀ {x y z : ν} {p q : ℚ}, Number.toRat? x = some p → Number.toRat? y = some q →
    Number.toRat? z = some (p + q) → Number.toRat? (x + y) = some (p + q)

instance {ν : Type} [Number ν] [ExactNumber ν] : SummingNumber ν :=
  ⟨fun hx hy _ => ExactNumber.toRat?_add hx hy⟩

namespace Double

open Float.Model Float.Model.UnpackedFloat

variable {m m₁ m₂ : ℕ} {p q : ℚ}

theorem signOf_mul_abs (q : ℚ) : (((signOf q).apply 1 : ℤ) : ℚ) * |q| = q := by
  rw [signOf]
  split
  · next hneg => rw [abs_of_neg hneg]; simp [Sign.apply]
  · next hnonneg => rw [abs_of_nonneg (not_lt.mp hnonneg)]; simp [Sign.apply]

theorem decreaseExponent_eq (m : ℕ) {e t : ℤ} (h : t ≤ e) :
    ((decreaseExponent m e t).1 : ℚ) * 2 ^ t = m * 2 ^ e := by
  change ((m <<< (e - t).toNat : ℕ) : ℚ) * 2 ^ t = m * 2 ^ e
  have hsum : ((e - t).toNat : ℤ) + t = e := by omega
  rw [Nat.shiftLeft_eq, Nat.cast_mul, Nat.cast_pow, Nat.cast_ofNat, mul_assoc, ← zpow_natCast,
    ← zpow_add₀ (by norm_num), hsum]

theorem normalize_eq {n : ℤ} (hn : n ≠ 0) (e : ℤ) (s : Sign) :
    normalize .binary64 n e s = rounded (signOf (n * 2 ^ e)) |(n : ℚ) * 2 ^ e| := by
  have hpow : (0 : ℚ) < 2 ^ e := by positivity
  rw [UnpackedFloat.normalize]
  rcases lt_trichotomy n 0 with hneg | hzero | hpos
  · have hcast : (((-n).toNat : ℕ) : ℚ) = -n := by
      rw [← Int.cast_natCast, Int.toNat_of_nonneg (by omega), Int.cast_neg]
    have hlt : (n : ℚ) * 2 ^ e < 0 := mul_neg_of_neg_of_pos (by exact_mod_cast hneg) hpow
    rw [compare_lt_iff_lt.mpr hneg, signOf, if_pos hlt, abs_of_neg hlt, ← neg_mul, ← hcast]
    exact round_eq .negative (by omega) e
  · exact absurd hzero hn
  · have hcast : ((n.toNat : ℕ) : ℚ) = n := by
      rw [← Int.cast_natCast, Int.toNat_of_nonneg hpos.le]
    have hlt : 0 < (n : ℚ) * 2 ^ e := mul_pos (by exact_mod_cast hpos) hpow
    rw [compare_gt_iff_gt.mpr hpos, signOf, if_neg hlt.not_gt, abs_of_pos hlt, ← hcast]
    exact round_eq .positive (by omega) e

theorem apply_mul_zpow {s : Sign} {e t : ℤ} {m n : ℕ} (h : (n : ℚ) * 2 ^ t = m * 2 ^ e) :
    ((s.apply n : ℤ) : ℚ) * 2 ^ t = (s.apply m : ℤ) * 2 ^ e := by
  cases s with
  | positive => exact h
  | negative =>
    rw [Sign.apply, Sign.apply, Int.cast_neg, Int.cast_neg, neg_mul, neg_mul, Int.cast_natCast,
      Int.cast_natCast, h]

theorem add_finite {s₁ s₂ : Sign} {e₁ e₂ : ℤ} {h₁ : 0 < m₁} {h₂ : 0 < m₂}
    (hp : ((s₁.apply m₁ : ℤ) : ℚ) * 2 ^ e₁ = p) (hq : ((s₂.apply m₂ : ℤ) : ℚ) * 2 ^ e₂ = q) :
    UnpackedFloat.add .binary64 (.finite s₁ m₁ e₁ h₁) (.finite s₂ m₂ e₂ h₂) =
      if p + q = 0 then .zero .positive else rounded (signOf (p + q)) |p + q| := by
  let t := min e₁ e₂
  let n : ℤ := s₁.apply (decreaseExponent m₁ e₁ t).1 + s₂.apply (decreaseExponent m₂ e₂ t).1
  have hadd : UnpackedFloat.add .binary64 (.finite s₁ m₁ e₁ h₁) (.finite s₂ m₂ e₂ h₂) =
      normalize .binary64 n t .positive := rfl
  have hsum : (n : ℚ) * 2 ^ t = p + q := by
    rw [Int.cast_add, add_mul, apply_mul_zpow (decreaseExponent_eq m₁ (min_le_left e₁ e₂)),
      apply_mul_zpow (decreaseExponent_eq m₂ (min_le_right e₁ e₂)), hp, hq]
  have hpow : (2 : ℚ) ^ t ≠ 0 := by positivity
  rw [hadd, ← hsum]
  split
  · next hzero =>
    have hn : n = 0 := by exact_mod_cast (mul_eq_zero.mp hzero).resolve_right hpow
    rw [hn]
    rfl
  · next hne => exact normalize_eq (fun hn => hne (by rw [hn, Int.cast_zero, zero_mul])) t .positive

theorem toRat?_add {x y z : Float} (hx : toRat? x = some p) (hy : toRat? y = some q)
    (hz : toRat? z = some (p + q)) : toRat? (x + y) = some (p + q) := by
  have hadd : x + y = packed (UnpackedFloat.add .binary64 x.toModel.unpack y.toModel.unpack) := rfl
  rw [hadd]
  rcases unpack_of_toRat? hx with ⟨s, hu, rfl⟩ | ⟨s, m, e, hm, hu, rfl⟩
  · rcases unpack_of_toRat? hy with ⟨s', hv, rfl⟩ | ⟨s', m', e', hm', hv, rfl⟩
    · rw [hu, hv, zero_add]
      cases s <;> cases s' <;> exact toRat?_packed trivial
    · have hcanonical := canonical_toModel y
      rw [hv] at hcanonical
      rw [hu, hv, zero_add]
      exact toRat?_packed hcanonical
  · rcases unpack_of_toRat? hy with ⟨s', hv, rfl⟩ | ⟨s', m', e', hm', hv, rfl⟩
    · have hcanonical := canonical_toModel x
      rw [hu] at hcanonical
      rw [hu, hv, add_zero]
      exact toRat?_packed hcanonical
    · rw [hu, hv, add_finite rfl rfl]
      split
      · next hzero =>
        rw [hzero]
        exact toRat?_packed trivial
      · next hne => rw [toRat?_rounded (representable_of_toRat? hz hne), signOf_mul_abs]

instance : SummingNumber Float := ⟨toRat?_add⟩

end Double

theorem exists_forall₂ {α β : Type} {R : α → β → Prop} {as : List α} (h : ∀ a ∈ as, ∃ b, R a b) :
    ∃ bs, List.Forall₂ R as bs := by
  induction as with
  | nil => exact ⟨[], .nil⟩
  | cons a as ih =>
      obtain ⟨⟨b, hb⟩, has⟩ := List.forall_mem_cons.mp h
      obtain ⟨bs, hbs⟩ := ih has
      exact ⟨b :: bs, .cons hb hbs⟩

theorem forall₂_of_concat {α β : Type} {R : α → β → Prop} {as : List α} {a : α} {bs : List β}
    (h : List.Forall₂ R (as ++ [a]) bs) : ∃ cs b, bs = cs ++ [b] ∧ List.Forall₂ R as cs ∧ R a b := by
  induction as generalizing bs with
  | nil =>
      cases h with
      | cons hb hnil =>
          cases hnil
          exact ⟨[], _, rfl, .nil, hb⟩
  | cons x as ih =>
      cases h with
      | cons hx has =>
          obtain ⟨cs, b, rfl, hcs, hb⟩ := ih has
          exact ⟨_ :: cs, b, rfl, .cons hx hcs, hb⟩

namespace Number

variable {ν : Type} [Number ν]

def total : List ν → ν
  | [] => zero
  | t :: ts => ts.foldl (· + ·) t

theorem total_concat {ts : List ν} (h : ts ≠ []) (t : ν) : total (ts ++ [t]) = total ts + t := by
  cases ts with
  | nil => exact absurd rfl h
  | cons u us => exact List.foldl_concat ..

/-- Numbers that stand for rationals of which all partial sums are numbers. -/
structure SumsExactly (ts : List ν) (qs : List ℚ) : Prop where
  values : List.Forall₂ (fun t q => toRat? t = some q) ts qs
  partialSums : ∀ ps, ps <+: qs → ∃ z : ν, toRat? z = some ps.sum

/-- A sum from left to right is exact where the partial sums are numbers. -/
theorem toRat?_foldl [SummingNumber ν] {ts : List ν} {qs : List ℚ} {t : ν} {q : ℚ}
    (ht : toRat? t = some q) (hts : List.Forall₂ (fun t q => toRat? t = some q) ts qs)
    (hsums : ∀ ps, ps <+: qs → ∃ z : ν, toRat? z = some (q + ps.sum)) :
    toRat? (ts.foldl (· + ·) t) = some (q + qs.sum) := by
  induction hts generalizing t q with
  | nil => rwa [List.sum_nil, add_zero]
  | @cons u p us ps hu _ ih =>
      obtain ⟨z, hz⟩ := hsums [p] (List.prefix_append [p] ps)
      rw [List.sum_singleton] at hz
      rw [List.foldl_cons, List.sum_cons, ← add_assoc]
      refine ih (SummingNumber.toRat?_add ht hu hz) fun rs hrs => ?_
      rw [add_assoc, ← List.sum_cons]
      exact hsums (p :: rs) (List.cons_prefix_cons.mpr ⟨rfl, hrs⟩)

theorem SumsExactly.total [RationalNumber ν] [SummingNumber ν] {ts : List ν} {qs : List ℚ}
    (h : SumsExactly ts qs) : toRat? (total ts) = some qs.sum := by
  obtain ⟨hvalues, hsums⟩ := h
  cases hvalues with
  | nil => exact RationalNumber.toRat?_zero
  | @cons t q ts qs ht hts =>
      rw [List.sum_cons]
      refine toRat?_foldl ht hts fun ps hps => ?_
      rw [← List.sum_cons]
      exact hsums (q :: ps) (List.cons_prefix_cons.mpr ⟨rfl, hps⟩)

theorem SumsExactly.of_concat {ts : List ν} {t : ν} {qs : List ℚ} (h : SumsExactly (ts ++ [t]) qs) :
    ∃ ps q, qs = ps ++ [q] ∧ SumsExactly ts ps ∧ toRat? t = some q := by
  obtain ⟨ps, q, rfl, hps, hq⟩ := forall₂_of_concat h.values
  refine ⟨ps, q, rfl, ⟨hps, fun rs hrs => ?_⟩, hq⟩
  exact h.partialSums rs (hrs.trans (List.prefix_append ps [q]))

theorem sumsExactly_nil [RationalNumber ν] : SumsExactly ([] : List ν) [] := by
  refine ⟨.nil, fun ps hps => ⟨zero, ?_⟩⟩
  rw [List.prefix_nil.mp hps, List.sum_nil, RationalNumber.toRat?_zero]

theorem sumsExactly_pair [RationalNumber ν] {x y z : ν} {p q : ℚ} (hx : toRat? x = some p)
    (hy : toRat? y = some q) (hz : toRat? z = some (p + q)) : SumsExactly [x, y] [p, q] := by
  refine ⟨.cons hx (.cons hy .nil), fun ps hps => ?_⟩
  simp only [List.prefix_cons_iff, List.prefix_nil] at hps
  obtain rfl | ⟨_, rfl, rfl | ⟨_, rfl, rfl⟩⟩ := hps
  · exact ⟨zero, RationalNumber.toRat?_zero⟩
  · exact ⟨x, by simpa using hx⟩
  · exact ⟨z, by simpa using hz⟩

end Number

theorem Exact.exists_sumsExactly {ts : List Exact} (h : ∀ t ∈ ts, ∃ q : ℚ, Number.toRat? t = some q) :
    ∃ qs, Number.SumsExactly ts qs := by
  obtain ⟨qs, hqs⟩ := exists_forall₂ h
  exact ⟨qs, hqs, fun ps _ => ⟨.finite ps.sum, rfl⟩⟩

end Formulary
