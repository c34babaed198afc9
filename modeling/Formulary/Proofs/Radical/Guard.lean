import Formulary.Proofs.Number.Ratio
import Formulary.Proofs.Radical.Root

namespace Formulary

open Interpretation Number

variable {ν : Type} [Number ν]

theorem Numeral.isHalfInteger_ofNumber [RationalNumber ν] (x : ν) :
    (Numeral.ofNumber x).isHalfInteger = false := by
  rw [Bool.eq_false_iff]
  intro h
  have hone : Number.toRat? (one : ν) = Number.toRat? (Number.ofInt 2 : ν) :=
    RationalNumber.toRat?_eq_of_beq (Bool.and_eq_true_iff.mp h).1
  rw [RationalNumber.toRat?_one, RationalNumber.toRat?_two] at hone
  norm_num at hone

theorem Numeral.exists_of_isHalfInteger_neg [RationalNumber ν] {n : Numeral ν}
    (h : n.neg.isHalfInteger = true) :
    ∃ m : ℤ, toInt? n.numerator = some (-m) ∧ toInt? n.neg.numerator = some m ∧
    n.isHalfInteger = true := by
  obtain ⟨h2, hm⟩ := Bool.and_eq_true_iff.mp h
  obtain ⟨m, hm⟩ := Option.isSome_iff_exists.mp hm
  have hneg : (Number.toRat? n.numerator).map Neg.neg = some (m : ℚ) :=
    (RationalNumber.toRat?_neg _).symm.trans (toRat?_of_toInt? hm)
  obtain ⟨q, hq, hqm⟩ := Option.map_eq_some_iff.mp hneg
  have hn : toInt? n.numerator = some (-m) := by
    apply toInt?_of_toRat?
    rw [hq, Int.cast_neg, ← hqm, Rat.neg_neg]
  exact ⟨m, hn, hm, Bool.and_eq_true_iff.mpr ⟨h2, by rw [Number.isInteger, hn]; rfl⟩⟩

def Numeral.OddHalves (n : Numeral ν) : Prop := n.isHalfInteger = true → isOdd n.numerator = true

def Numeral.Reduced (n : Numeral ν) : Prop :=
  ∃ p d : ℤ, Number.toRat? n.numerator = some (p : ℚ) ∧
    Number.toRat? n.denominator = some (d : ℚ) ∧ Lowest p d

theorem Numeral.Reduced.oddHalves [RationalNumber ν] {n : Numeral ν} (h : n.Reduced) :
    n.OddHalves := by
  obtain ⟨p, d, hp, hd, hlowest⟩ := h
  intro hhalf
  have htwo : Number.toRat? n.denominator = some 2 :=
    (RationalNumber.toRat?_eq_of_beq (Bool.and_eq_true_iff.mp hhalf).1).trans
      RationalNumber.toRat?_two
  obtain rfl : d = 2 := by exact_mod_cast Option.some.inj (hd.symm.trans htwo)
  rw [isOdd, toInt?_of_toRat? hp]
  refine beq_iff_eq.mpr ((Int.emod_two_eq_zero_or_one p).resolve_left fun heven => ?_)
  have hdvd : (2 : ℤ) ∣ Int.gcd p 2 := Int.dvd_coe_gcd (Int.dvd_of_emod_eq_zero heven) (dvd_refl 2)
  rw [hlowest.coprime] at hdvd
  omega

namespace Numeral.OddHalves

variable {n : Numeral ν}

theorem eq_add_half [RationalNumber ν] {q : ℚ} (h : n.OddHalves) (hn : n.isHalfInteger = true)
    (hq : n.toRat? = some q) : ∃ k : ℤ, (q : ℂ) = k + (1 / 2 : ℚ) := by
  obtain ⟨m, hm, hhalves⟩ := Numeral.exists_halves hn
  obtain rfl := Option.some.inj (hhalves.symm.trans hq)
  have hodd := h hn
  rw [isOdd, toInt?_of_toRat? hm] at hodd
  have hodd : m % 2 = 1 := beq_iff_eq.mp hodd
  have hm2 : (m : ℂ) = 2 * (m / 2 : ℤ) + 1 := by
    have h := Int.mul_ediv_add_emod m 2
    rw [hodd] at h
    exact_mod_cast h.symm
  refine ⟨m / 2, ?_⟩
  push_cast
  rw [hm2]
  ring

theorem ofNumber [RationalNumber ν] (x : ν) : (Numeral.ofNumber x).OddHalves := by
  intro h
  rw [Numeral.isHalfInteger_ofNumber] at h
  cases h

theorem half [RootNumber ν] : (Numeral.half : Numeral ν).OddHalves := by
  have hone : toInt? (Numeral.half : Numeral ν).numerator = some 1 := by
    apply toInt?_of_toRat?
    rw [RootNumber.numerator_half, Int.cast_one]
  intro _
  rw [isOdd, hone]
  rfl

theorem neg [RationalNumber ν] (hodd : n.OddHalves) : n.neg.OddHalves := by
  intro h
  obtain ⟨m, hn, hm, hhalf⟩ := Numeral.exists_of_isHalfInteger_neg h
  have hm2 : (-m) % 2 = 1 := by
    have ho := hodd hhalf
    rw [isOdd, hn] at ho
    exact beq_iff_eq.mp ho
  rw [isOdd, hm]
  exact beq_iff_eq.mpr (by omega)

end Numeral.OddHalves

/-- Conditions on numerals, on the values of a base and its exponent, and on the values of
arguments; and the values of the exponents whose bases they are meant for. -/
structure Guard (ν : Type) where
  exponent : ℂ → Prop
  numeral : Numeral ν → Prop
  power : ℂ → ℂ → Prop
  call : String → List ℂ → Prop

structure Guard.Lawful (G : Guard ν) : Prop where
  exponent_of_isHalfInteger : ∀ (n : Numeral ν) (q : ℚ), G.numeral n → n.isHalfInteger = true →
    n.toRat? = some q → G.exponent q
  numeral_ofNumber : ∀ x, G.numeral (.ofNumber x)
  numeral_half : G.numeral .half
  numeral_neg : ∀ n, G.numeral n → G.numeral n.neg
  power_rat : ∀ (v : ℂ) (q : ℚ), G.power v q

variable (I : Interpretation ℂ) (G : Guard ν)

mutual

/-- Numerals meet the conditions; powers and calls meet them in the bases that they are meant for,
and everywhere if asked for. -/
def Guarded : Prop → Expr ν → Prop
  | _, .number n => G.numeral n
  | _, .symbol _ | _, .pattern _ _ => True
  | inside, .sum xs | inside, .product xs | inside, .list xs => GuardedAll inside xs
  | inside, .negation x => Guarded inside x
  | inside, .power b e =>
    Guarded (inside ∨ ∃ w, I.value e = some w ∧ G.exponent w) b ∧ Guarded inside e ∧
      (inside → ∀ v w, I.value b = some v → I.value e = some w → G.power v w)
  | inside, .call h args =>
    GuardedAll inside args ∧ (inside → ∀ vs, I.values args = some vs → G.call h vs)

def GuardedAll : Prop → List (Expr ν) → Prop
  | _, [] => True
  | inside, x :: xs => Guarded inside x ∧ GuardedAll inside xs

end

variable {I G} {inside : Prop}

theorem guardedAll_iff {xs : List (Expr ν)} :
    GuardedAll I G inside xs ↔ ∀ x ∈ xs, Guarded I G inside x := by
  induction xs with
  | nil => exact ⟨nofun, fun _ => trivial⟩
  | cons x xs ih => rw [GuardedAll, ih, List.forall_mem_cons]

namespace Guarded

theorem of_imp {outside : Prop} {x : Expr ν} (hp : outside → inside) (h : Guarded I G inside x) :
    Guarded I G outside x := by
  have list (xs : List (Expr ν))
      (ih : ∀ x ∈ xs, ∀ {p q : Prop}, (q → p) → Guarded I G p x → Guarded I G q x) {p q : Prop}
      (hpq : q → p) (h : GuardedAll I G p xs) : GuardedAll I G q xs :=
    guardedAll_iff.mpr fun x hx => ih x hx hpq (guardedAll_iff.mp h x hx)
  induction x generalizing inside outside with
  | number => exact h
  | symbol | pattern => trivial
  | sum xs ih | product xs ih | list xs ih => exact list xs (fun x hx => ih x hx) hp h
  | negation x ih => exact ih hp h
  | power b e ihb ihe =>
      obtain ⟨hb, he, hv⟩ := h
      refine ⟨ihb (Or.imp_left hp) hb, ihe hp he, ?_⟩
      intro ho
      exact hv (hp ho)
  | call f xs ih => exact ⟨list xs (fun x hx => ih x hx) hp h.1, fun ho => h.2 (hp ho)⟩

theorem of_true {x : Expr ν} (h : Guarded I G True x) : Guarded I G inside x :=
  h.of_imp fun _ => trivial

variable (hG : G.Lawful)

include hG

theorem ofFactors {fs : List (Expr ν)} (h : ∀ f ∈ fs, Guarded I G inside f) :
    Guarded I G inside (Expr.ofFactors fs) := by
  unfold Expr.ofFactors
  split
  · exact hG.numeral_ofNumber _
  · exact h _ List.mem_cons_self
  · exact guardedAll_iff.mpr h

theorem mul {fs : List (Expr ν)} (h : ∀ f ∈ fs, Guarded I G inside f) :
    Guarded I G inside (Expr.mul fs) := by
  apply ofFactors hG
  intro g hg
  obtain ⟨f, hf, hgf⟩ := List.mem_flatMap.mp (List.mem_filter.mp hg).1
  unfold Expr.factorsOf at hgf
  split at hgf
  · exact guardedAll_iff.mp (h _ hf) g hgf
  · obtain rfl := List.mem_singleton.mp hgf
    exact h g hf

theorem neg {x : Expr ν} (h : Guarded I G inside x) : Guarded I G inside x.neg := by
  unfold Expr.neg
  split
  · exact hG.numeral_neg _ h
  · exact h
  · exact h

theorem signed {x : Expr ν} (negative : Bool) (h : Guarded I G inside x) :
    Guarded I G inside (x.signed negative) := by
  cases negative with
  | false => exact h
  | true => exact neg hG h

omit hG in
theorem lifted {x : Expr ν} (h : Guarded I G inside x) :
    ∀ f ∈ (Lifted.ofExpr x).factors, Guarded I G inside f := by
  have one (x : Expr ν) (h : Guarded I G inside x) : ∀ f ∈ [x], Guarded I G inside f := by
    intro f hf
    obtain rfl := List.mem_singleton.mp hf
    exact h
  have list (xs : List (Expr ν))
      (ih : ∀ x ∈ xs, Guarded I G inside x → ∀ f ∈ (Lifted.ofExpr x).factors, Guarded I G inside f)
      (h : GuardedAll I G inside xs) : ∀ f ∈ (Lifted.ofExprs xs).factors, Guarded I G inside f := by
    induction xs with
    | nil => exact fun _ hf => nomatch hf
    | cons x xs ihx =>
        intro f hf
        cases List.mem_append.mp hf with
        | inl hf => exact ih x List.mem_cons_self h.1 f hf
        | inr hf => exact ihx (fun y hy => ih y (List.mem_cons_of_mem _ hy)) h.2 f hf
  induction x with
  | product fs ih => exact list fs ih h
  | negation x ih => exact ih h
  | _ => exact one _ h

/-- The base of a radical meets the conditions everywhere. -/
theorem base_of_radical [RationalNumber ν] {fs : List (Expr ν)} (h : GuardedAll I G inside fs)
    {r : Radical ν} (hr : r ∈ (Lifted.ofExprs fs).radicals) : Guarded I G True r.base := by
  obtain ⟨f, hf, hfr⟩ := List.mem_filterMap.mp hr
  have hg : Guarded I G inside f := lifted (x := .product fs) h f hf
  obtain ⟨m, n, rfl, hm, -, hq⟩ := Radical.eq_power_of_ofExpr? hfr
  have he : I.value (.number m) = some (((n : ℚ) / 2 : ℚ) : ℂ) := by
    rw [value_number, hq, Option.map_some]
  exact hg.1.of_imp fun _ => .inr ⟨_, he, hG.exponent_of_isHalfInteger m _ hg.2.1 hm hq⟩

omit hG in
theorem base_of_merge {ms : List (Radical ν)} {r : Radical ν} (hm : ∀ m ∈ ms, Guarded I G True m.base)
    (hr : Guarded I G True r.base) : ∀ m ∈ Radical.merge ms r, Guarded I G True m.base := by
  induction ms with
  | nil =>
      intro m h
      obtain rfl := List.mem_singleton.mp h
      exact hr
  | cons a ms ih =>
      rw [Radical.merge]
      split
      · intro m h
        cases List.mem_cons.mp h with
        | inl h => exact h ▸ hm a List.mem_cons_self
        | inr h => exact hm m (List.mem_cons_of_mem _ h)
      · intro m h
        cases List.mem_cons.mp h with
        | inl h => exact h ▸ hm a List.mem_cons_self
        | inr h => exact ih (fun b hb => hm b (List.mem_cons_of_mem _ hb)) m h

theorem radicand {rs : List (Radical ν)} (h : ∀ r ∈ rs, Guarded I G True r.base) :
    Guarded I G True (Radical.radicand rs) := by
  have merged (ms : List (Radical ν)) (hm : ∀ m ∈ ms, Guarded I G True m.base) :
      ∀ m ∈ rs.foldl Radical.merge ms, Guarded I G True m.base := by
    induction rs generalizing ms with
    | nil => exact hm
    | cons r rs ih =>
        exact ih (fun b hb => h b (List.mem_cons_of_mem _ hb)) _
          (base_of_merge hm (h r List.mem_cons_self))
  apply mul hG
  intro f hf
  obtain ⟨m, hmem, rfl⟩ := List.mem_map.mp hf
  have hb := merged [] (fun _ hm => nomatch hm) m (List.mem_filter.mp hmem).1
  unfold Radical.squared
  split
  · exact hb
  · refine ⟨hb.of_true, hG.numeral_ofNumber _, ?_⟩
    intro _ v w _ hw
    rw [Expr.ofNumber, value_number] at hw
    obtain ⟨q, -, rfl⟩ := Option.map_eq_some_iff.mp hw
    exact hG.power_rat v q

theorem root {rs : List (Radical ν)} (h : ∀ r ∈ rs, Guarded I G True r.base) :
    Guarded I G inside (Radical.root rs) := by
  have hb := radicand hG h
  unfold Radical.root
  split
  · exact hb.of_true
  · refine ⟨hb.of_true, hG.numeral_half, ?_⟩
    intro _ v w _ hw
    rw [value_number] at hw
    obtain ⟨q, -, rfl⟩ := Option.map_eq_some_iff.mp hw
    exact hG.power_rat v q

/-- What combining makes of a product meets the conditions that the product met. -/
theorem combineFactors [RationalNumber ν] (options : RadicalOptions ν) (facts : List (Fact ν))
    {fs : List (Expr ν)} (h : GuardedAll I G inside fs) :
    Guarded I G inside (Pass.combineFactors options (.stated facts) fs).result := by
  obtain hp | ⟨-, -, hp⟩ := Pass.combineFactors_cases options facts fs
  · rw [hp]
    exact h
  · rw [hp]
    apply signed hG
    apply mul hG
    intro f hf
    cases List.mem_append.mp hf with
    | inl hf => exact lifted (x := .product fs) h f (List.mem_filter.mp hf).1
    | inr hf =>
        obtain rfl := List.mem_singleton.mp hf
        exact root hG fun r hr => base_of_radical hG h hr

end Guarded

def Guard.numerals (P : Numeral ν → Prop) : Guard ν :=
  ⟨fun _ => True, P, fun _ _ => True, fun _ _ => True⟩

def Expr.Numerals (P : Numeral ν → Prop) : Expr ν → Prop
  | .number n => P n
  | _ => True

section Numerals

variable {P : Numeral ν → Prop}

theorem Guard.numerals_lawful (ofNumber : ∀ x, P (.ofNumber x)) (half : P .half)
    (neg : ∀ n, P n → P n.neg) :
    (numerals P).Lawful := ⟨fun _ _ _ _ _ => trivial, ofNumber, half, neg, fun _ _ => trivial⟩

theorem guarded_numerals {x : Expr ν} (h : x.Every (Expr.Numerals P)) :
    Guarded I (.numerals P) inside x := by
  induction x generalizing inside with
  | number n => exact h.here
  | symbol | pattern => trivial
  | sum xs ih | product xs ih | list xs ih =>
    exact guardedAll_iff.mpr fun x hx => ih x hx (h.parts x hx)
  | negation x ih => exact ih (h.parts x List.mem_cons_self)
  | power b e ihb ihe =>
      exact ⟨ihb (h.parts b Expr.base_mem_children), ihe (h.parts e Expr.exponent_mem_children),
        fun _ _ _ _ _ => trivial⟩
  | call f xs ih =>
    exact ⟨guardedAll_iff.mpr fun x hx => ih x hx (h.parts x hx), fun _ _ _ => trivial⟩

theorem every_of_guarded {x : Expr ν} (h : Guarded I (.numerals P) inside x) :
    x.Every (Expr.Numerals P) := by
  induction x generalizing inside with
  | number n => exact .leaf h rfl
  | symbol | pattern => exact .leaf trivial rfl
  | sum xs ih | product xs ih | list xs ih =>
    exact .intro trivial fun x hx => ih x hx (guardedAll_iff.mp h x hx)
  | negation x ih => exact .intro trivial (List.forall_mem_singleton.mpr (ih h))
  | power b e ihb ihe =>
      exact .intro trivial
        (List.forall_mem_cons.mpr ⟨ihb h.1, List.forall_mem_singleton.mpr (ihe h.2.1)⟩)
  | call f xs ih => exact .intro trivial fun x hx => ih x hx (guardedAll_iff.mp h.1 x hx)

end Numerals

end Formulary
