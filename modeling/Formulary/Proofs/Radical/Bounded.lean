import Formulary.Proofs.Radical.Settling
import Formulary.Proofs.Radical.Soundness
import Mathlib

namespace Formulary

open Number

namespace Double

theorem exists_of_natAbs_le {n : ℤ} (hn : n.natAbs ≤ 2 ^ 53) :
    ∃ z : Float, Number.toRat? z = some (n : ℚ) := by
  obtain h | h := Int.natAbs_eq n
  · rw [h]
    exact ⟨OfNat.ofNat n.natAbs, toRat?_ofNat hn⟩
  · rw [h, Int.cast_neg]
    exact ⟨-OfNat.ofNat n.natAbs, toRat?_neg_ofNat hn⟩

end Double

theorem natAbs_sum_le {ns : List ℤ} {B : ℕ} (h : ∀ n ∈ ns, n.natAbs ≤ B) :
    ns.sum.natAbs ≤ ns.length * B := by
  induction ns with
  | nil => simp
  | cons n ns ih =>
      obtain ⟨hn, hns⟩ := List.forall_mem_cons.mp h
      calc (n :: ns).sum.natAbs ≤ n.natAbs + ns.sum.natAbs := by
            rw [List.sum_cons]
            exact Int.natAbs_add_le _ _
        _ ≤ B + ns.length * B := Nat.add_le_add hn (ih hns)
        _ = (n :: ns).length * B := by rw [List.length_cons]; ring

/-- So many integers of such a size add up without rounding. -/
theorem Double.exists_sumsExactly {ts : List Float} {B : ℕ}
    (h : ∀ t ∈ ts, ∃ n : ℤ, Number.toRat? t = some (n : ℚ) ∧ n.natAbs ≤ B)
    (hsmall : ts.length * B ≤ 2 ^ 53) :
    ∃ qs, SumsExactly ts qs := by
  obtain ⟨ns, hns⟩ := exists_forall₂ h
  have hbound : ∀ n ∈ ns, n.natAbs ≤ B := by
    have hflip : List.Forall₂ (fun (n : ℤ) t => n.natAbs ≤ B ∧
        Number.toRat? t = some (n : ℚ)) ns ts :=
      hns.flip.imp fun _ _ hn => hn.symm
    exact ((List.forall₂_and_left ns ts).mp hflip).1
  refine ⟨ns.map Int.cast, List.forall₂_map_right_iff.mpr (hns.imp fun _ _ hn => hn.1), ?_⟩
  intro ps hps
  obtain ⟨ms, hms, rfl⟩ := List.prefix_map_iff.mp hps
  have hsum : ms.sum.natAbs ≤ 2 ^ 53 := calc
    ms.sum.natAbs ≤ ms.length * B := natAbs_sum_le fun n hn => hbound n (hms.subset hn)
    _ ≤ ts.length * B := Nat.mul_le_mul_right B (hns.length_eq ▸ hms.length_le)
    _ ≤ 2 ^ 53 := hsmall
  obtain ⟨z, hz⟩ := Double.exists_of_natAbs_le hsum
  exact ⟨z, by rw [hz]; push_cast; rfl⟩

variable {ν : Type} [Number ν] {I : Interpretation ℂ} {B : ℕ}

def Numeral.HalvesAtMost (B : ℕ) (n : Numeral ν) : Prop :=
  n.isHalfInteger = true → ∀ k : ℤ, toInt? n.numerator = some k → k.natAbs ≤ B

theorem Guard.halvesAtMost_lawful [RootNumber ν] (hB : 0 < B) :
    (numerals fun n : Numeral ν => n.HalvesAtMost B).Lawful := by
  refine numerals_lawful ?_ ?_ ?_
  · intro x h
    rw [Numeral.isHalfInteger_ofNumber] at h
    cases h
  · intro _ k hk
    have hone := toRat?_of_toInt? hk
    rw [RootNumber.numerator_half] at hone
    obtain rfl : 1 = k := by exact_mod_cast Option.some.inj hone
    exact hB
  · intro n hn hhalf k hk
    obtain ⟨m, hm, hneg, hhalf⟩ := Numeral.exists_of_isHalfInteger_neg hhalf
    obtain rfl : m = k := Option.some.inj (hneg.symm.trans hk)
    rw [← Int.natAbs_neg]
    exact hn hhalf _ hm

section Passes

variable {P : Numeral ν → Prop} [RationalNumber ν] (options : RadicalOptions ν)
    (facts : List (Fact ν))

namespace Pass

omit [RationalNumber ν] in
theorem guardedAll_ofExprs {G : Guard ν} {inside : Prop} {xs : List (Expr ν)}
    (ih : ∀ x ∈ xs, Guarded I G inside x →
      Guarded I G inside (ofExpr options (.stated facts) x).result)
    (h : GuardedAll I G inside xs) :
    GuardedAll I G inside (ofExprs options (.stated facts) xs).result := by
  induction xs with
  | nil => trivial
  | cons x xs ihx =>
      rw [ofExprs]
      exact ⟨ih x List.mem_cons_self h.1, ihx (fun y hy => ih y (List.mem_cons_of_mem _ hy)) h.2⟩

omit [RationalNumber ν] in
theorem guarded_flattened {G : Guard ν} (hG : G.Lawful) {inside : Prop} {p : Pass ν (List (Expr ν))}
    (h : GuardedAll I G inside p.result) : Guarded I G inside (flattened p) := by
  unfold flattened
  split
  · exact Guarded.mul hG (guardedAll_iff.mp h)
  · exact h

theorem guarded_ofExpr (hP : (Guard.numerals P).Lawful) {x : Expr ν}
    (h : Guarded I (.numerals P) True x) :
    Guarded I (.numerals P) True (ofExpr options (.stated facts) x).result := by
  induction x with
  | number | symbol | pattern => exact h
  | sum xs ih | list xs ih =>
      rw [ofExpr]
      exact guardedAll_ofExprs options facts ih h
  | call f xs ih =>
      rw [ofExpr]
      exact ⟨guardedAll_ofExprs options facts ih h.1, fun _ _ _ => trivial⟩
  | negation x ih =>
      rw [ofExpr]
      exact ih h
  | power b e ihb ihe =>
      rw [ofExpr]
      obtain ⟨hb, he, -⟩ := h
      exact ⟨(ihb (hb.of_imp fun _ => .inl trivial)).of_true, ihe he, fun _ _ _ _ _ => trivial⟩
  | product fs ih =>
      have hflat := guarded_flattened hP (guardedAll_ofExprs options facts ih h)
      rw [ofExpr, ofFactors, bind]
      simp only
      split
      · next gs hgs =>
        rw [hgs] at hflat
        exact Guarded.combineFactors hP options facts hflat
      · exact hflat

end Pass

end Passes

theorem Expr.radicalCount_le_of_mem_children {x y : Expr ν} (hy : y ∈ x.children) :
    y.radicalCount ≤ x.radicalCount := by
  have list {xs : List (Expr ν)} (hy : y ∈ xs) : y.radicalCount ≤ radicalCountAll xs :=
    radicalCountAll_le_of_sublist (List.singleton_sublist.mpr hy)
  cases x with
  | number | symbol | pattern => cases hy
  | sum xs | product xs | call _ xs | list xs => exact list hy
  | negation x => exact list hy
  | power b e =>
      have hle := list hy
      simp only [Expr.children, radicalCountAll] at hle
      rw [radicalCount]
      omega

section Bounds

variable [RootNumber ν]

/-- A product has no more radicals than it has half-integer powers, and they have its numerals for
turns. -/
theorem Radical.bounded_of_factors {fs : List (Expr ν)}
    (h : GuardedAll I (.numerals fun n => n.HalvesAtMost B) True fs) :
    (Lifted.ofExprs fs).radicals.length ≤ Expr.radicalCount (.product fs) ∧
      ∀ r ∈ (Lifted.ofExprs fs).radicals, ∃ n : ℤ, toRat? r.turns = some (n : ℚ) ∧ n.natAbs ≤ B := by
  constructor
  · have hsplit := Radical.radicalCountAll_split (Lifted.ofExprs fs).factors
    have hlifted := Lifted.radicalCountAll_ofExprs fs
    change ((Lifted.ofExprs fs).factors.filterMap Radical.ofExpr?).length ≤ Expr.radicalCountAll fs
    omega
  · intro r hr
    obtain ⟨f, hf, hfr⟩ := List.mem_filterMap.mp hr
    have hg : Guarded I (.numerals fun n => n.HalvesAtMost B) True f :=
      Guarded.lifted (x := .product fs) h f hf
    obtain ⟨m, n, rfl, hm, hn, -⟩ := Radical.eq_power_of_ofExpr? hfr
    rw [Radical.ofExpr?, if_pos hm] at hfr
    have hturns : m.numerator = r.turns := congrArg Radical.turns (Option.some.inj hfr)
    exact ⟨n, hn, hg.2.1 hm n (by rw [hturns]; exact toInt?_of_toRat? hn)⟩

variable [DistinctNumber ν] {options : RadicalOptions ν} {facts : List (Fact ν)}

/-- The radicals put under one root are no more than those of the tree, and none has more turns. -/
theorem Pass.Combines.bounded (hB : 0 < B) {x : Expr ν} {rs : List (Radical ν)}
    (h : Combines options (.stated facts) x rs)
    (hx : x.Every (Expr.Numerals fun n => n.HalvesAtMost B)) :
    rs.length ≤ x.radicalCount ∧ ∀ r ∈ rs, ∃ n : ℤ, toRat? r.turns = some (n : ℚ) ∧ n.natAbs ≤ B := by
  induction h with
  | @product fs gs hfactors _ =>
      have hlawful := Guard.halvesAtMost_lawful (ν := ν) hB
      have hg : GuardedAll (Interpretation.analytic fun _ => 0) _ True fs := guarded_numerals hx
      have hflat := guarded_flattened hlawful
        (guardedAll_ofExprs options facts (fun y _ => guarded_ofExpr options facts hlawful) hg)
      rw [hfactors] at hflat
      obtain ⟨hlength, hturns⟩ := Radical.bounded_of_factors hflat
      refine ⟨hlength.trans ?_, hturns⟩
      have hshrinks := (shrinks_ofExprs options (.stated facts) fs fun y _ =>
        shrinks_ofExpr options (.stated facts) y).count_le
      rw [← hfactors, flattened]
      split
      · exact (Expr.radicalCount_mul_le _).trans hshrinks
      · exact hshrinks
  | inside hy _ ih =>
      obtain ⟨hlength, hturns⟩ := ih (hx.parts _ hy)
      exact ⟨hlength.trans (Expr.radicalCount_le_of_mem_children hy), hturns⟩

theorem Combined.Combines.bounded (hB : 0 < B) {x : Expr ν} {rs : List (Radical ν)}
    (h : Combines options (.stated facts) x rs)
    (hx : x.Every (Expr.Numerals fun n => n.HalvesAtMost B)) :
    rs.length ≤ x.radicalCount ∧ ∀ r ∈ rs, ∃ n : ℤ, toRat? r.turns = some (n : ℚ) ∧ n.natAbs ≤ B := by
  induction h with
  | now h => exact h.bounded hB hx
  | @later x rs _ _ ih =>
      have hg : Guarded (Interpretation.analytic fun _ => 0) _ True x := guarded_numerals hx
      obtain ⟨hlength, hturns⟩ :=
        ih (every_of_guarded (Pass.guarded_ofExpr options facts (Guard.halvesAtMost_lawful hB) hg))
      exact ⟨hlength.trans (Pass.shrinks_ofExpr options (.stated facts) x).count_le, hturns⟩

end Bounds

/-- Half-integer powers of doubles are combined without rounding if the numerators, at their largest
and as often as there are such powers, stay below `2 ^ 53`. -/
theorem Combined.addsExactly_of_small {options : RadicalOptions Float} {facts : List (Fact Float)}
    (hB : 0 < B) {x : Expr Float} (hx : x.Every (Expr.Numerals fun n => n.HalvesAtMost B))
    (hsmall : x.radicalCount * B ≤ 2 ^ 53) :
    AddsExactly options facts x := by
  intro rs hrs
  obtain ⟨hlength, hturns⟩ := hrs.bounded hB hx
  have sums (p : Radical Float → Bool) : ∃ qs, SumsExactly ((rs.filter p).map Radical.turns) qs := by
    refine Double.exists_sumsExactly (B := B) ?_ ?_
    · intro t ht
      obtain ⟨r, hr, rfl⟩ := List.mem_map.mp ht
      exact hturns r (List.mem_of_mem_filter hr)
    · rw [List.length_map]
      exact (Nat.mul_le_mul_right B ((List.length_filter_le ..).trans hlength)).trans hsmall
  exact ⟨fun r _ => sums _, sums _⟩

end Formulary
