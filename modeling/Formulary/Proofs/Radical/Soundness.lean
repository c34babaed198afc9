import Formulary.Proofs.Radical.Guard
import Mathlib

namespace Formulary

open Interpretation

section Combines

variable {ν : Type} [Number ν] (options : RadicalOptions ν) (assumptions : Assumptions ν)

/-- The radicals that a pass over a tree puts under one root, in some product of the tree. -/
inductive Pass.Combines : Expr ν → List (Radical ν) → Prop
  | product {fs gs : List (Expr ν)}
      (hfactors : flattened (ofExprs options assumptions fs) = .product gs)
      (hchanged : (combineFactors options assumptions gs).changed = true) :
      Pass.Combines (.product fs) (Lifted.ofExprs gs).radicals
  | inside {x y : Expr ν} {rs : List (Radical ν)} (hy : y ∈ x.children) (h : Pass.Combines y rs) :
      Pass.Combines x rs

inductive Combined.Combines : Expr ν → List (Radical ν) → Prop
  | now {x : Expr ν} {rs : List (Radical ν)} (h : Pass.Combines options assumptions x rs) :
      Combined.Combines x rs
  | later {x : Expr ν} {rs : List (Radical ν)}
      (hchanged : (Pass.ofExpr options assumptions x).changed = true)
      (h : Combined.Combines (Pass.ofExpr options assumptions x).result rs) : Combined.Combines x rs

end Combines

variable {ν : Type} [Number ν] {I : Interpretation ℂ} {G : Guard ν} {inside : Prop}

def Pass.Keeps (I : Interpretation ℂ) (G : Guard ν) (options : RadicalOptions ν)
    (facts : List (Fact ν)) : Prop :=
  ∀ {inside : Prop} {fs : List (Expr ν)} {v : ℂ}, GuardedAll I G inside fs →
    ((combineFactors options (.stated facts) fs).changed = true →
      Radical.AddsExactly (fun x => options.signRule x (.stated facts))
        (Lifted.ofExprs fs).radicals) →
    I.product fs = some v → I.value (combineFactors options (.stated facts) fs).result = some v

section

variable [RationalNumber ν] (hG : G.Lawful) (options : RadicalOptions ν) (facts : List (Fact ν))
  (hk : Pass.Keeps I G options facts)

namespace Pass

def AddsExactly (x : Expr ν) : Prop :=
  ∀ rs, Combines options (.stated facts) x rs →
    Radical.AddsExactly (fun x => options.signRule x (.stated facts)) rs

omit [RationalNumber ν] in
theorem AddsExactly.part {x y : Expr ν} (h : AddsExactly options facts x) (hy : y ∈ x.children) :
    AddsExactly options facts y := fun rs hrs => h rs (.inside hy hrs)

omit [RationalNumber ν] in
theorem value_ofExprs {xs : List (Expr ν)} {vs : List ℂ}
    (ih : ∀ x ∈ xs, ∀ v, Guarded I G inside x → I.value x = some v →
      I.value (ofExpr options (.stated facts) x).result = some v ∧
        Guarded I G inside (ofExpr options (.stated facts) x).result)
    (hg : GuardedAll I G inside xs) (h : I.values xs = some vs) :
    I.values (ofExprs options (.stated facts) xs).result = some vs ∧
      GuardedAll I G inside (ofExprs options (.stated facts) xs).result := by
  induction xs generalizing vs with
  | nil => exact ⟨h, trivial⟩
  | cons x xs ihx =>
      rw [values_cons] at h
      obtain ⟨v, ws, hv, hws, rfl⟩ := Option.map₂_eq_some_iff.mp h
      obtain ⟨hx, hgx⟩ := ih x List.mem_cons_self v hg.1 hv
      obtain ⟨hxs, hgxs⟩ := ihx (fun y hy => ih y (List.mem_cons_of_mem _ hy)) hg.2 hws
      refine ⟨?_, hgx, hgxs⟩
      rw [ofExprs]
      change Option.map₂ _ (I.value (ofExpr options (.stated facts) x).result)
        (I.values (ofExprs options (.stated facts) xs).result) = _
      rw [hx, hxs]
      rfl

include hG hk

theorem value_ofFactors {fs : List (Expr ν)} {v : ℂ}
    (hexact : AddsExactly options facts (.product fs))
    (hg : GuardedAll I G inside (ofExprs options (.stated facts) fs).result)
    (h : I.product (ofExprs options (.stated facts) fs).result = some v) :
    I.value (ofFactors options (.stated facts) (ofExprs options (.stated facts) fs)).result = some v ∧
      Guarded I G inside
        (ofFactors options (.stated facts) (ofExprs options (.stated facts) fs)).result := by
  have combined {gs : List (Expr ν)} (hgs : GuardedAll I G inside gs) (hv : I.product gs = some v)
      (hfactors : flattened (ofExprs options (.stated facts) fs) = .product gs) :
      I.value (combineFactors options (.stated facts) gs).result = some v ∧
        Guarded I G inside (combineFactors options (.stated facts) gs).result :=
    ⟨hk hgs (fun hchanged => hexact _ (.product hfactors hchanged)) hv,
      Guarded.combineFactors hG options facts hgs⟩
  have hflat : I.value (flattened (ofExprs options (.stated facts) fs)) = some v ∧
      Guarded I G inside (flattened (ofExprs options (.stated facts) fs)) := by
    unfold flattened
    split
    · exact ⟨(I.value_mul _).trans h, Guarded.mul hG (guardedAll_iff.mp hg)⟩
    · exact ⟨h, hg⟩
  simp only [ofFactors, bind]
  split
  · next gs hgs =>
    rw [hgs] at hflat
    exact combined hflat.2 hflat.1 hgs
  · exact hflat

/-- A pass keeps the value of a tree and the conditions that it meets. -/
theorem value_ofExpr {x : Expr ν} {v : ℂ} (hexact : AddsExactly options facts x)
    (hg : Guarded I G inside x) (h : I.value x = some v) :
    I.value (ofExpr options (.stated facts) x).result = some v ∧
      Guarded I G inside (ofExpr options (.stated facts) x).result := by
  induction x generalizing inside v with
  | number | symbol | pattern =>
      rw [ofExpr]
      exact ⟨h, hg⟩
  | sum xs ih =>
      rw [value_sum, sum] at h
      obtain ⟨vs, hvs, rfl⟩ := Option.map_eq_some_iff.mp h
      obtain ⟨hxs, hgxs⟩ :=
        value_ofExprs options facts (fun x hx _ => ih x hx (hexact.part _ _ hx)) hg hvs
      rw [ofExpr]
      refine ⟨?_, hgxs⟩
      simp only [result_bind, result_pure, value_sum, sum, hxs, Option.map_some]
  | product xs ih =>
      rw [value_product, product] at h
      obtain ⟨vs, hvs, rfl⟩ := Option.map_eq_some_iff.mp h
      obtain ⟨hxs, hgxs⟩ :=
        value_ofExprs options facts (fun x hx _ => ih x hx (hexact.part _ _ hx)) hg hvs
      rw [ofExpr]
      exact value_ofFactors hG options facts hk hexact hgxs (by rw [product, hxs, Option.map_some])
  | power b e ihb ihe =>
      rw [value_power] at h
      obtain ⟨u, hu, h⟩ := Option.bind_eq_some_iff.mp h
      obtain ⟨w, hw, h⟩ := Option.bind_eq_some_iff.mp h
      obtain ⟨hgb, hge, hgv⟩ := hg
      obtain ⟨hb, hgb⟩ := ihb (hexact.part _ _ Expr.base_mem_children) hgb hu
      obtain ⟨he, hge⟩ := ihe (hexact.part _ _ Expr.exponent_mem_children) hge hw
      rw [ofExpr]
      simp only [result_bind, result_pure, value_power, hb, he, Option.bind_some]
      refine ⟨h, ?_, hge, ?_⟩
      · rw [he, ← hw]
        exact hgb
      · intro hin v' w' hv' hw'
        obtain rfl := Option.some.inj (hb.symm.trans hv')
        obtain rfl := Option.some.inj (he.symm.trans hw')
        exact hgv hin u w hu hw
  | call f xs ih =>
      rw [value_call] at h
      obtain ⟨vs, hvs, h⟩ := Option.bind_eq_some_iff.mp h
      obtain ⟨hxs, hgxs⟩ :=
        value_ofExprs options facts (fun x hx _ => ih x hx (hexact.part _ _ hx)) hg.1 hvs
      rw [ofExpr]
      simp only [result_bind, result_pure, value_call, hxs, Option.bind_some]
      refine ⟨h, hgxs, ?_⟩
      intro hin ws hws
      obtain rfl := Option.some.inj (hxs.symm.trans hws)
      exact hg.2 hin vs hvs
  | negation x ih =>
      rw [value_negation] at h
      obtain ⟨w, hw, rfl⟩ := Option.map_eq_some_iff.mp h
      obtain ⟨hx, hgx⟩ := ih (hexact.part _ _ List.mem_cons_self) hg hw
      rw [ofExpr]
      refine ⟨?_, hgx⟩
      simp only [result_bind, result_pure, value_negation, hx, Option.map_some]
  | list xs ih =>
      rw [value_list] at h
      obtain ⟨vs, hvs, h⟩ := Option.bind_eq_some_iff.mp h
      obtain ⟨hxs, hgxs⟩ :=
        value_ofExprs options facts (fun x hx _ => ih x hx (hexact.part _ _ hx)) hg hvs
      rw [ofExpr]
      simp only [result_bind, result_pure, value_list, hxs, Option.bind_some]
      exact ⟨h, hgxs⟩

end Pass

def Combined.AddsExactly (x : Expr ν) : Prop :=
  ∀ rs, Combines options (.stated facts) x rs →
    Radical.AddsExactly (fun x => options.signRule x (.stated facts)) rs

include hG hk in
theorem Combined.value_settle_of_keeps (limit : Nat) {x : Expr ν} {v : ℂ}
    (hexact : AddsExactly options facts x) (hg : Guarded I G inside x) (h : I.value x = some v) :
    I.value (settle options (.stated facts) limit x).result = some v := by
  have hfirst (x : Expr ν) (hx : AddsExactly options facts x) : Pass.AddsExactly options facts x :=
    fun rs hrs => hx rs (.now hrs)
  induction limit generalizing x with
  | zero => exact (Pass.value_ofExpr hG options facts hk (hfirst x hexact) hg h).1
  | succ limit ih =>
      obtain ⟨hv, hgv⟩ := Pass.value_ofExpr hG options facts hk (hfirst x hexact) hg h
      unfold settle
      simp only
      split
      · next hchanged => exact ih (fun rs hrs => hexact rs (.later hchanged hrs)) hgv hv
      · exact hv

end

theorem Combined.value_settle [RootNumber ν] (hI : I.Principal) (hG : G.Lawful)
    (options : RadicalOptions ν) (facts : List (Fact ν))
    (hr : ∀ b v, Guarded I G True b → I.value b = some v →
      (options.signRule b (.stated facts)).Holds v) (limit : Nat)
    {x : Expr ν} {v : ℂ} (hexact : AddsExactly options facts x) (hg : Guarded I G inside x)
    (h : I.value x = some v) :
    I.value (settle options (.stated facts) limit x).result = some v := by
  have hk : Pass.Keeps I G options facts := by
    intro inside fs v hfs hadds hv
    apply Pass.value_combineFactors hI.rooted options facts hadds _ (fun _ _ => hI.power_sqrt _) hv
    exact fun r hrad w hw => hr _ w (Guarded.base_of_radical hG hfs hrad) hw
  exact value_settle_of_keeps hG options facts hk limit hexact hg h

theorem Pass.Combines.exists_factors {options : RadicalOptions ν} {assumptions : Assumptions ν}
    {x : Expr ν} {rs : List (Radical ν)} (h : Combines options assumptions x rs) :
    ∃ gs, rs = (Lifted.ofExprs gs).radicals := by
  induction h with
  | product => exact ⟨_, rfl⟩
  | inside _ _ ih => exact ih

theorem Combined.Combines.exists_factors {options : RadicalOptions ν} {assumptions : Assumptions ν}
    {x : Expr ν} {rs : List (Radical ν)} (h : Combines options assumptions x rs) :
    ∃ gs, rs = (Lifted.ofExprs gs).radicals := by
  induction h with
  | now h => exact h.exists_factors
  | later _ _ ih => exact ih

theorem Combined.addsExactly_of_exact (options : RadicalOptions Exact) (facts : List (Fact Exact))
    (x : Expr Exact) : AddsExactly options facts x := by
  intro rs hrs
  obtain ⟨gs, rfl⟩ := hrs.exists_factors
  apply Radical.addsExactly_of_exact
  intro r hr
  obtain ⟨f, -, hf⟩ := List.mem_filterMap.mp hr
  obtain ⟨-, n, -, -, hn, -⟩ := Radical.eq_power_of_ofExpr? hf
  exact ⟨n, hn⟩

namespace Combined

/-- Combining radicals keeps the value of a tree, under every rule for signs that is right about the
values there are. -/
theorem ofExpr_sound (hI : I.Principal) (options : RadicalOptions Exact) (facts : List (Fact Exact))
    (hr : ∀ b v, I.value b = some v → (options.signRule b (.stated facts)).Holds v) {x : Expr Exact}
    {v : ℂ} (h : I.value x = some v) :
    I.value (ofExpr options (.stated facts) x).result = some v := by
  have hfree : (Guard.numerals fun _ : Numeral Exact => True).Lawful :=
    Guard.numerals_lawful (fun _ => trivial) trivial fun _ _ => trivial
  have hg : Guarded I (.numerals fun _ => True) True x :=
    guarded_numerals <| .of_forall (fun y => by cases y <;> trivial) x
  apply value_settle hI hfree options facts ?_ x.size (addsExactly_of_exact options facts x) hg h
  intro b w _ hw
  exact hr b w hw

def negatedRoots : Expr Exact := .product [.sqrt (.symbol "a"), .negation (.sqrt (.symbol "b"))]

def negativeNames : SignRule Exact :=
  fun x _ => if x == .symbol "a" || x == .symbol "b" then .negative else .unknown

noncomputable def minusFourAndNine : Interpretation ℂ :=
  analytic fun name => if name = "a" then -4 else -9

/-- With `a = -4` and `b = -9` the roots of both multiply to `-6`, and the one root takes the sign
of two quarter turns. -/
theorem ofExpr_sound_negatedRoots :
    minusFourAndNine.value negatedRoots = some 6 ∧
      minusFourAndNine.value (ofExpr ⟨negativeNames, .preserve⟩ (.stated []) negatedRoots).result =
        some 6 ∧
      ((ofExpr ⟨negativeNames, .preserve⟩ (.stated []) negatedRoots).result ==
        .sqrt (.product [.symbol "a", .symbol "b"])) = true := by
  have ha : minusFourAndNine.symbol "a" = some ((-4 : ℝ) : ℂ) := by
    simp [minusFourAndNine, analytic, nameValue]
  have hb : minusFourAndNine.symbol "b" = some ((-9 : ℝ) : ℂ) := by
    simp [minusFourAndNine, analytic, nameValue]
  have hp : minusFourAndNine.Principal := analytic_principal _
  have hv : minusFourAndNine.value negatedRoots = some 6 := by
    have h4 : √(4 : ℝ) = 2 := by rw [show (4 : ℝ) = 2 ^ 2 by norm_num, Real.sqrt_sq two_pos.le]
    have h9 : √(9 : ℝ) = 3 := by rw [show (9 : ℝ) = 3 ^ 2 by norm_num, Real.sqrt_sq three_pos.le]
    rw [negatedRoots, value_product, product_cons, product_cons, product_nil, value_negation,
      Radical.value_sqrt hp ((value_symbol _ _).trans ha),
      Radical.value_sqrt hp ((value_symbol _ _).trans hb)]
    norm_num [realRoot, h4, h9]
    linear_combination (-6) * Complex.I_sq
  have hr : ∀ b v, minusFourAndNine.value b = some v → (negativeNames b (.stated [])).Holds v := by
    intro x v hx
    unfold negativeNames
    split
    · next h =>
      cases Bool.or_eq_true_iff.mp h with
      | inl h =>
          rw [value_eq_of_beq _ h, value_symbol, ha] at hx
          exact ⟨-4, by norm_num, (Option.some.inj hx).symm⟩
      | inr h =>
          rw [value_eq_of_beq _ h, value_symbol, hb] at hx
          exact ⟨-9, by norm_num, (Option.some.inj hx).symm⟩
    · trivial
  exact ⟨hv, ofExpr_sound hp ⟨negativeNames, .preserve⟩ [] hr hv, by decide +kernel⟩

end Combined

end Formulary
