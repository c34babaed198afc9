import Formulary.Proofs.Radical.Guard
import Formulary.Proofs.Sign.Parts

namespace Formulary

open Interpretation Number

variable {ν : Type} [Number ν]

/-- In the bases of powers with an odd number of halves for an exponent, powers of positive numbers
are positive, and so are exponentials and hyperbolic cosines. Numerals have positive denominators,
and those over two are in lowest terms. -/
def Guard.positive : Guard ν where
  exponent w := ∃ n : ℤ, w = n + (1 / 2 : ℚ)
  numeral n := (∃ d : ℚ, Number.toRat? n.denominator = some d ∧ 0 < d) ∧ n.OddHalves
  power b e := IsPositiveReal b → ∀ v, principalPower b e = some v → IsPositiveReal v
  call h args := h = "Exp" ∨ h = "Cosh" → ∀ v, apply h args = some v → IsPositiveReal v

theorem Guard.positive_lawful [RootNumber ν] : (positive : Guard ν).Lawful where
  exponent_of_isHalfInteger := fun _ _ hn hh hq => hn.2.eq_add_half hh hq
  numeral_ofNumber := fun x => ⟨⟨1, RationalNumber.toRat?_one, one_pos⟩, Numeral.OddHalves.ofNumber x⟩
  numeral_half := ⟨⟨2, RootNumber.denominator_half, two_pos⟩, Numeral.OddHalves.half⟩
  numeral_neg := fun _ hn => ⟨hn.1, hn.2.neg⟩
  power_rat := fun _ q hb _ hv => isPositiveReal_power q hb (by exact_mod_cast hv)

namespace Sign

variable {ρ : String → ℝ}

theorem isPositiveReal_nameValue (hγ : 0 < ρ "EulerGamma") (hC : 0 < ρ "Catalan") {name : String}
    (h : name ∈ positiveConstants) : IsPositiveReal (nameValue ρ name) := by
  simp only [positiveConstants, List.mem_cons, List.not_mem_nil, or_false] at h
  obtain rfl | rfl | rfl | rfl | rfl | rfl := h
  · exact ⟨_, Real.pi_pos, rfl⟩
  · exact ⟨_, Real.exp_pos 1, rfl⟩
  · exact ⟨_, div_pos Real.pi_pos (by norm_num), rfl⟩
  · exact ⟨_, Real.goldenRatio_pos, rfl⟩
  · exact ⟨_, hγ, rfl⟩
  · exact ⟨_, hC, rfl⟩

section Trees

variable {I : Interpretation ℂ}

/-- What the sign of a tree takes for granted of it: divisors in numerals are positive, and so are
the values of certain constants, of powers of positive numbers, and of exponentials and hyperbolic
cosines. -/
def Presumed (I : Interpretation ℂ) : Expr ν → Prop
  | .number n => ∃ d : ℚ, Number.toRat? n.denominator = some d ∧ 0 < d
  | .symbol name => name ∈ positiveConstants → ∀ v, I.symbol name = some v → IsPositiveReal v
  | .power b e => ∀ u w v, I.value b = some u → I.value e = some w → I.power u w = some v →
    IsPositiveReal u → IsPositiveReal v
  | .call head args =>
      ∀ z v, head = "Exp" ∨ head = "Cosh" → I.values args = some [z] → I.call head [z] = some v →
      IsPositiveReal v
  | _ => True

theorem ofExprs_holds {facts : List (Fact ν)} {xs : List (Expr ν)} {vs : List ℂ}
    (ih : ∀ x ∈ xs, ∀ v, I.value x = some v → (ofExpr facts x).Holds v) (h : I.values xs = some vs) :
    List.Forall₂ Holds (ofExprs facts xs) vs := by
  induction xs generalizing vs with
  | nil =>
      cases h
      exact .nil
  | cons x xs ihx =>
      rw [values_cons] at h
      obtain ⟨v, ws, hv, hws, rfl⟩ := Option.map₂_eq_some_iff.mp h
      exact .cons (ih x List.mem_cons_self v hv)
        (ihx (fun y hy => ih y (List.mem_cons_of_mem _ hy)) hws)

def RealArguments (I : Interpretation ℂ) : Expr ν → Prop
  | .number n => n.Proper
  | .power _ e => ∀ w, I.value e = some w → ∃ r : ℝ, w = r
  | .call head args =>
    head = "Exp" ∨ head = "Cosh" → ∀ y ∈ args, ∀ w, I.value y = some w → ∃ r : ℝ, w = r
  | _ => True

theorem presumed_of_realArguments (hI : I.RealFunctions)
    (hconstants : ∀ name ∈ positiveConstants, ∀ v, I.symbol name = some v → IsPositiveReal v)
    {x : Expr ν} (hx : RealArguments I x) : Presumed I x := by
  cases x with
  | number n =>
      obtain ⟨-, d, -, hd, hpos⟩ := hx
      exact ⟨d, hd, hpos⟩
  | symbol name => exact fun hmem => hconstants name hmem
  | power b e =>
      intro u w v _ hw h hu
      obtain ⟨r, rfl⟩ := hx w hw
      exact isPositiveReal_power r hu (hI.power h)
  | call head args =>
      intro z v hhead hvalues h
      cases args with
      | nil => cases hvalues
      | cons y ys =>
          rw [values_cons] at hvalues
          obtain ⟨w, ws, hw, -, hcons⟩ := Option.map₂_eq_some_iff.mp hvalues
          obtain ⟨rfl, -⟩ := List.cons.inj hcons
          obtain ⟨r, rfl⟩ := hx hhead y List.mem_cons_self w hw
          exact hI.positive r hhead h
  | _ => trivial

variable [OrderedNumber ν]

/-- The sign of a tree is that of its value, if what it takes for granted is so in all parts of the
tree. -/
theorem ofExpr_holds_of_presumed (hI : I.RealFunctions) {facts : List (Fact ν)}
    (hf : ∀ f ∈ facts, f.Satisfied I) {x : Expr ν} {v : ℂ} (hx : x.Every (Presumed I))
    (h : I.value x = some v) :
    (ofExpr facts x).Holds v := by
  suffices hparts : (structural facts x).Holds v from (ofFacts_holds I hf h).otherwise hparts
  have parts {y : Expr ν} {w : ℂ} (hw : I.value y = some w) (ih : (structural facts y).Holds w) :
      (ofExpr facts y).Holds w := (ofFacts_holds I hf hw).otherwise ih
  induction x generalizing v with
  | number n => exact ofNumber_holds hx.here h
  | symbol name =>
      rw [structural, ofSymbol]
      split
      · next hmem => exact hx.here (List.contains_iff_mem.mp hmem) v h
      · trivial
  | negation y ih =>
      rw [value_negation] at h
      obtain ⟨w, hw, rfl⟩ := Option.map_eq_some_iff.mp h
      exact (parts hw (ih (hx.parts y List.mem_cons_self) hw)).flip
  | product fs ih =>
      rw [value_product, Interpretation.product] at h
      obtain ⟨vs, hvs, rfl⟩ := Option.map_eq_some_iff.mp h
      exact product_holds (ofExprs_holds (fun y hy v hv => parts hv (ih y hy (hx.parts y hy) hv)) hvs)
  | sum ts ih =>
      rw [value_sum, Interpretation.sum] at h
      obtain ⟨vs, hvs, rfl⟩ := Option.map_eq_some_iff.mp h
      exact sum_holds (ofExprs_holds (fun y hy v hv => parts hv (ih y hy (hx.parts y hy) hv)) hvs)
  | power b e ihb _ =>
      rw [value_power] at h
      obtain ⟨u, hu, h⟩ := Option.bind_eq_some_iff.mp h
      obtain ⟨w, hw, h⟩ := Option.bind_eq_some_iff.mp h
      have hb := parts hu (ihb (hx.parts b Expr.base_mem_children) hu)
      have he := (hx.parts e Expr.exponent_mem_children).here
      refine ofPower_holds hb hw ?_ (hI.power h) (hx.here u w v hu hw h)
      rintro n rfl
      exact he
  | call head args ih =>
      cases args with
      | nil => trivial
      | cons y ys =>
          cases ys with
          | cons => trivial
          | nil =>
              rw [value_call] at h
              obtain ⟨vs, hvs, h⟩ := Option.bind_eq_some_iff.mp h
              obtain ⟨u, us, hu, hus, rfl⟩ := Option.map₂_eq_some_iff.mp hvs
              cases hus
              have hy := parts hu (ih y List.mem_cons_self (hx.parts y List.mem_cons_self) hu)
              exact ofCall_holds hI hy h fun hp => hx.here u v hp hvs h
  | list items | pattern s k => trivial

/-- The rule for signs is right about every tree with a value, where the named constants are
positive, the assumptions hold, and exponents and the arguments of exponentials and hyperbolic
cosines are real. -/
theorem fromFacts_holds (hI : I.RealFunctions)
    (hconstants : ∀ name ∈ positiveConstants, ∀ v, I.symbol name = some v → IsPositiveReal v)
    {assumptions : Assumptions ν} (hfacts : ∀ f ∈ assumptions.facts, f.Satisfied I) {x : Expr ν}
    (hx : x.Every (RealArguments I)) {v : ℂ} (h : I.value x = some v) :
    (fromFacts x assumptions).Holds v :=
  ofExpr_holds_of_presumed hI hfacts (hx.imp fun _ => presumed_of_realArguments hI hconstants) h

def negativeCube : Expr Float :=
  .product [.call "Exp" [.symbol "b"], .power (.symbol "a") (.number ⟨-3, 1⟩)]

def negativeName : Fact Float := ⟨.symbol "a", .lt, 0⟩

noncomputable def minusOneAndOne : Interpretation ℂ :=
  analytic fun name => if name = "a" then -1 else 1

/-- With `a = -1` and `b = 1` the value is negative, as the rule says. -/
theorem fromFacts_holds_negativeCube :
    fromFacts negativeCube (.stated [negativeName]) = .negative ∧
      ∃ v, minusOneAndOne.value negativeCube = some v ∧ Sign.negative.Holds v := by
  have hsign : fromFacts negativeCube (.stated [negativeName]) = .negative := by decide +kernel
  have hI : minusOneAndOne.RealFunctions := analytic_realFunctions _
  have ha : minusOneAndOne.value (.symbol "a" : Expr Float) = some ((-1 : ℝ) : ℂ) := by
    rw [value_symbol]
    simp [minusOneAndOne, analytic, nameValue]
  have hb : minusOneAndOne.value (.symbol "b" : Expr Float) = some ((1 : ℝ) : ℂ) := by
    rw [value_symbol]
    simp [minusOneAndOne, analytic, nameValue]
  have hthree : toRat? (-3 : Float) = some (-3) := Double.toRat?_neg_ofNat (by norm_num)
  have hn : (⟨-3, 1⟩ : Numeral Float).toRat? = some (-3 / 1) :=
    Numeral.toRat?_of_parts hthree RationalNumber.toRat?_one one_ne_zero
  have he : minusOneAndOne.value (.number ⟨-3, 1⟩ : Expr Float) = some ((-3 : ℝ) : ℂ) := by
    rw [value_number, hn]
    norm_num
  obtain ⟨v, hv⟩ : ∃ v, minusOneAndOne.value negativeCube = some v := by
    rw [negativeCube, value_product, product_cons, product_cons, product_nil, value_call,
      values_cons, hb, values_nil, value_power, ha, he]
    simp [minusOneAndOne, analytic, apply, applyOne, principalPower]
  have hfacts : ∀ f ∈ (Assumptions.stated [negativeName]).facts, f.Satisfied minusOneAndOne := by
    intro f hf
    obtain rfl := List.mem_singleton.mp hf
    have hbound : toExact (0 : Float) = .finite 0 := toExact_of_toRat? RationalNumber.toRat?_zero
    refine ⟨-1, ha, ?_⟩
    simp [negativeName, hbound, Relation.HoldsOf, Exact.toEReal?]
  have hconstants : ∀ name ∈ positiveConstants, ∀ v, minusOneAndOne.symbol name = some v →
      IsPositiveReal v := by
    intro name hmem v hv
    obtain rfl := Option.some.inj hv
    exact isPositiveReal_nameValue (by simp) (by simp) hmem
  have hnumeral : Expr.Every (RealArguments minusOneAndOne) (.number ⟨-3, 1⟩ : Expr Float) :=
    .leaf ⟨-3, 1, hthree, RationalNumber.toRat?_one, one_pos⟩ rfl
  have hpower : Expr.Every (RealArguments minusOneAndOne)
      (.power (.symbol "a") (.number ⟨-3, 1⟩) : Expr Float) :=
    .intro (fun w hw => ⟨-3, Option.some.inj (hw.symm.trans he)⟩)
      (List.forall_mem_cons.mpr ⟨.leaf trivial rfl, List.forall_mem_singleton.mpr hnumeral⟩)
  have hexp : Expr.Every (RealArguments minusOneAndOne) (.call "Exp" [.symbol "b"] : Expr Float) :=
    .intro (fun _ => List.forall_mem_singleton.mpr fun w hw =>
      ⟨1, Option.some.inj (hw.symm.trans hb)⟩) (List.forall_mem_singleton.mpr (.leaf trivial rfl))
  have hreal : negativeCube.Every (RealArguments minusOneAndOne) :=
    .intro trivial (List.forall_mem_cons.mpr ⟨hexp, List.forall_mem_singleton.mpr hpower⟩)
  -- for variable assumptions, as elaboration would work out the sign of a closed tree
  have hholds (a : Assumptions Float) (ha : a = .stated [negativeName])
      (hs : fromFacts negativeCube a = .negative) : Sign.negative.Holds v := by
    rw [← hs]
    exact fromFacts_holds hI hconstants (ha ▸ hfacts) hreal hv
  exact ⟨hsign, v, hv, hholds _ rfl hsign⟩

end Trees

/-- Trees that meet the conditions everywhere are as their signs presume. -/
theorem presumed_of_guarded (hγ : 0 < ρ "EulerGamma") (hC : 0 < ρ "Catalan") {x : Expr ν}
    (hg : Guarded (analytic ρ) .positive True x) : x.Every (Presumed (analytic ρ)) := by
  have list (xs : List (Expr ν))
      (ih : ∀ x ∈ xs, Guarded (analytic ρ) .positive True x → x.Every (Presumed (analytic ρ)))
      (hg : GuardedAll (analytic ρ) .positive True xs) :
      ∀ x ∈ xs, x.Every (Presumed (analytic ρ)) :=
    fun x hx => ih x hx (guardedAll_iff.mp hg x hx)
  induction x with
  | number n => exact .leaf hg.1 rfl
  | symbol name =>
      refine .leaf ?_ rfl
      intro hname v hv
      obtain rfl := Option.some.inj hv
      exact isPositiveReal_nameValue hγ hC hname
  | pattern s k => exact .leaf trivial rfl
  | sum xs ih | product xs ih | list xs ih => exact .intro trivial (list xs ih hg)
  | negation y ih => exact .intro trivial (List.forall_mem_singleton.mpr (ih hg))
  | power b e ihb ihe =>
      obtain ⟨hb, he, hv⟩ := hg
      refine .intro ?_ ?_
      · intro u w v hu hw h hp
        exact hv trivial u w hu hw hp v h
      · exact List.forall_mem_cons.mpr ⟨ihb (hb.of_imp fun _ => .inl trivial),
          List.forall_mem_singleton.mpr (ihe he)⟩
  | call head args ih =>
    exact .intro (fun z v hp hz h => hg.2 trivial [z] hz hp v h) (list args ih hg.1)

theorem ofExpr_holds [OrderedNumber ν] (hγ : 0 < ρ "EulerGamma") (hC : 0 < ρ "Catalan")
    {facts : List (Fact ν)} (hf : ∀ f ∈ facts, f.Satisfied (analytic ρ)) {x : Expr ν} {v : ℂ}
    (hg : Guarded (analytic ρ) .positive True x) (h : (analytic ρ).value x = some v) :
    (ofExpr facts x).Holds v :=
  ofExpr_holds_of_presumed (analytic_realFunctions ρ) hf (presumed_of_guarded hγ hC hg) h

end Sign

end Formulary
