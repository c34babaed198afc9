import Formulary.Proofs.Radical.Bounded
import Formulary.Proofs.Sign.Soundness

namespace Formulary.Combined

open Interpretation Number

variable {ν : Type} [Number ν] {ρ : String → ℝ}

/-- The default rule keeps the value of a tree at real values of its names at which the facts hold,
if what it takes for positive in the bases of radicals is positive, and the turns of the radicals
that are combined add up exactly. -/
theorem ofExpr_sound_fromFacts [RootNumber ν] (hγ : 0 < ρ "EulerGamma") (hC : 0 < ρ "Catalan")
    {facts : List (Fact ν)} (hf : ∀ f ∈ facts, f.Satisfied (analytic ρ))
    (oddNegatives : OddNegatives) {x : Expr ν} {v : ℂ} (hg : Guarded (analytic ρ) .positive False x)
    (hexact : AddsExactly ⟨Sign.fromFacts, oddNegatives⟩ facts x)
    (h : (analytic ρ).value x = some v) :
    (analytic ρ).value (ofExpr ⟨Sign.fromFacts, oddNegatives⟩ (.stated facts) x).result = some v := by
  have hr : ∀ b w, Guarded (analytic ρ) .positive True b → (analytic ρ).value b = some w →
      (Sign.fromFacts b (.stated facts)).Holds w := fun _ _ hb hw => Sign.ofExpr_holds hγ hC hf hb hw
  exact value_settle (analytic_principal ρ) Guard.positive_lawful ⟨Sign.fromFacts, oddNegatives⟩
    facts hr x.size hexact hg h

def rootsOfNameAndExp : Expr Float :=
  .product [.sqrt (.symbol "a"), .sqrt (.call "Exp" [.symbol "b"])]

def positiveName : Fact Float := ⟨.symbol "a", .gt, 0⟩

noncomputable def fourAndOne : Interpretation ℂ :=
  analytic fun name => if name = "a" then (4 : ℕ) else 1

/-- With `a = 4` and `b = 1` both roots are positive, and so is the one root that takes their
place. -/
theorem ofExpr_sound_fromFacts_rootsOfNameAndExp :
    fourAndOne.value rootsOfNameAndExp = some ((2 * √(Real.exp 1) : ℝ) : ℂ) ∧
      fourAndOne.value (ofExpr .defaults (.stated [positiveName]) rootsOfNameAndExp).result =
        some ((2 * √(Real.exp 1) : ℝ) : ℂ) ∧
      ((ofExpr .defaults (.stated [positiveName]) rootsOfNameAndExp).result ==
        .sqrt (.product [.symbol "a", .call "Exp" [.symbol "b"]])) = true := by
  have hp : fourAndOne.Principal := analytic_principal _
  have ha : fourAndOne.value (.symbol "a" : Expr Float) = some ((4 : ℝ) : ℂ) := by
    rw [value_symbol]
    simp [fourAndOne, analytic, nameValue]
  have hb : fourAndOne.value (.symbol "b" : Expr Float) = some ((1 : ℝ) : ℂ) := by
    rw [value_symbol]
    simp [fourAndOne, analytic, nameValue]
  have he : fourAndOne.value (.call "Exp" [.symbol "b"] : Expr Float) = some (Real.exp 1 : ℝ) := by
    rw [value_call, values_cons, hb, values_nil]
    exact congrArg some (Complex.ofReal_exp 1).symm
  have hv : fourAndOne.value rootsOfNameAndExp = some ((2 * √(Real.exp 1) : ℝ) : ℂ) := by
    have h4 : √(4 : ℝ) = 2 := by rw [show (4 : ℝ) = 2 ^ 2 by norm_num, Real.sqrt_sq two_pos.le]
    rw [rootsOfNameAndExp, value_product, product_cons, product_cons, product_nil,
      Radical.value_sqrt hp ha, Radical.value_sqrt hp he]
    simp [realRoot, h4, (Real.exp_pos 1).le]
  have hf : ∀ f ∈ [positiveName], f.Satisfied fourAndOne := by
    intro f hf
    obtain rfl := List.mem_singleton.mp hf
    have hbound : toExact (0 : Float) = .finite 0 := toExact_of_toRat? RationalNumber.toRat?_zero
    refine ⟨4, ha, ?_⟩
    simp [positiveName, hbound, Relation.HoldsOf, Exact.toEReal?]
  have hg : Guarded fourAndOne .positive False rootsOfNameAndExp := by
    have hh : Guard.positive.numeral (.half : Numeral Float) := Guard.positive_lawful.numeral_half
    refine ⟨⟨trivial, hh, by rintro ⟨⟩⟩, ⟨⟨⟨trivial, trivial⟩, ?_⟩, hh, by rintro ⟨⟩⟩, trivial⟩
    intro _ vs hvs hh w hw
    rw [values_cons, hb, values_nil] at hvs
    obtain rfl := Option.some.inj hvs
    exact isPositiveReal_call 1 hh hw
  have hexact : AddsExactly .defaults [positiveName] rootsOfNameAndExp := by
    have hh : (Numeral.half : Numeral Float).HalvesAtMost 1 :=
      (Guard.halvesAtMost_lawful one_pos).numeral_half
    have root {y : Expr Float} (hy : y.Every (Expr.Numerals fun n => n.HalvesAtMost 1)) :
        (Expr.sqrt y).Every (Expr.Numerals fun n => n.HalvesAtMost 1) :=
      .intro trivial (List.forall_mem_cons.mpr ⟨hy, List.forall_mem_singleton.mpr (.leaf hh rfl)⟩)
    have hsmall : rootsOfNameAndExp.radicalCount ≤ 2 ^ 53 :=
      rootsOfNameAndExp.radicalCount_le_size.trans (by decide)
    have hcall : Expr.Every (Expr.Numerals fun n => n.HalvesAtMost 1)
        (.call "Exp" [.symbol "b"] : Expr Float) :=
      .intro trivial (List.forall_mem_singleton.mpr (.leaf trivial rfl))
    refine addsExactly_of_small one_pos (.intro trivial ?_) (by rw [mul_one]; exact hsmall)
    exact List.forall_mem_cons.mpr ⟨root (.leaf trivial rfl),
      List.forall_mem_singleton.mpr (root hcall)⟩
  exact ⟨hv, ofExpr_sound_fromFacts (by simp) (by simp) hf .preserve hg hexact hv, by decide +kernel⟩

def rootsOfImaginaryExp : Expr Float :=
  .product [.sqrt (.call "Exp" [.product [.symbol "Pi", .symbol "I"]]),
    .sqrt (.call "Exp" [.product [.symbol "Pi", .symbol "I"]])]

/-- Without the condition on exponentials the value may change: the root of `-1` times itself is not
the root of its square. -/
theorem ofExpr_fromFacts_rootsOfImaginaryExp :
    fourAndOne.value rootsOfImaginaryExp = some (-1) ∧
      fourAndOne.value (ofExpr .defaults (.stated []) rootsOfImaginaryExp).result = some 1 := by
  have hp : fourAndOne.Principal := analytic_principal _
  have he : fourAndOne.value (.call "Exp" [.product [.symbol "Pi", .symbol "I"]] : Expr Float) =
      some ((-1 : ℝ) : ℂ) := by
    have harg : fourAndOne.values [(.product [.symbol "Pi", .symbol "I"] : Expr Float)] =
        some [(Real.pi : ℂ) * Complex.I] := by
      rw [values_cons, value_product, product_cons, product_cons, product_nil, value_symbol,
        value_symbol, values_nil]
      simp [fourAndOne, analytic, nameValue]
    rw [value_call, harg]
    simp [fourAndOne, analytic, apply, applyOne]
  have hr : ((ofExpr .defaults (.stated []) rootsOfImaginaryExp).result ==
      .sqrt (Radical.squared ⟨.call "Exp" [.product [.symbol "Pi", .symbol "I"]], 2⟩)) = true := by
    decide +kernel
  constructor
  · rw [rootsOfImaginaryExp, value_product, product_cons, product_cons, product_nil,
      Radical.value_sqrt hp he]
    norm_num [realRoot]
  · have hd : Radical.Denotes fourAndOne ⟨.call "Exp" [.product [.symbol "Pi", .symbol "I"]],
        (2 : Float)⟩ ⟨-1, 2⟩ :=
      ⟨he, RationalNumber.toRat?_two.trans (by norm_num), by norm_num⟩
    rw [value_eq_of_beq _ hr, Radical.value_sqrt hp ((Radical.value_squared hp.rooted hd).trans
      (by simp [HalfPower.squared] : _ = some ((1 : ℝ) : ℂ)))]
    simp [realRoot]

end Formulary.Combined
