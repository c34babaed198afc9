import Formulary.Proofs.Radical.Bounded
import Formulary.Proofs.Sign.Parts
import Mathlib

namespace Formulary

open Interpretation Number

variable {ν : Type} [Number ν]

def Expr.Powers (I : Interpretation ℂ) (P : ℂ → ℂ → Prop) : Expr ν → Prop
  | .power b e => ∀ u w, I.value b = some u → I.value e = some w → P u w
  | _ => True

def PositiveRoot (b e : ℂ) : Prop := (∃ k : ℤ, e = k + (1 / 2 : ℚ)) → IsPositiveReal b

section Restriction

variable {I : Interpretation ℂ} {allowed : ℂ → ℂ → Prop} {x : Expr ν} {xs : List (Expr ν)} {v : ℂ}

open Classical in
noncomputable def Interpretation.restrict (I : Interpretation ℂ) (allowed : ℂ → ℂ → Prop) :
    Interpretation ℂ :=
  { I with power := fun b e => if allowed b e then I.power b e else none }

namespace Interpretation

theorem power_restrict {b e : ℂ} (h : allowed b e) : (I.restrict allowed).power b e = I.power b e :=
  if_pos h

theorem power_of_restrict {b e : ℂ} (h : (I.restrict allowed).power b e = some v) :
    allowed b e ∧ I.power b e = some v := by
  unfold restrict at h
  simp only at h
  split at h
  · next hb => exact ⟨hb, h⟩
  · cases h

/-- Other powers that have the values of those in a tree give the tree its value. -/
theorem value_of_powers {power : ℂ → ℂ → Option ℂ}
    (hx : x.Every (Expr.Powers I fun u w => ∀ v, I.power u w = some v → power u w = some v))
    (h : I.value x = some v) :
    Interpretation.value { I with power := power } x = some v := by
  have list (xs : List (Expr ν)) (vs : List ℂ)
      (ih : ∀ x ∈ xs, ∀ {v}, I.value x = some v →
        Interpretation.value { I with power := power } x = some v)
      (h : I.values xs = some vs) :
      Interpretation.values { I with power := power } xs = some vs := by
    induction xs generalizing vs with
    | nil => exact h
    | cons x xs ihx =>
        obtain ⟨v, ws, hv, hws, rfl⟩ := Option.map₂_eq_some_iff.mp h
        rw [values_cons, ih x List.mem_cons_self hv,
          ihx ws (fun y hy => ih y (List.mem_cons_of_mem _ hy)) hws]
        rfl
  induction x generalizing v with
  | number | symbol | pattern => exact h
  | sum xs ih =>
      obtain ⟨vs, hvs, rfl⟩ := Option.map_eq_some_iff.mp h
      rw [value_sum, sum, list xs vs (fun y hy => ih y hy (hx.parts y hy)) hvs, Option.map_some]
  | product xs ih =>
      obtain ⟨vs, hvs, rfl⟩ := Option.map_eq_some_iff.mp h
      rw [value_product, product, list xs vs (fun y hy => ih y hy (hx.parts y hy)) hvs,
        Option.map_some]
  | power b e ihb ihe =>
      obtain ⟨u, hu, h⟩ := Option.bind_eq_some_iff.mp h
      obtain ⟨w, hw, h⟩ := Option.bind_eq_some_iff.mp h
      rw [value_power, ihb (hx.parts b Expr.base_mem_children) hu,
        ihe (hx.parts e Expr.exponent_mem_children) hw]
      exact hx.here u w hu hw v h
  | call f xs ih =>
      obtain ⟨vs, hvs, h⟩ := Option.bind_eq_some_iff.mp h
      rw [value_call, list xs vs (fun y hy => ih y hy (hx.parts y hy)) hvs]
      exact h
  | negation y ih =>
      obtain ⟨w, hw, rfl⟩ := Option.map_eq_some_iff.mp h
      rw [value_negation, ih (hx.parts y List.mem_cons_self) hw, Option.map_some]
  | list xs ih =>
      obtain ⟨vs, hvs, h⟩ := Option.bind_eq_some_iff.mp h
      rw [value_list, list xs vs (fun y hy => ih y hy (hx.parts y hy)) hvs]
      exact h

theorem value_of_restrict (h : (I.restrict allowed).value x = some v) : I.value x = some v := by
  have hpowers : x.Every (Expr.Powers (I.restrict allowed)
      fun u w => ∀ v, (I.restrict allowed).power u w = some v → I.power u w = some v) := by
    apply Expr.Every.of_forall
    intro y
    cases y with
    | power b e => exact fun u w _ _ v hv => (power_of_restrict hv).2
    | _ => trivial
  have hvalue : Interpretation.value { I.restrict allowed with power := I.power } x = some v :=
    value_of_powers hpowers h
  exact hvalue

theorem value_restrict (hx : x.Every (Expr.Powers I allowed)) (h : I.value x = some v) :
    (I.restrict allowed).value x = some v := by
  apply value_of_powers _ h
  apply hx.imp
  intro y hy
  cases y with
  | power b e => exact fun u w hu hw v hv => (power_restrict (hy u w hu hw)).trans hv
  | _ => trivial

theorem exists_value_of_product (h : I.product xs = some v) : ∀ x ∈ xs, ∃ u, I.value x = some u := by
  induction xs generalizing v with
  | nil => exact nofun
  | cons x xs ih =>
      rw [product_cons] at h
      obtain ⟨u, w, hu, hw, -⟩ := Option.map₂_eq_some_iff.mp h
      exact List.forall_mem_cons.mpr ⟨⟨u, hu⟩, ih hw⟩

end Interpretation

end Restriction

section

variable {I : Interpretation ℂ} {inside : Prop}

theorem Guard.oddHalves_lawful [RootNumber ν] : (numerals fun n : Numeral ν => n.OddHalves).Lawful :=
  numerals_lawful Numeral.OddHalves.ofNumber Numeral.OddHalves.half fun _ hn => hn.neg

namespace Interpretation

theorem rooted_restrict (hI : I.Principal) : (I.restrict PositiveRoot).Rooted where
  power_int := by
    intro b n
    have hallowed : PositiveRoot b n := by
      rintro ⟨k, hk⟩
      have htwice : ((2 * n : ℤ) : ℂ) = (2 * k + 1 : ℤ) := by
        push_cast
        rw [hk]
        push_cast
        ring
      have : 2 * n = 2 * k + 1 := by exact_mod_cast htwice
      omega
    exact (power_restrict hallowed).trans (hI.power_int b n)
  power_half := fun h => hI.rooted.power_half (power_of_restrict h).2

/-- A product has a value only if the bases of its radicals are positive. -/
theorem isPositiveReal_base [RationalNumber ν] {fs : List (Expr ν)} {v : ℂ}
    (hg : GuardedAll (I.restrict PositiveRoot) (.numerals Numeral.OddHalves) inside fs)
    (h : (I.restrict PositiveRoot).product fs = some v) :
    ∀ r ∈ (Lifted.ofExprs fs).radicals, ∀ w, (I.restrict PositiveRoot).value r.base = some w →
      IsPositiveReal w := by
  intro r hr w hw
  obtain ⟨f, hf, hfr⟩ := List.mem_filterMap.mp hr
  have hgf : Guarded (I.restrict PositiveRoot) (.numerals Numeral.OddHalves) inside f :=
    Guarded.lifted (x := .product fs) hg f hf
  obtain ⟨m, n, rfl, hm, -, hq⟩ := Radical.eq_power_of_ofExpr? hfr
  have hl := (I.restrict PositiveRoot).value_lifted (.product fs)
  rw [value_product, h] at hl
  obtain ⟨u, hu, -⟩ := Option.map_eq_some_iff.mp hl.symm
  obtain ⟨a, ha⟩ := exists_value_of_product hu _ hf
  rw [value_power, hw, value_number, hq] at ha
  exact (power_of_restrict ha).1 (Numeral.OddHalves.eq_add_half hgf.2.1 hm hq)

end Interpretation

theorem Radical.prod_squared_pos {J : Interpretation ℂ} {rs : List (Radical ν)}
    {ps : List HalfPower} (h : List.Forall₂ (Denotes J) rs ps)
    (hbases : ∀ r ∈ rs, ∀ w, J.value r.base = some w → IsPositiveReal w) :
    0 < (ps.map HalfPower.squared).prod := by
  induction h with
  | nil => simp
  | @cons r p rs ps hd _ ih =>
      obtain ⟨hr, hrs⟩ := List.forall_mem_cons.mp hbases
      obtain ⟨b, hb, hpb⟩ := hr _ hd.base
      rw [List.map_cons, List.prod_cons, HalfPower.squared, Complex.ofReal_injective hpb]
      exact mul_pos (zpow_pos hb _) (ih hrs)

namespace Pass

/-- The rule that takes every base for positive keeps values where half-integer powers of other
bases have none. -/
theorem keeps_of_positive [RootNumber ν] (hI : I.Principal) (policy : OddNegatives)
    (facts : List (Fact ν)) :
    Keeps (I.restrict PositiveRoot) (.numerals Numeral.OddHalves) ⟨fun _ _ => .positive,
      policy⟩ facts := by
  intro inside fs v hg hexact h
  have hbases := isPositiveReal_base hg h
  refine value_combineFactors (rooted_restrict hI) _ facts hexact hbases ?_ h
  intro ps hps
  have hpositive : PositiveRoot ((ps.map HalfPower.squared).prod : ℝ) (1 / 2) :=
    fun _ => ⟨_, Radical.prod_squared_pos hps hbases, rfl⟩
  exact (power_restrict hpositive).trans (hI.power_sqrt _)

end Pass

end

section Rules

namespace Pass

variable (options : RadicalOptions ν)

theorem diagnostics_combineFactors_unstated (fs : List (Expr ν)) :
    (combineFactors options .unstated fs).diagnostics = [] := by
  unfold combineFactors
  simp only
  split <;> rfl

theorem diagnostics_ofExprs_unstated {xs : List (Expr ν)}
    (ih : ∀ x ∈ xs, (ofExpr options .unstated x).diagnostics = []) :
    (ofExprs options .unstated xs).diagnostics = [] := by
  induction xs with
  | nil => rfl
  | cons x xs ihx =>
      rw [ofExprs]
      simp only [diagnostics_bind, diagnostics_pure, ih x List.mem_cons_self,
        ihx fun y hy => ih y (List.mem_cons_of_mem _ hy), List.append_nil]

theorem diagnostics_ofExpr_unstated (x : Expr ν) : (ofExpr options .unstated x).diagnostics = [] := by
  induction x with
  | number | symbol | pattern => rfl
  | sum xs ih | call _ xs ih | list xs ih =>
      rw [ofExpr]
      simp only [diagnostics_bind, diagnostics_pure, diagnostics_ofExprs_unstated options ih,
        List.append_nil]
  | product fs ih =>
      rw [ofExpr, ofFactors, bind]
      simp only [diagnostics_ofExprs_unstated options ih, List.nil_append]
      split
      · exact diagnostics_combineFactors_unstated options _
      · rfl
  | power b e ihb ihe =>
      rw [ofExpr]
      simp only [diagnostics_bind, diagnostics_pure, ihb, ihe, List.append_nil]
  | negation x ih =>
      rw [ofExpr]
      simp only [diagnostics_bind, diagnostics_pure, ih, List.append_nil]

end Pass

theorem Radical.turnsExactly_positive [RationalNumber ν] (rs : List (Radical ν)) :
    TurnsExactly (fun _ => .positive) rs := by
  refine ⟨[], ?_⟩
  rw [List.filter_eq_nil_iff.mpr fun r _ => by simp]
  exact sumsExactly_nil

theorem Radical.quarterTurns_positive (rs : List (Radical ν)) :
    quarterTurns (fun _ => .positive) rs = zero := by
  rw [quarterTurns, List.filter_eq_nil_iff.mpr fun r _ => by simp]
  rfl

variable [RationalNumber ν] (options : RadicalOptions ν) (policy : OddNegatives)
    (facts : List (Fact ν))

theorem Radical.obstacles_positive (rs : List (Radical ν)) :
    obstacles policy (fun _ => .positive) rs = [] := by
  have hzero : isOdd (zero : ν) = false := by simp [isOdd, toInt?, RationalNumber.toRat?_zero]
  rw [obstacles_eq, if_neg (by simp), quarterTurns_positive, hzero, if_neg (by simp)]

namespace Pass

theorem combineFactors_unstated :
    combineFactors options .unstated =
      combineFactors ⟨fun _ _ => .positive, policy⟩ (.stated facts) := by
  have hzero : Radical.halfTurnsOdd (zero : ν) = false := by
    simp [Radical.halfTurnsOdd, toInt?, RationalNumber.toRat?_zero]
  funext fs
  simp only [combineFactors, Radical.obstacles_positive, Radical.quarterTurns_positive, hzero,
    Bool.xor_false]

omit [RationalNumber ν] in
theorem ofExprs_unstated {xs : List (Expr ν)}
    (ih : ∀ x ∈ xs, ofExpr options .unstated x =
      ofExpr ⟨fun _ _ => .positive, policy⟩ (.stated facts) x) :
    ofExprs options .unstated xs = ofExprs ⟨fun _ _ => .positive, policy⟩ (.stated facts) xs := by
  induction xs with
  | nil => rfl
  | cons x xs ihx =>
    rw [ofExprs, ofExprs, ih x List.mem_cons_self, ihx fun y hy => ih y (List.mem_cons_of_mem _ hy)]

/-- A pass that asks for no signs is one that takes every base for positive. -/
theorem ofExpr_unstated (x : Expr ν) :
    ofExpr options .unstated x = ofExpr ⟨fun _ _ => .positive, policy⟩ (.stated facts) x := by
  induction x with
  | number | symbol | pattern => rfl
  | sum xs ih | call _ xs ih | list xs ih =>
    rw [ofExpr, ofExpr, ofExprs_unstated options policy facts ih]
  | product fs ih =>
      rw [ofExpr, ofExpr, ofExprs_unstated options policy facts ih]
      simp only [ofFactors, combineFactors_unstated options policy facts]
  | power b e ihb ihe => rw [ofExpr, ofExpr, ihb, ihe]
  | negation x ih => rw [ofExpr, ofExpr, ih]

theorem combines_unstated_iff {x : Expr ν} {rs : List (Radical ν)} :
    Combines options .unstated x rs ↔
      Combines ⟨fun _ _ => .positive, policy⟩ (.stated facts) x rs := by
  have hcombine := combineFactors_unstated options policy facts
  have hparts (fs : List (Expr ν)) :
      ofExprs options .unstated fs = ofExprs ⟨fun _ _ => .positive, policy⟩ (.stated facts) fs :=
    ofExprs_unstated options policy facts fun y _ => ofExpr_unstated options policy facts y
  constructor
  · intro h
    induction h with
    | product hfactors hchanged =>
      exact .product (by rw [← hparts]; exact hfactors) (by rw [← hcombine]; exact hchanged)
    | inside hy _ ih => exact .inside hy ih
  · intro h
    induction h with
    | product hfactors hchanged =>
      exact .product (by rw [hparts]; exact hfactors) (by rw [hcombine]; exact hchanged)
    | inside hy _ ih => exact .inside hy ih

end Pass

namespace Combined

theorem combines_unstated_iff {x : Expr ν} {rs : List (Radical ν)} :
    Combines options .unstated x rs ↔
      Combines ⟨fun _ _ => .positive, policy⟩ (.stated facts) x rs := by
  have hpass := Pass.ofExpr_unstated options policy facts
  constructor
  · intro h
    induction h with
    | now h => exact .now ((Pass.combines_unstated_iff options policy facts).mp h)
    | later hchanged _ ih =>
        rw [hpass] at hchanged ih
        exact .later hchanged ih
  · intro h
    induction h with
    | now h => exact .now ((Pass.combines_unstated_iff options policy facts).mpr h)
    | later hchanged _ ih =>
        rw [← hpass] at hchanged ih
        exact .later hchanged ih

theorem settle_unstated (limit : Nat) (x : Expr ν) :
    settle options .unstated limit x =
      settle ⟨fun _ _ => .positive, policy⟩ (.stated facts) limit x := by
  induction limit generalizing x with
  | zero => simp only [settle, Pass.ofExpr_unstated options policy facts]
  | succ limit ih => simp only [settle, Pass.ofExpr_unstated options policy facts, ih]

omit [RationalNumber ν] in
theorem diagnostics_settle_unstated (limit : Nat) (x : Expr ν) :
    (settle options .unstated limit x).diagnostics = [] := by
  induction limit generalizing x with
  | zero => exact Pass.diagnostics_ofExpr_unstated options x
  | succ limit ih =>
      unfold settle
      simp only
      split
      · exact ih _
      · exact Pass.diagnostics_ofExpr_unstated options x

end Combined

end Rules

namespace Combined

/-- Combining without asking for signs keeps the value of a tree if every power whose exponent comes
to an odd number of halves has a positive base and the turns over each base add up exactly; and it
makes the same passes, to the same tree and without diagnostics, as combining with every base taken
for positive. -/
theorem ofExpr_sound_of_positiveRoots :
    (∀ (ν : Type) [Number ν] [RootNumber ν] (I : Interpretation ℂ) (options : RadicalOptions ν)
      (x : Expr ν) (v : ℂ),
        I.Principal → x.Every (Expr.Numerals Numeral.OddHalves) →
        x.Every (Expr.Powers I PositiveRoot) →
        (∀ rs, Combines options .unstated x rs → Radical.MergesExactly rs) → I.value x = some v →
        I.value (ofExpr options .unstated x).result = some v) ∧
    ∀ (ν : Type) [Number ν] [RationalNumber ν] (options : RadicalOptions ν) (policy : OddNegatives)
      (facts : List (Fact ν)) (x : Expr ν),
        ofExpr options .unstated x =
          ofExpr ⟨fun _ _ => .positive, policy⟩ (.stated facts) x ∧
        (ofExpr options .unstated x).diagnostics = [] := by
  constructor
  · intro ν _ _ I options x v hI hodd hpositive hexact h
    have hg : Guarded (I.restrict PositiveRoot) (.numerals Numeral.OddHalves) True x :=
      guarded_numerals hodd
    have hadds : AddsExactly ⟨fun _ _ => .positive, .preserve⟩ [] x := fun rs hrs =>
      ⟨hexact rs ((combines_unstated_iff options .preserve []).mpr hrs),
        Radical.turnsExactly_positive rs⟩
    have hkept := value_settle_of_keeps Guard.oddHalves_lawful _ []
      (Pass.keeps_of_positive hI .preserve []) x.size hadds hg (value_restrict hpositive h)
    rw [ofExpr, settle_unstated options .preserve []]
    exact value_of_restrict hkept
  · intro ν _ _ options policy facts x
    exact ⟨settle_unstated options policy facts x.size x,
      diagnostics_settle_unstated options x.size x⟩

theorem toRat?_over_two {t : Float} {n : ℤ} (ht : toRat? t = some (n : ℚ)) :
    (⟨t, 2⟩ : Numeral Float).toRat? = some ((n : ℚ) / 2) :=
  Numeral.toRat?_of_parts ht RationalNumber.toRat?_two two_ne_zero

noncomputable def nineAndFour : Interpretation ℂ :=
  analytic fun name => if name = "a" then (9 : ℕ) else (4 : ℕ)

theorem nineAndFour_a : nineAndFour.value (.symbol "a" : Expr ν) = some ((9 : ℝ) : ℂ) := by
  rw [value_symbol]
  simp [nineAndFour, analytic, nameValue]

theorem realRoot_nine : realRoot 9 = 3 := by
  have h9 : √(9 : ℝ) = 3 := by rw [show (9 : ℝ) = 3 ^ 2 by norm_num, Real.sqrt_sq three_pos.le]
  norm_num [realRoot, h9]

def rootOverRoot : Expr Float :=
  .product [.sqrt (.symbol "a"), .power (.symbol "b") (.number ⟨-1, 2⟩)]

/-- With `a = 9` and `b = 4` the roots are divided under one root. -/
theorem ofExpr_sound_of_positiveRoots_rootOverRoot :
    nineAndFour.value rootOverRoot = some (3 / 2) ∧
      nineAndFour.value (ofExpr .defaults .unstated rootOverRoot).result = some (3 / 2) ∧
      ((ofExpr .defaults .unstated rootOverRoot).result ==
        .sqrt (.product [.symbol "a", .power (.symbol "b") (.ofNumber (-1))])) = true := by
  have hp : nineAndFour.Principal := analytic_principal _
  have hb : nineAndFour.value (.symbol "b" : Expr Float) = some ((4 : ℝ) : ℂ) := by
    rw [value_symbol]
    simp [nineAndFour, analytic, nameValue]
  have hn : nineAndFour.value (.number ⟨-1, 2⟩ : Expr Float) = some (((-1 : ℤ) : ℂ) / 2) :=
    Radical.value_halves _ (toRat?_over_two (RationalNumber.toRat?_minusOne.trans (by norm_num)))
  have hv : nineAndFour.value rootOverRoot = some (3 / 2) := by
    have h4 : √(4 : ℝ) = 2 := by rw [show (4 : ℝ) = 2 ^ 2 by norm_num, Real.sqrt_sq two_pos.le]
    rw [rootOverRoot, value_product, product_cons, product_cons, product_nil,
      Radical.value_sqrt hp nineAndFour_a, value_power, hb, hn, Option.bind_some, Option.bind_some,
      hp.power_half, realRoot_nine]
    norm_num [realRoot, h4]
  have positive {r : ℝ} {x : Expr Float} (hx : nineAndFour.value x = some (r : ℂ)) (hr : 0 < r)
      (e : Expr Float) : Expr.Powers nineAndFour PositiveRoot (.power x e) :=
    fun u w hu _ _ => ⟨r, hr, Option.some.inj (hu.symm.trans hx)⟩
  have hpositive : rootOverRoot.Every (Expr.Powers nineAndFour PositiveRoot) := by
    refine .intro trivial (List.forall_mem_cons.mpr
      ⟨.intro (positive nineAndFour_a (by norm_num) _) ?_,
        List.forall_mem_singleton.mpr (.intro (positive hb (by norm_num) _) ?_)⟩)
    all_goals exact List.forall_mem_cons.mpr ⟨.leaf trivial rfl,
      List.forall_mem_singleton.mpr (.leaf trivial rfl)⟩
  -- the two numerals are halves of `1` and of `-1`
  have numerals {P : Numeral Float → Prop} (hhalf : P .half) (hneg : P ⟨-1, 2⟩) :
      rootOverRoot.Every (Expr.Numerals P) := by
    refine .intro trivial (List.forall_mem_cons.mpr ⟨.intro trivial ?_,
      List.forall_mem_singleton.mpr (.intro trivial ?_)⟩)
    · exact List.forall_mem_cons.mpr ⟨.leaf trivial rfl,
        List.forall_mem_singleton.mpr (.leaf hhalf rfl)⟩
    · exact List.forall_mem_cons.mpr ⟨.leaf trivial rfl,
        List.forall_mem_singleton.mpr (.leaf hneg rfl)⟩
  have hreduced : Numeral.Reduced (⟨-1, 2⟩ : Numeral Float) :=
    ⟨-1, 2, RationalNumber.toRat?_minusOne, RationalNumber.toRat?_two, two_pos, rfl⟩
  have hodd : rootOverRoot.Every (Expr.Numerals Numeral.OddHalves) :=
    numerals Numeral.OddHalves.half hreduced.oddHalves
  have hbounded : rootOverRoot.Every (Expr.Numerals fun n => n.HalvesAtMost 1) := by
    refine numerals (Guard.halvesAtMost_lawful one_pos).numeral_half ?_
    intro _ k hk
    have hminus : toInt? (-1 : Float) = some (-1) :=
      toInt?_of_toRat? (RationalNumber.toRat?_minusOne.trans (by norm_num))
    obtain rfl := Option.some.inj (hminus.symm.trans hk)
    norm_num
  have hsmall : rootOverRoot.radicalCount * 1 ≤ 2 ^ 53 := by
    rw [mul_one]
    exact rootOverRoot.radicalCount_le_size.trans (by decide)
  have hexact : ∀ rs, Combines .defaults .unstated rootOverRoot rs → Radical.MergesExactly rs := by
    intro rs hrs
    exact (addsExactly_of_small one_pos hbounded hsmall rs
      ((combines_unstated_iff _ .preserve []).mp hrs)).1
  exact ⟨hv, ofExpr_sound_of_positiveRoots.1 Float nineAndFour .defaults rootOverRoot _ hp hodd
    hpositive hexact hv, by decide +kernel⟩

/-- An exponent that becomes a half when its own radicals are combined. -/
def halfFromRoots : Expr Float :=
  .product [.number ⟨1, 2⟩, .power (.symbol "a") (.number ⟨1, 2⟩),
    .power (.symbol "a") (.number ⟨-1, 2⟩)]

def minusOne : Expr Float := .number ⟨-1, 1⟩

def powersOfMinusOne : Expr Float :=
  .product [.power minusOne halfFromRoots, .power minusOne halfFromRoots]

def NumeralRoot (I : Interpretation ℂ) : Expr ν → Prop
  | .number n => n.Reduced
  | .power b (.number n) => n.isHalfInteger = true → ∀ u, I.value b = some u → IsPositiveReal u
  | _ => True

theorem everyNumeralRoot : powersOfMinusOne.Every (NumeralRoot nineAndFour) := by
  have number {n : Numeral Float} (h : n.Reduced) :
      Expr.Every (NumeralRoot nineAndFour) (.number n) := .leaf h rfl
  have root {n : Numeral Float} (h : n.Reduced) :
      Expr.Every (NumeralRoot nineAndFour) (.power (.symbol "a") (.number n)) := by
    refine .intro ?_ (List.forall_mem_cons.mpr ⟨.leaf trivial rfl,
      List.forall_mem_singleton.mpr (number h)⟩)
    intro _ u hu
    exact ⟨9, by norm_num, Option.some.inj (hu.symm.trans nineAndFour_a)⟩
  have hhalf : Numeral.Reduced (⟨1, 2⟩ : Numeral Float) :=
    ⟨1, 2, RationalNumber.toRat?_one, RationalNumber.toRat?_two, two_pos, rfl⟩
  have hneg : Numeral.Reduced (⟨-1, 2⟩ : Numeral Float) :=
    ⟨-1, 2, RationalNumber.toRat?_minusOne, RationalNumber.toRat?_two, two_pos, rfl⟩
  have hminus : Numeral.Reduced (⟨-1, 1⟩ : Numeral Float) :=
    ⟨-1, 1, RationalNumber.toRat?_minusOne, RationalNumber.toRat?_one, one_pos, rfl⟩
  have hhalves : halfFromRoots.Every (NumeralRoot nineAndFour) :=
    .intro trivial (List.forall_mem_cons.mpr ⟨number hhalf, List.forall_mem_cons.mpr ⟨root hhalf,
      List.forall_mem_singleton.mpr (root hneg)⟩⟩)
  have hpower : Expr.Every (NumeralRoot nineAndFour) (.power minusOne halfFromRoots) :=
    .intro trivial (List.forall_mem_cons.mpr ⟨number hminus, List.forall_mem_singleton.mpr hhalves⟩)
  exact .intro trivial (List.forall_mem_cons.mpr ⟨hpower, List.forall_mem_singleton.mpr hpower⟩)

theorem value_halfFromRoots : nineAndFour.value halfFromRoots = some (1 / 2) := by
  have hp : nineAndFour.Principal := analytic_principal _
  have hhalf : nineAndFour.value (.number ⟨1, 2⟩ : Expr Float) = some (((1 : ℤ) : ℂ) / 2) :=
    Radical.value_halves _ (toRat?_over_two (RationalNumber.toRat?_one.trans (by norm_num)))
  have hneg : nineAndFour.value (.number ⟨-1, 2⟩ : Expr Float) = some (((-1 : ℤ) : ℂ) / 2) :=
    Radical.value_halves _ (toRat?_over_two (RationalNumber.toRat?_minusOne.trans (by norm_num)))
  rw [halfFromRoots, value_product, product_cons, product_cons, product_cons, product_nil,
    value_power, value_power, nineAndFour_a, hhalf, hneg]
  simp only [Option.bind_some, hp.power_half, realRoot_nine]
  norm_num

theorem value_minusOne : nineAndFour.value minusOne = some ((-1 : ℝ) : ℂ) := by
  have hminus : (⟨-1, 1⟩ : Numeral Float).toRat? = some (-1 / 1) :=
    Numeral.toRat?_of_parts RationalNumber.toRat?_minusOne RationalNumber.toRat?_one one_ne_zero
  rw [minusOne, value_number, hminus]
  norm_num

def absorbedTurns : Expr Float :=
  .product [.power (.symbol "a") (.number ⟨9007199254740991, 2⟩),
    .power (.symbol "a") (.number ⟨1, 2⟩), .power (.symbol "a") (.number ⟨1, 2⟩),
    .power (.symbol "a") (.number ⟨-9007199254740991, 2⟩),
    .power (.symbol "a") (.number ⟨-1, 2⟩)]

theorem value_absorbedTurns : nineAndFour.value absorbedTurns = some 3 := by
  have hp : nineAndFour.Principal := analytic_principal _
  have power {t : Float} {n : ℤ} (ht : toRat? t = some (n : ℚ)) :
      nineAndFour.value (.power (.symbol "a") (.number ⟨t, 2⟩) : Expr Float) =
          some ((3 : ℂ) ^ n) := by
    rw [value_power, nineAndFour_a, Radical.value_halves _ (toRat?_over_two ht), Option.bind_some,
      Option.bind_some, hp.power_half, realRoot_nine, if_neg (by norm_num)]
  have hmany : toRat? (9007199254740991 : Float) = some ((9007199254740991 : ℤ) : ℚ) :=
    (Double.toRat?_ofNat (by norm_num)).trans (by norm_num)
  have hfewer : toRat? (-9007199254740991 : Float) = some ((-9007199254740991 : ℤ) : ℚ) :=
    (Double.toRat?_neg_ofNat (by norm_num)).trans (by norm_num)
  have hone : toRat? (1 : Float) = some ((1 : ℤ) : ℚ) := RationalNumber.toRat?_one.trans (by norm_num)
  have hless : toRat? (-1 : Float) = some ((-1 : ℤ) : ℚ) :=
    RationalNumber.toRat?_minusOne.trans (by norm_num)
  rw [absorbedTurns, value_product, product_cons, product_cons, product_cons, product_cons,
    product_cons, product_nil, power hmany, power hone, power hfewer, power hless]
  simp only [Option.map₂_some_some, mul_one, ← zpow_add₀ (three_ne_zero : (3 : ℂ) ≠ 0)]
  norm_num

/-- It is not enough that bases are positive under exponents that are numerals: the root of `-1`
times itself is not the root of its square, and the roots come into being on the way. Nor is it
enough that all bases are positive, as one of the turns may be lost beside `2 ^ 53`. -/
theorem ofExpr_unstated_powersOfMinusOne :
    nineAndFour.Principal ∧
      (powersOfMinusOne.Every fun y => ∀ n, y = .number n → n.Reduced) ∧
      (powersOfMinusOne.Every fun y => ∀ b n u, y = .power b (.number n) → n.isHalfInteger = true →
        nineAndFour.value b = some u → IsPositiveReal u) ∧
      nineAndFour.value powersOfMinusOne = some (-1) ∧
      nineAndFour.value (ofExpr .defaults .unstated powersOfMinusOne).result = some 1 ∧
      nineAndFour.value absorbedTurns = some 3 ∧
      nineAndFour.value (ofExpr .defaults .unstated absorbedTurns).result = some 1 := by
  have hp : nineAndFour.Principal := analytic_principal _
  have hv : nineAndFour.value powersOfMinusOne = some (-1) := by
    rw [powersOfMinusOne, value_product, product_cons, product_cons, product_nil, value_power,
      value_minusOne, value_halfFromRoots, Option.bind_some, Option.bind_some, hp.power_sqrt]
    norm_num [realRoot]
  have hcomputed : ((ofExpr .defaults .unstated powersOfMinusOne).result == .sqrt
      (Radical.squared ⟨minusOne, 2⟩)) = true ∧
      (ofExpr .defaults .unstated absorbedTurns).result.isOne = true := by decide +kernel
  obtain ⟨hr, hone⟩ := hcomputed
  have hd : Radical.Denotes nineAndFour ⟨minusOne, 2⟩ ⟨-1, 2⟩ :=
    ⟨value_minusOne, RationalNumber.toRat?_two.trans (by norm_num), by norm_num⟩
  have hs : nineAndFour.value (Radical.squared ⟨minusOne, 2⟩) = some ((1 : ℝ) : ℂ) :=
    (Radical.value_squared hp.rooted hd).trans (by simp [HalfPower.squared])
  have hresult : nineAndFour.value (ofExpr .defaults .unstated powersOfMinusOne).result = some 1 := by
    rw [value_eq_of_beq _ hr, Radical.value_sqrt hp hs]
    simp [realRoot]
  refine ⟨hp, everyNumeralRoot.imp ?_, everyNumeralRoot.imp ?_, hv, hresult, value_absorbedTurns,
    value_of_isOne _ hone⟩
  · rintro y hy n rfl
    exact hy
  · rintro y hy b n u rfl hn hu
    exact hy hn u hu

end Combined

end Formulary
