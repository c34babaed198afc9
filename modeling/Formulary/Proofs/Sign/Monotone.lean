import Formulary.Proofs.Sign.Exactness
import Formulary.Proofs.Sign.Soundness
import Mathlib

namespace Formulary.Sign

open Interpretation Number

/-- The second sign tells all that the first one does. -/
def RefinedBy (s t : Sign) : Prop := s ≠ .unknown → t = s

section Order

variable {s t : Sign} {ss ts : List Sign}

theorem Holds.refinedBy {v : ℂ} (hs : s.Holds v) (ht : t.Holds v) (hne : t ≠ .unknown) :
    s.RefinedBy t := by
  intro hs0
  cases s with
  | unknown => exact absurd rfl hs0
  | positive =>
      obtain ⟨b, hb, rfl⟩ := hs
      cases t with
      | positive => rfl
      | negative => exact absurd (holds_negative.mp ht) hb.not_gt
      | zero => exact absurd (holds_zero.mp ht) hb.ne'
      | unknown => exact absurd rfl hne
  | negative =>
      obtain ⟨b, hb, rfl⟩ := hs
      cases t with
      | positive => exact absurd (holds_positive.mp ht) hb.not_gt
      | negative => rfl
      | zero => exact absurd (holds_zero.mp ht) hb.ne
      | unknown => exact absurd rfl hne
  | zero =>
      obtain rfl : v = 0 := hs
      rw [← Complex.ofReal_zero] at ht
      cases t with
      | positive => exact absurd (holds_positive.mp ht) (lt_irrefl 0)
      | negative => exact absurd (holds_negative.mp ht) (lt_irrefl 0)
      | zero => rfl
      | unknown => exact absurd rfl hne

theorem RefinedBy.flip (h : s.RefinedBy t) : s.flip.RefinedBy t.flip := by
  intro hne
  rw [h]
  rintro rfl
  exact hne rfl

theorem RefinedBy.ofPower {ν : Type} [Number ν] (h : s.RefinedBy t) (e : Expr ν) :
    (ofPower s e).RefinedBy (ofPower t e) := by
  intro hne
  rw [h]
  rintro rfl
  exact hne rfl

/-- The argument of a function either is known or does not matter. -/
theorem RefinedBy.ofCall (h : s.RefinedBy t) (head : String) :
    (ofCall head s).RefinedBy (ofCall head t) := by
  intro hne
  by_cases hs : s = .unknown
  · subst hs
    unfold Sign.ofCall at hne ⊢
    split
    · rfl
    · next hother => simp [hother] at hne
  · rw [h hs]

theorem eq_of_refinedBy (h : List.Forall₂ RefinedBy ss ts) (hu : .unknown ∉ ss) : ts = ss := by
  induction h with
  | nil => rfl
  | cons hst _ ih =>
      obtain ⟨hs, hu⟩ := not_or.mp (List.mem_cons.not.mp hu)
      rw [hst (Ne.symm hs), ih hu]

theorem zero_mem_of_refinedBy (h : List.Forall₂ RefinedBy ss ts) (hz : .zero ∈ ss) : .zero ∈ ts := by
  induction h with
  | nil => exact hz
  | cons hst _ ih =>
      rcases List.mem_cons.mp hz with rfl | hz
      · rw [hst nofun]
        exact List.mem_cons_self
      · exact List.mem_cons_of_mem _ (ih hz)

theorem product_refinedBy (h : List.Forall₂ RefinedBy ss ts) :
    (product ss).RefinedBy (product ts) := by
  intro hne
  by_cases hz : .zero ∈ ss
  · have hs : product ss = .zero := if_pos (List.contains_iff_mem.mpr hz)
    rw [hs]
    exact if_pos (List.contains_iff_mem.mpr (zero_mem_of_refinedBy h hz))
  · rw [eq_of_refinedBy h]
    intro hu
    apply hne
    rw [product, if_neg (mt List.contains_iff_mem.mp hz), if_pos (List.contains_iff_mem.mpr hu)]

theorem sum_refinedBy (h : List.Forall₂ RefinedBy ss ts) : (sum ss).RefinedBy (sum ts) := by
  intro hne
  rw [eq_of_refinedBy h]
  intro hu
  exact hne (if_pos (List.contains_iff_mem.mpr hu))

end Order

section Trees

variable {ν : Type} [Number ν] {F G : List (Fact ν)} {x : Expr ν}

theorem ofExprs_refinedBy {xs : List (Expr ν)} (h : ∀ x ∈ xs, (ofExpr F x).RefinedBy (ofExpr G x)) :
    List.Forall₂ RefinedBy (ofExprs F xs) (ofExprs G xs) := by
  induction xs with
  | nil => exact .nil
  | cons x xs ih =>
    exact .cons (h x List.mem_cons_self) (ih fun y hy => h y (List.mem_cons_of_mem _ hy))

/-- What is known of the parts is enough for what follows from them. -/
theorem structural_refinedBy (h : ∀ c ∈ x.children, (ofExpr F c).RefinedBy (ofExpr G c)) :
    (structural F x).RefinedBy (structural G x) := by
  cases x with
  | number n | symbol name | list items | pattern s k => exact fun _ => rfl
  | negation y => exact (h y List.mem_cons_self).flip
  | product fs => exact product_refinedBy (ofExprs_refinedBy h)
  | sum ts => exact sum_refinedBy (ofExprs_refinedBy h)
  | power b e => exact (h b List.mem_cons_self).ofPower e
  | call head args =>
      match args with
      | [] | _ :: _ :: _ => exact fun _ => rfl
      | [y] => exact (h y List.mem_cons_self).ofCall head

variable {I : Interpretation ℂ}

theorem realArguments_of_real (hnumerals : x.Every fun y => ∀ n, y = .number n → n.Proper)
    (hreal : x.Every fun y => ∃ r : ℝ, I.value y = some (r : ℂ)) : x.Every (RealArguments I) := by
  have real {y : Expr ν} (hy : y.Every fun z => ∃ r : ℝ, I.value z = some (r : ℂ)) (w : ℂ)
      (hw : I.value y = some w) : ∃ r : ℝ, w = r := by
    obtain ⟨r, hr⟩ := hy.here
    exact ⟨r, Option.some.inj (hw.symm.trans hr)⟩
  induction hreal with
  | @intro y here parts ih =>
      refine .intro ?_ fun c hc => ih c hc (hnumerals.parts c hc)
      cases y with
      | number n => exact hnumerals.here n rfl
      | power b e => exact real (parts e Expr.exponent_mem_children)
      | call head args => exact fun _ y hy => real (parts y hy)
      | _ => trivial

variable [OrderedNumber ν]

/-- The facts of a larger list leave a smaller interval, in which the value is. -/
theorem ofFacts_refinedBy (hFG : F ⊆ G) (hG : ∀ g ∈ G, g.Satisfied I) {r : ℝ}
    (hx : I.value x = some (r : ℂ)) : (ofFacts F x).RefinedBy (ofFacts G x) := by
  have places (H : List (Fact ν)) :
      ofFacts H x = (Interval.ofFacts ((H.filter (·.subject == x)).map Fact.inPlace)).sign := by
    rw [ofFacts_eq, Interval.sign_inPlace]
  intro hne
  rw [places] at hne
  rw [places, places]
  have hsub : (F.filter (·.subject == x)).map Fact.inPlace ⊆ (G.filter (·.subject == x)).map
      Fact.inPlace := by
    apply List.map_subset
    intro f hf
    obtain ⟨hmem, hsubject⟩ := List.mem_filter.mp hf
    exact List.mem_filter.mpr ⟨hFG hmem, hsubject⟩
  have hholds : ∀ f ∈ (G.filter (·.subject == x)).map Fact.inPlace, f.relation.HoldsOf r f.bound := by
    rw [List.forall_mem_map]
    intro g hg
    obtain ⟨hmem, hsubject⟩ := List.mem_filter.mp hg
    obtain ⟨b, hb, hr⟩ := hG g hmem
    rw [I.value_eq_of_beq hsubject, hx] at hb
    rw [Complex.ofReal_injective (Option.some.inj hb)]
    exact hr
  have hplaced : ∀ f ∈ (G.filter (·.subject == x)).map Fact.inPlace, f.relation ≠ .ne →
      ∃ y, f.bound.toEReal? = some y :=
    fun f hf => (hholds f hf).placed
  refine Interval.sign_mono ((Interval.contains_ofFacts hplaced).mpr fun f hf _ => hholds f hf) ?_ hne
  intro v hv
  rw [Interval.contains_ofFacts fun f hf => hplaced f (hsub hf)]
  exact fun f hf => (Interval.contains_ofFacts hplaced).mp hv f (hsub hf)

/-- Where more facts decide and fewer do not, both the facts and the parts are right about the
value. -/
theorem ofExpr_refinedBy (hI : I.RealFunctions) (hFG : F ⊆ G) (hG : ∀ g ∈ G, g.Satisfied I)
    (hp : x.Every (Presumed I)) (hreal : x.Every fun y => ∃ r : ℝ, I.value y = some (r : ℂ)) :
    (ofExpr F x).RefinedBy (ofExpr G x) := by
  induction hreal with
  | @intro x here parts ih =>
      obtain ⟨r, hr⟩ := here
      have hfacts : (ofFacts F x).RefinedBy (ofFacts G x) := ofFacts_refinedBy hFG hG hr
      have hparts : (structural F x).RefinedBy (structural G x) :=
        structural_refinedBy fun c hc => ih c hc (hp.parts c hc)
      have hholds : (ofExpr F x).Holds r :=
        ofExpr_holds_of_presumed hI (fun f hf => hG f (hFG hf)) hp hr
      unfold ofExpr otherwise at hholds ⊢
      by_cases hF : ofFacts F x = .unknown
      · rw [if_pos hF] at hholds ⊢
        by_cases hG0 : ofFacts G x = .unknown
        · rwa [if_pos hG0]
        · rw [if_neg hG0]
          exact hholds.refinedBy (ofFacts_holds I hG hr) hG0
      · rw [if_neg hF, hfacts hF, if_neg hF]
        exact fun _ => rfl

/-- More facts that hold keep every sign that is decided, where all parts of the tree have real
values. -/
theorem fromFacts_mono (hI : I.RealFunctions)
    (hconstants : ∀ name ∈ positiveConstants, ∀ v, I.symbol name = some v → IsPositiveReal v)
    (hFG : F ⊆ G) (hG : ∀ g ∈ G, g.Satisfied I)
    (hnumerals : x.Every fun y => ∀ n, y = .number n → n.Proper)
    (hreal : x.Every fun y => ∃ r : ℝ, I.value y = some (r : ℂ))
    (h : fromFacts x (.stated F) ≠ .unknown) :
    fromFacts x (.stated G) = fromFacts x (.stated F) := by
  have hpresumed : x.Every (Presumed I) :=
    (realArguments_of_real hnumerals hreal).imp fun _ => presumed_of_realArguments hI hconstants
  exact ofExpr_refinedBy hI hFG hG hpresumed hreal h

end Trees

def ofOppositeSigns : Expr Exact := .product [.symbol "a", .symbol "b"]

def oppositeSigns : List (Fact Exact) :=
  [⟨.symbol "a", .lt, .finite 0⟩, ⟨.symbol "b", .gt, .finite 0⟩]

/-- With `a = -1` and `b = 1` the product is negative, and it stays so where a fact about the
product itself holds too. -/
theorem fromFacts_mono_ofOppositeSigns :
    fromFacts ofOppositeSigns (.stated oppositeSigns) = .negative ∧
      fromFacts ofOppositeSigns
        (.stated (⟨ofOppositeSigns, .lt, .finite (-1 / 2)⟩ :: oppositeSigns)) =
        fromFacts ofOppositeSigns (.stated oppositeSigns) := by
  have hsign : fromFacts ofOppositeSigns (.stated oppositeSigns) = .negative := by decide +kernel
  have ha : minusOneAndOne.value (.symbol "a" : Expr Exact) = some ((-1 : ℝ) : ℂ) := by
    rw [value_symbol]
    simp [minusOneAndOne, analytic, nameValue]
  have hb : minusOneAndOne.value (.symbol "b" : Expr Exact) = some ((1 : ℝ) : ℂ) := by
    rw [value_symbol]
    simp [minusOneAndOne, analytic, nameValue]
  have hab : minusOneAndOne.value ofOppositeSigns = some ((-1 : ℝ) : ℂ) := by
    rw [ofOppositeSigns, value_product, product_cons, product_cons, product_nil, ha, hb]
    norm_num
  have hconstants : ∀ name ∈ positiveConstants, ∀ v, minusOneAndOne.symbol name = some v →
      IsPositiveReal v := by
    intro name hmem v hv
    obtain rfl := Option.some.inj hv
    exact isPositiveReal_nameValue (by simp) (by simp) hmem
  have hfacts : ∀ g ∈ (⟨ofOppositeSigns, .lt, .finite (-1 / 2)⟩ :: oppositeSigns : List
      (Fact Exact)), g.Satisfied minusOneAndOne := by
    rw [oppositeSigns, List.forall_mem_cons, List.forall_mem_cons, List.forall_mem_singleton]
    refine ⟨Fact.Holds.satisfied ⟨-1, hab, ?_⟩, Fact.Holds.satisfied ⟨-1, ha, ?_⟩,
      Fact.Holds.satisfied ⟨1, hb, ?_⟩⟩
    · simp only [Relation.HoldsOf, Exact.toEReal?]
      exact_mod_cast (by norm_num : (-1 : ℝ) < (-1 / 2 : ℚ))
    · simp [Relation.HoldsOf, Exact.toEReal?]
    · simp [Relation.HoldsOf, Exact.toEReal?]
  have hnumerals : ofOppositeSigns.Every fun y => ∀ n, y = .number n → n.Proper :=
    .intro (by simp [ofOppositeSigns]) (List.forall_mem_cons.mpr
      ⟨.leaf (by simp) rfl, List.forall_mem_singleton.mpr (.leaf (by simp) rfl)⟩)
  have hreal : ofOppositeSigns.Every fun y => ∃ r : ℝ, minusOneAndOne.value y = some (r : ℂ) :=
    .intro ⟨-1, hab⟩ (List.forall_mem_cons.mpr ⟨.leaf ⟨-1, ha⟩ rfl,
      List.forall_mem_singleton.mpr (.leaf ⟨1, hb⟩ rfl)⟩)
  refine ⟨hsign, fromFacts_mono (analytic_realFunctions _) hconstants (List.subset_cons_self _ _)
    hfacts hnumerals hreal ?_⟩
  rw [hsign]
  decide

end Formulary.Sign
