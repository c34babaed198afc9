import Formulary.Proofs.Radical.Merging
import Formulary.Proofs.Radical.Settling

namespace Formulary

variable {ν : Type}

namespace Expr

mutual

def postorder : Expr ν → List (Expr ν)
  | .number n => [.number n]
  | .symbol s => [.symbol s]
  | .pattern s h => [.pattern s h]
  | .sum ts => postorderAll ts ++ [.sum ts]
  | .product fs => postorderAll fs ++ [.product fs]
  | .power b e => postorder b ++ postorder e ++ [.power b e]
  | .call h args => postorderAll args ++ [.call h args]
  | .negation x => postorder x ++ [.negation x]
  | .list items => postorderAll items ++ [.list items]

def postorderAll : List (Expr ν) → List (Expr ν)
  | [] => []
  | x :: xs => postorder x ++ postorderAll xs

end

theorem mem_postorder_self (x : Expr ν) : x ∈ x.postorder := by
  cases x <;> simp [postorder]

variable [Number ν]

/-- The half-integer powers among the factors of a product, nested products and signs taken off. -/
def liftedRadicals : Expr ν → List (Radical ν)
  | .product fs => (Lifted.ofExprs fs).radicals
  | _ => []

end Expr

variable [Number ν]

namespace Combined

/-- Nothing can be done about the tree itself. Where no signs are asked for that is a product with
fewer than two radicals; else there may be more if the sign of a base is unknown, or if all are
known and the negative bases leave a quarter turn that is declined. -/
def Exhausted (options : RadicalOptions ν) (assumptions : Assumptions ν) (x : Expr ν) : Prop :=
  match assumptions with
  | .unstated => x.liftedRadicals.length < 2
  | .stated _ =>
    2 ≤ x.liftedRadicals.length →
      (∃ r ∈ x.liftedRadicals, options.signRule r.base assumptions = .unknown) ∨
        (∀ r ∈ x.liftedRadicals, options.signRule r.base assumptions ≠ .unknown) ∧
          options.oddNegatives = .decline ∧
          Number.isOdd (Radical.turnsOf (x.liftedRadicals.filter fun r =>
            options.signRule r.base assumptions == .negative)) = true

def basesLeft (options : RadicalOptions ν) (assumptions : Assumptions ν) (sign : Sign)
    (x : Expr ν) : List (Expr ν) :=
  ((x.liftedRadicals.filter fun r => options.signRule r.base assumptions == sign).map
    Radical.base).eraseDups

def remarks (options : RadicalOptions ν) (assumptions : Assumptions ν) (x : Expr ν) :
    List (Diagnostic ν) :=
  match assumptions with
  | .unstated => []
  | .stated _ =>
    if x.liftedRadicals.length < 2 then []
    else if ∃ r ∈ x.liftedRadicals, options.signRule r.base assumptions = .unknown then
      [.unknownSigns (basesLeft options assumptions .unknown x),
        .suggestAssumptions (basesLeft options assumptions .unknown x)]
    else [.oddNegativeBases (basesLeft options assumptions .negative x)]

end Combined

namespace Pass

open Combined

variable (options : RadicalOptions ν) (assumptions : Assumptions ν)

structure Finds (ds : List (Diagnostic ν)) (xs : List (Expr ν)) : Prop where
  exhausted : ∀ x ∈ xs, Exhausted options assumptions x
  diagnostics : ds = xs.flatMap (remarks options assumptions)

variable {options assumptions}

theorem Finds.nil : Finds options assumptions [] [] := by
  refine ⟨?_, rfl⟩
  rintro x ⟨⟩

theorem Finds.append {ds es : List (Diagnostic ν)} {xs ys : List (Expr ν)}
    (hx : Finds options assumptions ds xs) (hy : Finds options assumptions es ys) :
    Finds options assumptions (ds ++ es) (xs ++ ys) := by
  refine ⟨?_, ?_⟩
  · intro x hmem
    exact (List.mem_append.mp hmem).elim (hx.exhausted x) (hy.exhausted x)
  · rw [List.flatMap_append, hx.diagnostics, hy.diagnostics]

/-- Of a tree with no radicals of its own nothing is said. -/
theorem finds_of_liftedRadicals_eq_nil {x : Expr ν} (h : x.liftedRadicals = []) :
    Finds options assumptions [] [x] := by
  cases assumptions <;> constructor <;> simp [Exhausted, remarks, h]

theorem Finds.snoc {ds : List (Diagnostic ν)} {xs : List (Expr ν)} {x : Expr ν}
    (hxs : Finds options assumptions ds xs) (h : x.liftedRadicals = []) :
    Finds options assumptions ds (xs ++ [x]) := by
  have happend := hxs.append (finds_of_liftedRadicals_eq_nil h)
  rwa [List.append_nil] at happend

/-- A product that a pass leaves alone is exhausted. -/
theorem finds_combineFactors {fs : List (Expr ν)}
    (h : (combineFactors options assumptions fs).changed = false) :
    Finds options assumptions (combineFactors options assumptions fs).diagnostics [.product fs] := by
  have hradicals : (Expr.product fs).liftedRadicals = (Lifted.ofExprs fs).radicals := rfl
  simp only [combineFactors, ← hradicals] at h ⊢
  by_cases hfew : (Expr.product fs).liftedRadicals.length < 2
  · rw [if_pos hfew]
    cases assumptions with
    | unstated => exact ⟨List.forall_mem_singleton.mpr hfew, rfl⟩
    | stated facts =>
        refine ⟨List.forall_mem_singleton.mpr fun hmany => absurd hmany (Nat.not_le.mpr hfew), ?_⟩
        rw [List.flatMap_singleton, remarks, if_pos hfew]
        rfl
  · rw [if_neg hfew] at h ⊢
    cases assumptions with
    | unstated => cases h
    | stated facts =>
        simp only [Radical.obstacles_eq] at h ⊢
        by_cases hunknown : ∃ r ∈ (Expr.product fs).liftedRadicals,
          options.signRule r.base (.stated facts) = .unknown
        · rw [if_pos hunknown]
          refine ⟨List.forall_mem_singleton.mpr fun _ => .inl hunknown, ?_⟩
          rw [List.flatMap_singleton, remarks, if_neg hfew, if_pos hunknown]
          rfl
        · rw [if_neg hunknown] at h ⊢
          by_cases hodd : options.oddNegatives = .decline ∧ Number.isOdd
              (Radical.quarterTurns (fun x => options.signRule x (.stated facts))
                (Expr.product fs).liftedRadicals) = true
          · rw [if_pos hodd]
            have hknown : ∀ r ∈ (Expr.product fs).liftedRadicals,
                options.signRule r.base (.stated facts) ≠ .unknown :=
              fun r hr hu => hunknown ⟨r, hr, hu⟩
            refine ⟨List.forall_mem_singleton.mpr fun _ => .inr ⟨hknown, hodd⟩, ?_⟩
            rw [List.flatMap_singleton, remarks, if_neg hfew, if_neg hunknown]
            rfl
          · rw [if_neg hodd] at h
            cases h

theorem ofFactors_of_unchanged {p : Pass ν (List (Expr ν))} (h : p.changed = false) :
    ofFactors options assumptions p = p.bind (combineFactors options assumptions) := by
  simp only [ofFactors, flattened, Pass.bind, h, Bool.false_eq_true, if_false]

theorem changed_of_ofFactors {p : Pass ν (List (Expr ν))}
    (h : (ofFactors options assumptions p).changed = false) : p.changed = false := by
  simp only [ofFactors, Pass.bind, Bool.or_eq_false_iff] at h
  exact h.1

variable (options assumptions)

theorem finds_ofExprs {xs : List (Expr ν)}
    (ih : ∀ x ∈ xs, (ofExpr options assumptions x).changed = false →
      Finds options assumptions (ofExpr options assumptions x).diagnostics x.postorder)
    (h : (ofExprs options assumptions xs).changed = false) :
    Finds options assumptions (ofExprs options assumptions xs).diagnostics
      (Expr.postorderAll xs) := by
  induction xs with
  | nil => exact .nil
  | cons x xs ihs =>
      rw [ofExprs] at h ⊢
      simp only [changed_bind, changed_pure, Bool.or_false, Bool.or_eq_false_iff] at h
      simp only [diagnostics_bind, diagnostics_pure, List.append_nil]
      exact (ih x List.mem_cons_self h.1).append
        (ihs (fun y hy => ih y (List.mem_cons_of_mem _ hy)) h.2)

variable [DistinctNumber ν]

theorem finds_ofExpr (x : Expr ν) (h : (ofExpr options assumptions x).changed = false) :
    Finds options assumptions (ofExpr options assumptions x).diagnostics x.postorder := by
  induction x with
  | number | symbol | pattern => exact finds_of_liftedRadicals_eq_nil rfl
  | sum xs ih | call _ xs ih | list xs ih =>
      rw [ofExpr] at h ⊢
      simp only [changed_bind, changed_pure, Bool.or_false] at h
      simp only [diagnostics_bind, diagnostics_pure, List.append_nil]
      exact (finds_ofExprs options assumptions ih h).snoc rfl
  | negation y ih =>
      rw [ofExpr] at h ⊢
      simp only [changed_bind, changed_pure, Bool.or_false] at h
      simp only [diagnostics_bind, diagnostics_pure, List.append_nil]
      exact (ih h).snoc rfl
  | power b e ihb ihe =>
      rw [ofExpr] at h ⊢
      simp only [changed_bind, changed_pure, Bool.or_false, Bool.or_eq_false_iff] at h
      simp only [diagnostics_bind, diagnostics_pure, List.append_nil]
      exact ((ihb h.1).append (ihe h.2)).snoc rfl
  | product fs ih =>
      rw [ofExpr] at h ⊢
      have hparts := changed_of_ofFactors h
      have hsame := (shrinks_ofExprs options assumptions fs fun y _ =>
        shrinks_ofExpr options assumptions y).result_eq hparts
      rw [ofFactors_of_unchanged hparts] at h ⊢
      simp only [Pass.bind, hsame, hparts, Bool.false_or] at h ⊢
      exact (finds_ofExprs options assumptions ih hparts).append (finds_combineFactors h)

end Pass

namespace Combined

variable [DistinctNumber ν] (options : RadicalOptions ν) (assumptions : Assumptions ν)

/-- Nothing is left to combine: every part of the result is exhausted, the diagnostics are what is
said of the parts, each after the parts in it, and where all signs are known the exact sum of the
turns of the negative bases is odd. -/
theorem ofExpr_exhausted [RationalNumber ν] [SummingNumber ν] (x : Expr ν) :
    (∀ y ∈ (ofExpr options assumptions x).result.postorder, Exhausted options assumptions y) ∧
      (ofExpr options assumptions x).diagnostics =
        (ofExpr options assumptions x).result.postorder.flatMap (remarks options assumptions) ∧
      ∀ facts, assumptions = .stated facts → ∀ y ∈ (ofExpr options assumptions x).result.postorder,
        2 ≤ y.liftedRadicals.length →
          (∀ r ∈ y.liftedRadicals, options.signRule r.base assumptions ≠ .unknown) →
          let negatives := y.liftedRadicals.filter fun r =>
            options.signRule r.base assumptions == .negative
          ∀ (qs : List ℚ) (n : ℤ), Number.SumsExactly (negatives.map Radical.turns) qs →
              qs.sum = n → Odd n := by
  have hlast := (ofExpr_rests options assumptions x).1.last_result
  have hfinds := Pass.finds_ofExpr options assumptions (ofExpr options assumptions x).result
    (by rw [hlast])
  rw [hlast] at hfinds
  refine ⟨hfinds.exhausted, hfinds.diagnostics, ?_⟩
  rintro facts rfl y hy hmany hknown negatives qs n hqs hn
  obtain ⟨r, hr, hu⟩ | ⟨-, -, hodd⟩ := hfinds.exhausted y hy hmany
  · exact absurd hu (hknown r hr)
  · exact (Radical.isOdd_turnsOf hqs hn).mp hodd

def rootsOfSomeSign : Expr Float := .product [.sqrt (.symbol "a"), .sqrt (.symbol "b")]

/-- The product is left, since the sign of `b` is unknown, and both diagnostics are about `b`
alone. -/
theorem ofExpr_exhausted_rootsOfSomeSign :
    let facts : Assumptions Float := .stated [⟨.symbol "a", .gt, .ofInt 0⟩]
    let c := ofExpr .defaults facts rootsOfSomeSign
    Exhausted .defaults facts c.result ∧ c.result.liftedRadicals.length = 2 ∧
      c.diagnostics = c.result.postorder.flatMap (remarks .defaults facts) ∧
      c.diagnostics.map Diagnostic.message =
        ["Variables with unknown signs: \x7bb\x7d. Cannot combine square roots safely without knowing their signs.",
          "Try adding assumptions like: b > 0"] := by
  intro facts c
  obtain ⟨hexhausted, hdiagnostics, -⟩ := ofExpr_exhausted .defaults facts rootsOfSomeSign
  exact ⟨hexhausted _ (Expr.mem_postorder_self _), by decide +kernel, hdiagnostics, by decide +kernel⟩

/-- Turns that add up to two, in such an order that doubles lose one of them. -/
def evenTurns : Expr Float :=
  .product [.power (.symbol "x") (.number ⟨9007199254740991, 2⟩),
    .power (.symbol "x") (.number ⟨1, 2⟩), .power (.symbol "x") (.number ⟨1, 2⟩),
    .power (.symbol "x") (.number ⟨-9007199254740991, 2⟩)]

/-- The product is left as if it made an odd number of quarter turns. -/
theorem ofExpr_leaves_evenTurns :
    let options : RadicalOptions Float := ⟨Sign.fromFacts, .decline⟩
    let assumptions : Assumptions Float := .stated [⟨.symbol "x", .lt, 0⟩]
    ∃ y ∈ (ofExpr options assumptions evenTurns).result.postorder, 2 ≤ y.liftedRadicals.length ∧
      (∀ r ∈ y.liftedRadicals, options.signRule r.base assumptions = .negative) ∧
      ∃ qs : List ℚ, List.Forall₂ (fun t q => Number.toRat? t = some q)
        (y.liftedRadicals.map Radical.turns) qs ∧ qs.sum = 2 := by
  intro options assumptions
  have hleft : (Pass.ofExpr options assumptions evenTurns).changed = false := by decide +kernel
  have hresult : (ofExpr options assumptions evenTurns).result = evenTurns := by
    rw [ofExpr_of_unchanged options assumptions hleft]
  have hradicals : evenTurns.liftedRadicals = [⟨.symbol "x", 9007199254740991⟩, ⟨.symbol "x", 1⟩,
    ⟨.symbol "x", 1⟩, ⟨.symbol "x", -9007199254740991⟩] := by rfl
  have hsign : options.signRule (.symbol "x") assumptions = .negative := by decide +kernel
  have hmany : Number.toRat? (9007199254740991 : Float) = some 9007199254740991 :=
    Double.toRat?_ofNat (by norm_num)
  have hfewer : Number.toRat? (-9007199254740991 : Float) = some (-9007199254740991) :=
    Double.toRat?_neg_ofNat (by norm_num)
  have hone : Number.toRat? (1 : Float) = some 1 := RationalNumber.toRat?_one
  rw [hresult]
  refine ⟨evenTurns, Expr.mem_postorder_self evenTurns, ?_, ?_,
    [9007199254740991, 1, 1, -9007199254740991], ?_, by norm_num⟩
  · rw [hradicals]
    decide
  · rw [hradicals]
    intro r hr
    have hbase : r.base = .symbol "x" := by
      simp only [List.mem_cons, List.not_mem_nil, or_false] at hr
      rcases hr with rfl | rfl | rfl | rfl <;> rfl
    rw [hbase, hsign]
  · rw [hradicals]
    exact .cons hmany (.cons hone (.cons hone (.cons hfewer .nil)))

end Combined

end Formulary
