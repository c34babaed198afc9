import Formulary.Evaluation.SpotCheck
import Formulary.Proofs.Code.Scope
import Mathlib

namespace Formulary.SpotCheck

open Evaluation

variable {ν : Type} [Elementary ν]

def witnesses (ranges : List (String × Range ν)) : Nat → Generator → List (List (String × ν))
  | 0, _ => []
  | n + 1, g => (draw g ranges).1 :: witnesses ranges n (draw g ranges).2

def Agrees (facts : List (Fact ν)) (witness : List (String × ν)) : Prop :=
  ∀ f ∈ facts, ∀ v, finiteValue (bindingsOf witness) f.subject = some v → v.isReal = true →
    f.relation.holds v.re f.bound = true

structure Compared (tolerance : ν) (x y : Expr ν) (witness : List (String × ν)) (a b : Complex ν)
    (close : Bool) : Prop where
  expected : finiteValue (bindingsOf witness) x = some a
  actual : finiteValue (bindingsOf witness) y = some b
  isClose : Complex.isClose tolerance a b = close

/-- Each name that occurs in a tree has one value, constants and inherited names apart. -/
structure Binds (x y : Expr ν) (witness : List (String × ν)) : Prop where
  nodup : (witness.map Prod.fst).Nodup
  names : ∀ n, n ∈ witness.map Prod.fst ↔
    (n ∈ x.symbolOccurrences ∨ n ∈ y.symbolOccurrences) ∧ find? n (constants (ν := ν)) = none ∧
      Table.isInherited n = false

/-- The trees do have these values there, they are not close, and nothing that is assumed excludes
the place. -/
structure Counterexample.Genuine (c : Counterexample ν) (tolerance : ν) (facts : List (Fact ν))
    (x y : Expr ν) : Prop where
  binds : Binds x y c.witness
  agrees : Agrees facts c.witness
  apart : Compared tolerance x y c.witness c.expected c.actual false
  expected_finite : c.expected.isFinite = true
  actual_finite : c.actual.isFinite = true

section Trial

variable (tolerance : ν) (facts : List (Fact ν)) (x y : Expr ν) (witness : List (String × ν))

inductive Verdict : Outcome ν → Prop where
  | excluded (h : ¬Agrees facts witness) : Verdict .excluded
  | skipped (h : Agrees facts witness)
      (hnone : finiteValue (bindingsOf witness) x = none ∨ finiteValue (bindingsOf witness) y = none) :
      Verdict .skipped
  | passed (h : Agrees facts witness) {a b : Complex ν}
      (hclose : Compared tolerance x y witness a b true) : Verdict .passed
  | failed (h : Agrees facts witness) {a b : Complex ν}
      (hapart : Compared tolerance x y witness a b false) : Verdict (.failed ⟨witness, a, b⟩)

theorem refutes_iff (f : Fact ν) : refutes witness f = true ↔
    ∃ v, finiteValue (bindingsOf witness) f.subject = some v ∧ v.isReal = true ∧
    f.relation.holds v.re f.bound = false := by
  unfold refutes
  split
  · next v hv => simp [hv]
  · next hv => simp [hv]

theorem agrees_iff : Agrees facts witness ↔ facts.any (refutes witness) = false := by
  rw [List.any_eq_false]
  refine forall₂_congr fun f _ => ?_
  rw [refutes_iff]
  simp

theorem verdict_trial : Verdict tolerance facts x y witness (trial tolerance facts x y witness) := by
  unfold trial
  split
  · next h => exact .excluded (by simp [agrees_iff, h])
  · next h =>
    have hagrees : Agrees facts witness := (agrees_iff _ _).mpr (Bool.eq_false_iff.mpr h)
    split
    · next a b hx hy =>
      split
      · next hclose => exact .passed hagrees ⟨hx, hy, hclose⟩
      · next hapart => exact .failed hagrees ⟨hx, hy, Bool.eq_false_iff.mpr hapart⟩
    · next hnone =>
      refine .skipped hagrees ?_
      by_contra! hsome
      obtain ⟨a, ha⟩ := Option.ne_none_iff_exists'.mp hsome.1
      obtain ⟨b, hb⟩ := Option.ne_none_iff_exists'.mp hsome.2
      exact hnone a b ha hb

variable {tolerance facts x y witness} {o o' : Outcome ν} {a b c d : Complex ν} {s t : Bool}

theorem Compared.not_none (h : Compared tolerance x y witness a b s) :
    ¬(finiteValue (bindingsOf witness) x = none ∨ finiteValue (bindingsOf witness) y = none) := by
  simp [h.expected, h.actual]

theorem Compared.unique (h : Compared tolerance x y witness a b s)
    (h' : Compared tolerance x y witness c d t) : a = c ∧ b = d ∧ s = t := by
  obtain rfl := Option.some.inj (h.expected.symm.trans h'.expected)
  obtain rfl := Option.some.inj (h.actual.symm.trans h'.actual)
  exact ⟨rfl, rfl, h.isClose.symm.trans h'.isClose⟩

theorem Verdict.unique (h : Verdict tolerance facts x y witness o)
    (h' : Verdict tolerance facts x y witness o') : o = o' := by
  cases h with
  | excluded hnot =>
      cases h' with
      | excluded => rfl
      | skipped h | passed h | failed h => exact absurd h hnot
  | skipped hagrees hnone =>
      cases h' with
      | excluded hnot => exact absurd hagrees hnot
      | skipped => rfl
      | passed _ h | failed _ h => exact absurd hnone h.not_none
  | passed hagrees hclose =>
      cases h' with
      | excluded hnot => exact absurd hagrees hnot
      | skipped _ hnone => exact absurd hnone hclose.not_none
      | passed => rfl
      | failed _ hapart => exact absurd (hclose.unique hapart).2.2 nofun
  | failed hagrees hapart =>
      cases h' with
      | excluded hnot => exact absurd hagrees hnot
      | skipped _ hnone => exact absurd hnone hapart.not_none
      | passed _ hclose => exact absurd (hapart.unique hclose).2.2 nofun
      | failed _ hapart' =>
          obtain ⟨rfl, rfl, -⟩ := hapart.unique hapart'
          rfl

theorem trial_eq_iff :
    trial tolerance facts x y witness = o ↔ Verdict tolerance facts x y witness o := by
  constructor
  · rintro rfl
    exact verdict_trial tolerance facts x y witness
  · exact (verdict_trial tolerance facts x y witness).unique

end Trial

theorem isFinite_of_finiteValue {bindings : Bindings ν} {x : Expr ν} {v : Complex ν}
    (h : finiteValue bindings x = some v) : v.isFinite = true := (Option.filter_eq_some_iff.mp h).2

section Counts

omit [Elementary ν]

variable {r : Report ν} {o : Outcome ν} {os : List (Outcome ν)}

theorem Outcome.isExcluded_iff :
    o.isExcluded = true ↔ o = .excluded := by cases o <;> simp [isExcluded]

theorem Outcome.isSkipped_iff : o.isSkipped = true ↔ o = .skipped := by cases o <;> simp [isSkipped]

theorem Outcome.isPassed_iff : o.isPassed = true ↔ o = .passed := by cases o <;> simp [isPassed]

theorem Outcome.isSome_counterexample? : o.counterexample?.isSome = true ↔ ∃ c, o = .failed c := by
  cases o <;> simp [counterexample?]

theorem Report.classification_inequivalent : r.classification = .inequivalent ↔ 0 < r.failed := by
  unfold classification
  split_ifs with hfailed <;> simp [hfailed]

theorem Report.classification_equivalent :
    r.classification = .equivalent ↔ r.failed = 0 ∧ 0 < r.passed := by
  unfold classification
  split_ifs with hfailed hpassed <;> simp_all [Nat.pos_iff_ne_zero]

theorem Report.classification_indeterminate :
    r.classification = .indeterminate ↔ r.failed = 0 ∧ r.passed = 0 := by
  unfold classification
  split_ifs with hfailed hpassed <;> simp_all [Nat.pos_iff_ne_zero]

theorem Report.total_ofOutcomes :
    (ofOutcomes os).passed + (ofOutcomes os).failed + (ofOutcomes os).skipped +
      (ofOutcomes os).excluded = os.length := by
  induction os with
  | nil => rfl
  | cons o os ih =>
      simp only [ofOutcomes] at ih
      -- one counter goes up by one with the head, whichever it is
      cases o <;>
        simp +arith [ofOutcomes, List.countP_cons, List.filterMap_cons, Outcome.isPassed,
          Outcome.isSkipped, Outcome.isExcluded, Outcome.counterexample?, ← ih]

theorem Report.mem_counterexamples {c : Counterexample ν}
    (h : c ∈ (ofOutcomes os).counterexamples) : .failed c ∈ os := by
  obtain ⟨o, ho, hc⟩ := List.mem_filterMap.mp (List.mem_of_mem_take h)
  cases o with
  | failed c' => exact Option.some.inj hc ▸ ho
  | excluded | skipped | passed => cases hc

end Counts

section Stream

variable {ranges : List (String × Range ν)} {n : Nat} {g : Generator} {witness : List (String × ν)}

theorem map_fst_draw : (draw g ranges).1.map Prod.fst = ranges.map Prod.fst := by
  induction ranges generalizing g with
  | nil => rfl
  | cons r rest ih => exact congrArg (r.1 :: ·) ih

theorem length_witnesses : (witnesses ranges n g).length = n := by
  induction n generalizing g with
  | zero => rfl
  | succ n ih => exact congrArg Nat.succ ih

theorem map_fst_of_mem_witnesses (h : witness ∈ witnesses ranges n g) :
    witness.map Prod.fst = ranges.map Prod.fst := by
  induction n generalizing g with
  | zero => cases h
  | succ n ih =>
      cases h with
      | head => exact map_fst_draw
      | tail _ h => exact ih h

/-- Every trial is made at the values that are drawn for it. -/
theorem outcomes_eq_map (test : List (String × ν) → Outcome ν) :
    outcomes test ranges n g = (witnesses ranges n g).map test := by
  induction n generalizing g with
  | zero => rfl
  | succ n ih => exact congrArg (test (draw g ranges).1 :: ·) ih

end Stream

section Run

variable (x y : Expr ν) (assumptions : Assumptions ν) (options : Options ν)

theorem contains_constantNames (name : String) :
    constantNames.contains name = false ↔ find? name (constants (ν := ν)) = none := by
  have hnames : (constants (ν := ν)).map Prod.fst = constantNames := rfl
  rw [find?, Option.map_eq_none_iff, List.find?_eq_none, ← hnames, Bool.eq_false_iff, ne_eq,
    List.contains_iff_mem, List.mem_map]
  constructor
  · intro h p hp heq
    exact h ⟨p, hp, beq_iff_eq.mp heq⟩
  · rintro h ⟨p, hp, rfl⟩
    exact h p hp (beq_self_eq_true _)

omit [Elementary ν] in
theorem nodup_names : (names x y).Nodup := (Identifier.Scope.nodup_eraseDups _).filter _

theorem mem_names (name : String) :
    name ∈ names x y ↔ (name ∈ x.symbolOccurrences ∨ name ∈ y.symbolOccurrences) ∧
      find? name (constants (ν := ν)) = none ∧ Table.isInherited name = false := by
  rw [← contains_constantNames, names, List.mem_filter, List.mem_eraseDups, List.mem_append,
    Expr.symbols, Expr.symbols, List.mem_eraseDups, List.mem_eraseDups, Bool.not_eq_true', isGiven,
    Bool.or_eq_false_iff]

def drawn : List (List (String × ν)) :=
  witnesses ((names x y).map fun n => (n, Range.ofFacts n assumptions.facts)) options.trials
    (.ofSeed options.seed)

theorem length_drawn : (drawn x y assumptions options).length = options.trials := length_witnesses

theorem binds_of_mem_drawn {witness : List (String × ν)}
    (h : witness ∈ drawn x y assumptions options) : Binds x y witness := by
  have hnames : witness.map Prod.fst = names x y := by
    rw [map_fst_of_mem_witnesses h, List.map_map]
    exact List.map_id _
  constructor
  · rw [hnames]
    exact nodup_names x y
  · intro n
    rw [hnames, mem_names]

theorem run_eq :
    run x y assumptions options = .ofOutcomes ((drawn x y assumptions options).map
      (trial options.tolerance assumptions.facts x y)) :=
  congrArg Report.ofOutcomes (outcomes_eq_map _)

open scoped Classical in
/-- Each counter is the number of the trials whose verdict is what it counts. -/
theorem run_counts :
    let r := run x y assumptions options
    let verdict (w : List (String × ν)) : Outcome ν → Prop :=
      Verdict options.tolerance assumptions.facts x y w
    r.excluded = (drawn x y assumptions options).countP (fun w => verdict w .excluded) ∧
    r.skipped = (drawn x y assumptions options).countP (fun w => verdict w .skipped) ∧
    r.passed = (drawn x y assumptions options).countP (fun w => verdict w .passed) ∧
    r.failed = (drawn x y assumptions options).countP (fun w => ∃ c, verdict w (.failed c)) := by
  intro r verdict
  have hr : r = .ofOutcomes
      ((drawn x y assumptions options).map (trial options.tolerance assumptions.facts x y)) :=
    run_eq x y assumptions options
  simp only [hr, verdict, Report.ofOutcomes, List.countP_map, List.length_filterMap_eq_countP,
    ← trial_eq_iff]
  refine ⟨?_, ?_, ?_, ?_⟩ <;> refine List.countP_congr fun w _ => ?_
  · exact Outcome.isExcluded_iff.trans decide_eq_true_iff.symm
  · exact Outcome.isSkipped_iff.trans decide_eq_true_iff.symm
  · exact Outcome.isPassed_iff.trans decide_eq_true_iff.symm
  · exact Outcome.isSome_counterexample?.trans decide_eq_true_iff.symm

/-- The counters add up, the classification is read off them, and as many counterexamples are listed
as there may be, all of them genuine. -/
structure Report.Consistent (r : Report ν) (x y : Expr ν) (facts : List (Fact ν))
    (options : Options ν) : Prop where
  total : r.passed + r.failed + r.skipped + r.excluded = options.trials
  decided : r.decided = r.passed + r.failed
  inequivalent : r.classification = .inequivalent ↔ 0 < r.failed
  equivalent : r.classification = .equivalent ↔ r.failed = 0 ∧ 0 < r.passed
  indeterminate : r.classification = .indeterminate ↔ r.failed = 0 ∧ r.passed = 0
  listed : r.counterexamples.length = min 5 r.failed
  genuine : ∀ c ∈ r.counterexamples, c.Genuine options.tolerance facts x y

theorem run_consistent : (run x y assumptions options).Consistent x y assumptions.facts options := by
  rw [run_eq]
  refine ⟨?_, rfl, Report.classification_inequivalent, Report.classification_equivalent,
    Report.classification_indeterminate, List.length_take, ?_⟩
  · rw [Report.total_ofOutcomes, List.length_map, length_drawn]
  · intro c hc
    obtain ⟨w, hw, hfailed⟩ := List.mem_map.mp (Report.mem_counterexamples hc)
    cases trial_eq_iff.mp hfailed with
    | failed hagrees hapart =>
        exact ⟨binds_of_mem_drawn x y assumptions options hw, hagrees, hapart,
          isFinite_of_finiteValue hapart.expected, isFinite_of_finiteValue hapart.actual⟩

end Run

end Formulary.SpotCheck
