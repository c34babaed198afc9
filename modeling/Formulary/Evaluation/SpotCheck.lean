import Formulary.Evaluation.Basic
import Formulary.Evaluation.Sample

namespace Formulary.SpotCheck

structure Counterexample (ν : Type) where
  witness : List (String × ν)
  expected : Complex ν
  actual : Complex ν

/-- What comes of a trial. It is excluded when the sampled values refute an assumption, and skipped
when a tree has no value. -/
inductive Outcome (ν : Type) where
  | excluded
  | skipped
  | passed
  | failed (counterexample : Counterexample ν)

inductive Classification where
  | equivalent
  | inequivalent
  | indeterminate
deriving DecidableEq, Repr

def Classification.name : Classification → String
  | .equivalent => "equivalent"
  | .inequivalent => "inequivalent"
  | .indeterminate => "indeterminate"

structure Options (ν : Type) where
  trials : Nat
  tolerance : ν
  seed : ν

structure Report (ν : Type) where
  passed : Nat
  failed : Nat
  skipped : Nat
  excluded : Nat
  counterexamples : List (Counterexample ν)

namespace Report

variable {ν : Type}

def decided (r : Report ν) : Nat := r.passed + r.failed

def classification (r : Report ν) : Classification :=
  if 0 < r.failed then .inequivalent else if 0 < r.passed then .equivalent else .indeterminate

end Report

namespace Outcome

variable {ν : Type}

def isPassed : Outcome ν → Bool
  | .passed => true
  | _ => false

def isSkipped : Outcome ν → Bool
  | .skipped => true
  | _ => false

def isExcluded : Outcome ν → Bool
  | .excluded => true
  | _ => false

def counterexample? : Outcome ν → Option (Counterexample ν)
  | .failed c => some c
  | _ => none

end Outcome

def listed : Nat := 5

def Report.ofOutcomes {ν : Type} (os : List (Outcome ν)) : Report ν where
  passed := os.countP Outcome.isPassed
  failed := (os.filterMap Outcome.counterexample?).length
  skipped := os.countP Outcome.isSkipped
  excluded := os.countP Outcome.isExcluded
  counterexamples := (os.filterMap Outcome.counterexample?).take listed

variable {ν : Type} [Elementary ν]

def Options.defaults : Options ν := ⟨200, Number.ofDecimal ⟨1, -9⟩, Number.ofInt 0x5eed⟩

def names (x y : Expr ν) : List String :=
  (x.symbols ++ y.symbols).eraseDups.filter fun n => !Evaluation.isGiven n

def draw (g : Generator) : List (String × Range ν) → List (String × ν) × Generator
  | [] => ([], g)
  | (name, r) :: rest =>
    let (x, g) := r.sample g
    let (witness, g) := draw g rest
    ((name, x) :: witness, g)

def bindingsOf (witness : List (String × ν)) : Bindings ν := witness.map fun p => (p.1, .ofReal p.2)

/-- A fact is refuted where its subject has a real value out of the relation. -/
def refutes (witness : List (String × ν)) (f : Fact ν) : Bool :=
  match Evaluation.finiteValue (bindingsOf witness) f.subject with
  | some v => v.isReal && !f.relation.holds v.re f.bound
  | none => false

def trial (tolerance : ν) (facts : List (Fact ν)) (x y : Expr ν) (witness : List (String × ν)) :
    Outcome ν :=
  if facts.any (refutes witness) then .excluded
  else
    match Evaluation.finiteValue (bindingsOf witness) x,
        Evaluation.finiteValue (bindingsOf witness) y with
    | some expected, some actual =>
      if Complex.isClose tolerance expected actual then .passed
        else .failed ⟨witness, expected, actual⟩
    | _, _ => .skipped

def outcomes (test : List (String × ν) → Outcome ν) (ranges : List (String × Range ν)) :
    Nat → Generator → List (Outcome ν)
  | 0, _ => []
  | n + 1, g =>
    let (witness, g) := draw g ranges
    test witness :: outcomes test ranges n g

def run (x y : Expr ν) (assumptions : Assumptions ν) (options : Options ν) : Report ν :=
  let ranges := (names x y).map fun n => (n, Range.ofFacts n assumptions.facts)
  .ofOutcomes (outcomes (trial options.tolerance assumptions.facts x y) ranges options.trials
    (.ofSeed options.seed))

end Formulary.SpotCheck
