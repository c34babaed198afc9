import Formulary.Diagnostic.Basic
import Formulary.Radical.Basic
import Formulary.Sign

namespace Formulary

inductive OddNegatives where
  | preserve
  | decline
deriving DecidableEq, Repr

structure RadicalOptions (ν : Type) where
  signRule : SignRule ν
  oddNegatives : OddNegatives

structure Pass (ν α : Type) where
  result : α
  changed : Bool
  diagnostics : List (Diagnostic ν)

variable {ν α β : Type}

namespace Pass

def same (x : α) : Pass ν α := ⟨x, false, []⟩

def bind (p : Pass ν α) (f : α → Pass ν β) : Pass ν β :=
  let q := f p.result
  ⟨q.result, p.changed || q.changed, p.diagnostics ++ q.diagnostics⟩

instance : Monad (Pass ν) where
  pure := same
  bind := bind

@[simp] theorem result_pure {α : Type} (x : α) : (pure x : Pass ν α).result = x := rfl

@[simp] theorem changed_pure {α : Type} (x : α) : (pure x : Pass ν α).changed = false := rfl

@[simp] theorem result_bind {α β : Type} (p : Pass ν α) (f : α → Pass ν β) :
    (p >>= f).result = (f p.result).result := rfl

@[simp] theorem changed_bind {α β : Type} (p : Pass ν α) (f : α → Pass ν β) :
    (p >>= f).changed = (p.changed || (f p.result).changed) := rfl

@[simp] theorem diagnostics_pure {α : Type} (x : α) : (pure x : Pass ν α).diagnostics = [] := rfl

@[simp] theorem diagnostics_bind {α β : Type} (p : Pass ν α) (f : α → Pass ν β) :
    (p >>= f).diagnostics = p.diagnostics ++ (f p.result).diagnostics := rfl

end Pass

variable [Number ν]

def RadicalOptions.defaults : RadicalOptions ν := ⟨Sign.fromFacts, .preserve⟩

namespace Radical

def basesWith (sign : Sign) (signs : Expr ν → Sign) (rs : List (Radical ν)) : List (Expr ν) :=
  ((rs.filter fun r => signs r.base == sign).map base).eraseDups

def quarterTurns (signs : Expr ν → Sign) (rs : List (Radical ν)) : ν :=
  turnsOf (rs.filter fun r => signs r.base == .negative)

def obstacles (policy : OddNegatives) (signs : Expr ν → Sign) (rs : List (Radical ν)) :
    List (Diagnostic ν) :=
  let unknown := basesWith .unknown signs rs
  if !unknown.isEmpty then [.unknownSigns unknown, .suggestAssumptions unknown]
  else if policy == .decline && Number.isOdd (quarterTurns signs rs) then
    [.oddNegativeBases (basesWith .negative signs rs)]
  else []

theorem basesWith_eq_nil_iff {sign : Sign} {signs : Expr ν → Sign} {rs : List (Radical ν)} :
    basesWith sign signs rs = [] ↔ ∀ r ∈ rs, signs r.base ≠ sign := by
  have hempty (es : List (Expr ν)) : es.eraseDups = [] ↔ es = [] := by
    cases es <;> simp [List.eraseDups_cons]
  rw [basesWith, hempty, List.map_eq_nil_iff, List.filter_eq_nil_iff]
  simp only [beq_iff_eq, ne_eq]

/-- Unknown signs stand in the way first, then a rest of a quarter turn where that is declined. -/
theorem obstacles_eq (policy : OddNegatives) (signs : Expr ν → Sign) (rs : List (Radical ν)) :
    obstacles policy signs rs =
      if ∃ r ∈ rs, signs r.base = .unknown then
        [.unknownSigns (basesWith .unknown signs rs),
          .suggestAssumptions (basesWith .unknown signs rs)]
      else if policy = .decline ∧ Number.isOdd (quarterTurns signs rs) = true then
        [.oddNegativeBases (basesWith .negative signs rs)]
      else [] := by
  have hunknown : (!(basesWith .unknown signs rs).isEmpty) = true ↔
      ∃ r ∈ rs, signs r.base = .unknown := by
    rw [Bool.not_eq_true', Bool.eq_false_iff, ne_eq, List.isEmpty_iff, basesWith_eq_nil_iff]
    simp
  simp only [obstacles, hunknown, Bool.and_eq_true, beq_iff_eq]

end Radical

def Lifted.combined (l : Lifted ν) : Expr ν := .mul (l.others ++ [Radical.root l.radicals])

namespace Pass

variable (options : RadicalOptions ν) (assumptions : Assumptions ν)

def combineFactors (factors : List (Expr ν)) : Pass ν (Expr ν) :=
  let l := Lifted.ofExprs factors
  if l.radicals.length < 2 then same (.product factors)
  else
    match assumptions with
    | .unstated => ⟨l.combined.signed l.negated, true, []⟩
    | .stated _ =>
      let signs (x : Expr ν) := options.signRule x assumptions
      match Radical.obstacles options.oddNegatives signs l.radicals with
      | [] =>
        ⟨l.combined.signed
          (l.negated ^^ Radical.halfTurnsOdd (Radical.quarterTurns signs l.radicals)), true, []⟩
      | reasons => ⟨.product factors, false, reasons⟩

/-- The product of the factors after a pass over them. It is flattened only if one of them has
changed. -/
def flattened (p : Pass ν (List (Expr ν))) : Expr ν :=
  if p.changed then .mul p.result else .product p.result

def ofFactors (p : Pass ν (List (Expr ν))) : Pass ν (Expr ν) :=
  p.bind fun _ =>
    match flattened p with
    | .product fs => combineFactors options assumptions fs
    | x => same x

mutual

def ofExpr : Expr ν → Pass ν (Expr ν)
  | .number n => same (.number n)
  | .symbol s => same (.symbol s)
  | .pattern s h => same (.pattern s h)
  | .sum ts => do return .sum (← ofExprs ts)
  | .product fs => ofFactors options assumptions (ofExprs fs)
  | .power b e => do return .power (← ofExpr b) (← ofExpr e)
  | .call h args => do return .call h (← ofExprs args)
  | .negation x => do return .negation (← ofExpr x)
  | .list items => do return .list (← ofExprs items)

def ofExprs : List (Expr ν) → Pass ν (List (Expr ν))
  | [] => same []
  | x :: xs => do return (← ofExpr x) :: (← ofExprs xs)

end

end Pass

structure Combined (ν : Type) where
  result : Expr ν
  diagnostics : List (Diagnostic ν)
  passes : Nat

namespace Combined

variable (options : RadicalOptions ν) (assumptions : Assumptions ν)

def settle : Nat → Expr ν → Combined ν
  | 0, x =>
    let p := Pass.ofExpr options assumptions x
    ⟨p.result, p.diagnostics, 1⟩
  | limit + 1, x =>
    let p := Pass.ofExpr options assumptions x
    if p.changed then
      let c := settle limit p.result
      ⟨c.result, c.diagnostics, c.passes + 1⟩
    else ⟨p.result, p.diagnostics, 1⟩

/-- Every pass that changes something takes a radical away, so that the size of the tree is limit
enough. -/
def ofExpr (x : Expr ν) : Combined ν := settle options assumptions x.size x

end Combined

end Formulary
