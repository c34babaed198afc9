import Formulary.Expr.Build

namespace Formulary

/-- The power of `base` with the exponent `turns / 2`. -/
structure Radical (ν : Type) where
  base : Expr ν
  turns : ν

/-- Factors without products and negations, and whether an odd number of negations was lifted off
them. -/
structure Lifted (ν : Type) where
  negated : Bool
  factors : List (Expr ν)

variable {ν : Type}

namespace Lifted

def flip (l : Lifted ν) : Lifted ν := ⟨!l.negated, l.factors⟩

def append (l r : Lifted ν) : Lifted ν := ⟨l.negated ^^ r.negated, l.factors ++ r.factors⟩

mutual

def ofExpr : Expr ν → Lifted ν
  | .negation x => (ofExpr x).flip
  | .product fs => ofExprs fs
  | .number n => ⟨false, [.number n]⟩
  | .symbol s => ⟨false, [.symbol s]⟩
  | .sum ts => ⟨false, [.sum ts]⟩
  | .power b e => ⟨false, [.power b e]⟩
  | .call h args => ⟨false, [.call h args]⟩
  | .list items => ⟨false, [.list items]⟩
  | .pattern s h => ⟨false, [.pattern s h]⟩

def ofExprs : List (Expr ν) → Lifted ν
  | [] => ⟨false, []⟩
  | x :: xs => (ofExpr x).append (ofExprs xs)

end

end Lifted

variable [Number ν]

open Number

namespace Radical

def ofExpr? : Expr ν → Option (Radical ν)
  | .power b (.number n) => if n.isHalfInteger then some ⟨b, n.numerator⟩ else none
  | _ => none

def merge : List (Radical ν) → Radical ν → List (Radical ν)
  | [], r => [r]
  | m :: ms, r => if m.base == r.base then ⟨m.base, m.turns + r.turns⟩ :: ms else m :: merge ms r

def mergeAll (rs : List (Radical ν)) : List (Radical ν) := rs.foldl merge []

def squared (r : Radical ν) : Expr ν :=
  if r.turns == one then r.base else .power r.base (.ofNumber r.turns)

def radicand (rs : List (Radical ν)) : Expr ν :=
  .mul (((mergeAll rs).filter fun r => !isZero r.turns).map squared)

def root (rs : List (Radical ν)) : Expr ν :=
  if (radicand rs).isOne then radicand rs else .sqrt (radicand rs)

def turnsOf (rs : List (Radical ν)) : ν := rs.foldl (fun sum r => sum + r.turns) zero

/-- Whether the half turns in a number of quarter turns, rounded down, are odd. -/
def halfTurnsOdd (turns : ν) : Bool :=
  match toInt? turns with
  | some n => n / 2 % 2 == 1
  | none => false

end Radical

def Lifted.radicals (l : Lifted ν) : List (Radical ν) := l.factors.filterMap Radical.ofExpr?

def Lifted.others (l : Lifted ν) : List (Expr ν) :=
  l.factors.filter fun f => (Radical.ofExpr? f).isNone

end Formulary
