import Formulary.Expr.Basic

namespace Formulary.Expr

variable {ν : Type} [Number ν]

def ofNumber (x : ν) : Expr ν := .number (.ofNumber x)

def ratio (p q : ν) : Expr ν := .number (.ratio p q)

def termsOf : Expr ν → List (Expr ν)
  | .sum ts => ts
  | x => [x]

def factorsOf : Expr ν → List (Expr ν)
  | .product fs => fs
  | x => [x]

def ofTerms : List (Expr ν) → Expr ν
  | [] => ofNumber Number.zero
  | [x] => x
  | xs => .sum xs

def ofFactors : List (Expr ν) → Expr ν
  | [] => ofNumber Number.one
  | [x] => x
  | xs => .product xs

def add (terms : List (Expr ν)) : Expr ν := ofTerms (terms.flatMap termsOf)

def mul (factors : List (Expr ν)) : Expr ν :=
  ofFactors ((factors.flatMap factorsOf).filter (!·.isOne))

def sqrt (base : Expr ν) : Expr ν := .power base (.number .half)

def neg : Expr ν → Expr ν
  | .number n => .number n.neg
  | .negation x => x
  | x => .negation x

def signed (negative : Bool) (x : Expr ν) : Expr ν := if negative then x.neg else x

end Formulary.Expr
