import Formulary.Code.Grammar
import Formulary.Expr.Build
import Formulary.Target

namespace Formulary

variable {ν : Type} [Number ν]

open Number

namespace Target

def numberOf (text : String) : ν :=
  match Decimal.Literal.value? text.toList with
  | some d => ofDecimal d
  | none => Number.nan

def treeOfImaginary (text : String) : Expr ν :=
  if (numberOf text : ν) == one then .symbol "I" else .mul [.ofNumber (numberOf text), .symbol "I"]

def treeOfName (t : Target) (name : String) : Expr ν :=
  if name = t.nan then .ofNumber Number.nan
  else
    match t.constants.keyOf? name with
    | some host => .symbol host
    | none => if name = t.infinity then .ofNumber Number.infinity else .symbol name

def isList : Expr ν → Bool
  | .list _ => true
  | _ => false

def treeOfCall (t : Target) (callee : String) (args : List (Expr ν)) : Expr ν :=
  let plain : Expr ν := .call ((t.functions.keyOf? callee).getD callee) args
  match args with
  | [x] =>
    if callee = t.rootCall then .sqrt x
    else if some callee = t.arrayCall ∧ isList x then x
    else plain
  | [y, x] => if callee = t.arctangentCall then .call "ArcTan" [x, y] else plain
  | _ => plain

/-- A quotient of integers is a rational, and any other a product with a reciprocal. -/
def treeOfQuotient (x y : Expr ν) : Expr ν :=
  match x, y with
  | .number p, .number q =>
    if p.isInteger && q.isInteger && !isZero q.numerator then .ratio p.numerator q.numerator
    else .mul [.number p, .power (.number q) (.number (.ofInt (-1)))]
  | x, y => .mul [x, .power y (.number (.ofInt (-1)))]

mutual

def treeOfCode (t : Target) : Code → Expr ν
  | .number s => .ofNumber (numberOf s)
  | .imaginary s => treeOfImaginary s
  | .name s => t.treeOfName s
  | .call f args => t.treeOfCall f (treesOfCodes t args)
  | .list items => .list (treesOfCodes t items)
  | .paren c => treeOfCode t c
  | .power b e => .power (treeOfCode t b) (treeOfCode t e)
  | .negative c => (treeOfCode t c).neg
  | .positive c => treeOfCode t c
  | .mul l r => .mul [treeOfCode t l, treeOfCode t r]
  | .div l r => treeOfQuotient (treeOfCode t l) (treeOfCode t r)
  | .add l r => .add [treeOfCode t l, treeOfCode t r]
  | .sub l r => .add [treeOfCode t l, (treeOfCode t r).neg]

def treesOfCodes (t : Target) : List Code → List (Expr ν)
  | [] => []
  | c :: cs => treeOfCode t c :: treesOfCodes t cs

end

def read (t : Target) (text : String) : Except CodeError (Expr ν) :=
  (Code.parse text).map t.treeOfCode

end Target

end Formulary
