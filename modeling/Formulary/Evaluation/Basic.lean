import Formulary.Evaluation.Complex
import Formulary.Expr.Basic
import Formulary.Table

namespace Formulary

abbrev Bindings (ν : Type) := List (String × Complex ν)

namespace Evaluation

variable {ν : Type} [Elementary ν]

open Number Elementary

def constants : Bindings ν :=
  [("Pi", .ofReal pi), ("E", .ofReal e), ("I", ⟨zero, one⟩), ("Degree", .ofReal (pi / ofInt 180)),
    ("GoldenRatio", .ofReal ((one + sqrt (ofInt 5)) / ofInt 2))]

def constantNames : List String := ["Pi", "E", "I", "Degree", "GoldenRatio"]

def find? (name : String) (bindings : Bindings ν) : Option (Complex ν) :=
  (bindings.find? (·.1 == name)).map (·.2)

/-- Bindings go before constants. What every plain object inherits is found too, and neither part of
it is a number. -/
def lookup (bindings : Bindings ν) (name : String) : Option (Complex ν) :=
  match find? name bindings with
  | some v => some v
  | none => if Table.isInherited name then some ⟨nan, nan⟩ else find? name constants

def isGiven (name : String) : Bool := constantNames.contains name || Table.isInherited name

def realWhere (condition : ν → Bool) (f : ν → ν) (z : Complex ν) : Option (Complex ν) :=
  if z.isReal && condition z.re then some (.ofReal (f z.re)) else none

def real (f : ν → ν) (z : Complex ν) : Option (Complex ν) := realWhere (fun _ => true) f z

def applyOne (head : String) (z : Complex ν) : Option (Complex ν) :=
  match head with
  | "Sin" => some z.sin
  | "Cos" => some z.cos
  | "Tan" => z.tan
  | "Exp" => some z.exp
  | "Log" => z.log
  | "Sqrt" => z.sqrt
  | "Sinh" => some z.sinh
  | "Cosh" => some z.cosh
  | "Tanh" => z.tanh
  | "Abs" => some (.ofReal z.modulus)
  | "ArcSin" => realWhere (fun x => lessEq (abs x) one) asin z
  | "ArcCos" => realWhere (fun x => lessEq (abs x) one) acos z
  | "ArcTan" => real atan z
  | "ArcSinh" => real asinh z
  | "ArcCosh" => realWhere (fun x => lessEq one x) acosh z
  | "ArcTanh" => realWhere (fun x => less (abs x) one) atanh z
  | "Sign" => real sign z
  | "Floor" => real floor z
  | "Ceiling" => real ceiling z
  | "Round" => real round z
  | "Min" | "Max" => real id z
  | _ => none

def apply (head : String) (args : List (Complex ν)) : Option (Complex ν) :=
  match args with
  | [] => none
  | [z] => applyOne head z
  | first :: rest =>
    if head = "Min" ∨ head = "Max" then
      if args.all Complex.isReal then
        some (.ofReal (rest.foldl (fun x z => if head = "Min" then min x z.re
          else max x z.re) first.re))
      else none
    else
      match head, rest with
      | "Log", [x] => x.log.bind fun n => first.log.bind fun d => n.div d
      | "ArcTan", [y] =>
        if first.isReal && y.isReal then some (.ofReal (atan2 y.re first.re)) else none
      | _, _ => none

mutual

def value (bindings : Bindings ν) : Expr ν → Option (Complex ν)
  | .number n => some (.ofReal n.value)
  | .symbol s | .pattern s _ => lookup bindings s
  | .sum ts => (values bindings ts).map fun vs => vs.foldl .add (.ofReal zero)
  | .product fs => (values bindings fs).map fun vs => vs.foldl .mul (.ofReal one)
  | .power b e =>
    match value bindings b, value bindings e with
    | some b, some e => b.pow e
    | _, _ => none
  | .negation x => (value bindings x).map .neg
  | .call head args => (values bindings args).bind (apply head)
  | .list _ => none

def values (bindings : Bindings ν) : List (Expr ν) → Option (List (Complex ν))
  | [] => some []
  | x :: xs =>
    match value bindings x, values bindings xs with
    | some v, some vs => some (v :: vs)
    | _, _ => none

end

def finiteValue (bindings : Bindings ν) (x : Expr ν) : Option (Complex ν) :=
  (value bindings x).filter Complex.isFinite

end Evaluation

end Formulary
