import Formulary.Assumption.Read
import Formulary.Definition
import Formulary.Request.Schema

namespace Formulary

structure Request (ν : Type) where
  target : Option String
  assumptions : Option String
  expressions : List (String × Expr ν)
  definitions : List (String × Rule ν)
  functions : Option (List String)

inductive WorkUnit (ν : Type) where
  | expression (label : String) (tree : Expr ν)
  | function (symbol : String)

def WorkUnit.label {ν : Type} : WorkUnit ν → String
  | .expression label _ => label
  | .function symbol => symbol

/-- `combine` holds the assumptions under which radicals are combined, which they are not without
them. -/
structure Work (ν : Type) where
  target : Option String
  combine : Option (Assumptions ν)
  units : List (WorkUnit ν)
  store : Store ν

namespace Request

variable {ν : Type} [Number ν]

open Schema

def expressionOf (members : List (String × Json ν)) : Checked (String × Expr ν) :=
  .map2 Prod.mk (required string "label" members) (requiredTree "expr" members)

def definitionOf (members : List (String × Json ν)) : Checked (String × Rule ν) :=
  .map3 (fun symbol lhs rhs => (symbol, ⟨lhs, rhs⟩)) (required nonemptyString "symbol" members)
    (requiredTree "lhs" members) (requiredTree "rhs" members)

def ofMembers (members : List (String × Json ν)) : Checked (Request ν) :=
  let strings := Checked.map2 Prod.mk (optional string "target" members)
    (optional string "assumptions" members)
  let trees := Checked.map2 Prod.mk (optional (array (object expressionOf)) "expressions" members)
    (optional (array (object definitionOf)) "definitions" members)
  Checked.map3 (fun s t functions => ⟨s.1, s.2, t.1.getD [], t.2.getD [], functions⟩) strings trees
    (optional (array nonemptyString) "functions" members)

def ofJson (j : Json ν) : Except (List Issue) (Request ν) := (object ofMembers j).result

def store (r : Request ν) : Store ν := .ofDefinitions r.definitions

def wanted (r : Request ν) : List String := r.functions.getD r.store.symbols

def units (r : Request ν) : List (WorkUnit ν) :=
  r.expressions.map (fun e => .expression e.1 e.2) ++ r.wanted.map .function

def combine (r : Request ν) : Except Assumptions.ClauseError (Option (Assumptions ν)) :=
  match r.assumptions with
  | none => .ok none
  | some text => (Assumptions.read text).map some

def toWork (r : Request ν) : Except Assumptions.ClauseError (Work ν) :=
  r.combine.map fun combine => ⟨r.target, combine, r.units, r.store⟩

end Request

end Formulary
