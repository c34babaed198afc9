import Formulary.Expr.Build
import Formulary.Json.Basic
import Formulary.Request.Check

namespace Formulary

namespace Schema

def emptyMessage : String := "String must contain at least 1 character(s)"

def integerMessage : String := "Expected integer, received float"

def treeMessage : String := "Invalid input"

def typeMessage (expected received : String) : String :=
  "Expected " ++ expected ++ ", received " ++ received

def requiredMessage : String := "Required"

variable {ν α : Type}

def string : Json ν → Checked String
  | .string s => .ok s
  | j => .hard (typeMessage "string" j.typeName)

def nonempty (s : String) : Checked String := if s = "" then .soft s emptyMessage else .ok s

def nonemptyString : Json ν → Checked String
  | .string s => nonempty s
  | j => .hard (typeMessage "string" j.typeName)

def number : Json ν → Checked ν
  | .number x => .ok x
  | j => .hard (typeMessage "number" j.typeName)

def array (check : Json ν → Checked α) : Json ν → Checked (List α)
  | .array items => .sequence 0 (items.map check)
  | j => .hard (typeMessage "array" j.typeName)

def object (check : List (String × Json ν) → Checked α) : Json ν → Checked α
  | .object members => check members
  | j => .hard (typeMessage "object" j.typeName)

def required (check : Json ν → Checked α) (key : String) (members : List (String × Json ν)) :
    Checked α :=
  Checked.under key (match Json.lookup key members with
    | some j => check j
    | none => .hard requiredMessage)

/-- A member that may be absent, but not null. -/
def optional (check : Json ν → Checked α) (key : String) (members : List (String × Json ν)) :
    Checked (Option α) :=
  Checked.under key (match Json.lookup key members with
    | some j => (check j).map some
    | none => .ok none)

variable [Number ν]

def integer : Json ν → Checked ν
  | .number x => if Number.isInteger x then .ok x else .soft x integerMessage
  | j => .hard (typeMessage "number" j.typeName)

structure Member (ν : Type) where
  json : Json ν
  tree : Checked (Expr ν)
  trees : Checked (List (Expr ν))

def lookup (key : String) (members : List (String × Member ν)) : Option (Member ν) :=
  (members.reverse.find? (·.1 == key)).map (·.2)

def plain (check : Json ν → Checked α) (key : String) (members : List (String × Member ν)) :
    Checked α :=
  Checked.under key (match lookup key members with
    | some m => check m.json
    | none => .hard requiredMessage)

def plain? (check : Json ν → Checked α) (key : String) (members : List (String × Member ν)) :
    Checked (Option α) :=
  Checked.under key (match lookup key members with
    | some m => (check m.json).map some
    | none => .ok none)

def child (key : String) (members : List (String × Member ν)) : Checked (Expr ν) :=
  Checked.under key (match lookup key members with
    | some m => m.tree
    | none => .hard treeMessage)

def childList (key : String) (members : List (String × Member ν)) : Checked (List (Expr ν)) :=
  Checked.under key (match lookup key members with
    | some m => m.trees
    | none => .hard requiredMessage)

def node (members : List (String × Member ν)) : Checked (Expr ν) :=
  match (lookup "tag" members).map Member.json with
  | some (.string "Num") =>
    .map2 (fun p q => .ratio p (q.getD Number.one)) (plain number "num" members)
      (plain? integer "den" members)
  | some (.string "Symbol") => (plain nonemptyString "name" members).map .symbol
  | some (.string "Add") => (childList "terms" members).map .add
  | some (.string "Mul") => (childList "factors" members).map .mul
  | some (.string "Pow") => .map2 .power (child "base" members) (child "exponent" members)
  | some (.string "Call") =>
    .map2 .call (plain nonemptyString "head" members) (childList "args" members)
  | some (.string "Negate") => (child "inner" members).map .neg
  | some (.string "List") => (childList "items" members).map .list
  | some (.string "Pattern") =>
    .map2 .pattern (plain nonemptyString "name" members) (plain? string "head" members)
  | _ => .hard treeMessage

mutual

/-- A tree whose issues are all told, also those of a wrong shape. -/
def treePart : Json ν → Checked (Expr ν)
  | .number x => .ok (.ofNumber x)
  | .string s => (nonempty s).map .symbol
  | .object members => node (memberParts members)
  | .null | .bool _ | .array _ => .hard treeMessage

def treeParts : List (Json ν) → List (Checked (Expr ν))
  | [] => []
  | j :: js => treePart j :: treeParts js

def treeListPart : Json ν → Checked (List (Expr ν))
  | .array items => .sequence 0 (treeParts items)
  | .null | .bool _ | .number _ | .string _ | .object _ => .hard treeMessage

def memberParts : List (String × Json ν) → List (String × Member ν)
  | [] => []
  | m :: ms => memberPart m :: memberParts ms

def memberPart : String × Json ν → String × Member ν
  | (key, j) => (key, ⟨j, treePart j, treeListPart j⟩)

end

/-- A tree, whose own shape is told as one issue. -/
def tree (j : Json ν) : Checked (Expr ν) :=
  let c := treePart j
  if c.value.isSome then c else .hard treeMessage

def requiredTree (key : String) (members : List (String × Json ν)) : Checked (Expr ν) :=
  Checked.under key (match Json.lookup key members with
    | some j => tree j
    | none => .hard treeMessage)

end Schema

def Expr.ofJson {ν : Type} [Number ν] (j : Json ν) : Except (List Issue) (Expr ν) :=
  (Schema.tree j).result

end Formulary
