namespace Formulary

/-- The members of an object as they were written; of two with one key the later counts. -/
inductive Json (ν : Type) where
  | null
  | bool (value : Bool)
  | number (value : ν)
  | string (value : String)
  | array (items : List (Json ν))
  | object (members : List (String × Json ν))

namespace Json

variable {ν : Type}

def typeName : Json ν → String
  | .null => "null"
  | .bool _ => "boolean"
  | .number _ => "number"
  | .string _ => "string"
  | .array _ => "array"
  | .object _ => "object"

def lookup (key : String) (members : List (String × Json ν)) : Option (Json ν) :=
  (members.reverse.find? (·.1 == key)).map (·.2)

def get? (key : String) : Json ν → Option (Json ν)
  | .object members => lookup key members
  | _ => none

end Json

end Formulary
