import Formulary.Expr.Display

namespace Formulary

inductive Severity where
  | error
  | warning
  | info
deriving DecidableEq, Repr

def Severity.name : Severity → String
  | .error => "error"
  | .warning => "warning"
  | .info => "info"

inductive Finding (ν : Type) where
  | unknownSigns (expressions : List (Expr ν))
  | suggestAssumptions (suggestions : List String)
  | oddNegativeBases (expressions : List (Expr ν))
  | noDefinitionFound (symbol : String)
  | unmappedFunction (name : String)
  | ambiguousSignature (name : String) (duplicates : List String)
  | identifierCollision (identifier : String) (names : List String)
  | writeFailure (path reason : String)

variable {ν : Type}

def Finding.kind : Finding ν → String
  | .unknownSigns _ => "UnknownSigns"
  | .suggestAssumptions _ => "SuggestAssumptions"
  | .oddNegativeBases _ => "OddNegativeBases"
  | .noDefinitionFound _ => "NoDefinitionFound"
  | .unmappedFunction _ => "UnmappedFunction"
  | .ambiguousSignature _ _ => "AmbiguousSignature"
  | .identifierCollision _ _ => "IdentifierCollision"
  | .writeFailure _ _ => "WriteFailure"

structure Diagnostic (ν : Type) where
  severity : Severity
  message : String
  finding : Finding ν

namespace Diagnostic

def kind (d : Diagnostic ν) : String := d.finding.kind

def isError (d : Diagnostic ν) : Bool := d.severity == .error

def hasErrors (ds : List (Diagnostic ν)) : Bool := ds.any isError

def ofKind (kind : String) (ds : List (Diagnostic ν)) : List (Diagnostic ν) :=
  ds.filter (·.kind == kind)

section Signs

variable [Number ν]

def bracedForms (es : List (Expr ν)) : String :=
  "\x7b" ++ ", ".intercalate (es.map Expr.text) ++ "\x7d"

def unknownSigns (es : List (Expr ν)) : Diagnostic ν where
  severity := .warning
  message := "Variables with unknown signs: " ++ bracedForms es ++
    ". Cannot combine square roots safely without knowing their signs."
  finding := .unknownSigns es

def suggestAssumptions (es : List (Expr ν)) : Diagnostic ν :=
  let suggestions := es.map fun e => e.text ++ " > 0"
  { severity := .info
    message := "Try adding assumptions like: " ++ " && ".intercalate suggestions
    finding := .suggestAssumptions suggestions }

def oddNegativeBases (es : List (Expr ν)) : Diagnostic ν where
  severity := .warning
  message := "Odd number of negative bases under radicals: " ++ bracedForms es ++
    ". Combination left undone."
  finding := .oddNegativeBases es

end Signs

def noDefinitionFound (symbol : String) : Diagnostic ν where
  severity := .error
  message := "No definition found for the symbol " ++ symbol ++ "."
  finding := .noDefinitionFound symbol

def unmappedFunction (target name : String) : Diagnostic ν where
  severity := .warning
  message := "No " ++ target ++ " mapping for '" ++ name ++ "'; emitted verbatim"
  finding := .unmappedFunction name

def ambiguousSignature (name : String) (duplicates : List String) : Diagnostic ν where
  severity := .error
  message := "Signature of " ++ name ++ " repeats parameter" ++
    (if 1 < duplicates.length then "s" else "") ++ " " ++ ", ".intercalate duplicates
  finding := .ambiguousSignature name duplicates

def identifierCollision (identifier : String) (names : List String) : Diagnostic ν where
  severity := .error
  message := "Names " ++ ", ".intercalate names ++ " all normalize to '" ++ identifier ++ "'"
  finding := .identifierCollision identifier names

def writeFailure (path reason : String) : Diagnostic ν where
  severity := .error
  message := "Could not write to file " ++ path ++ "."
  finding := .writeFailure path reason

end Diagnostic

end Formulary
