import Formulary.Code.Render
import Formulary.Definition

namespace Formulary

structure Emission (ν : Type) where
  target : String
  code : String
  diagnostics : List (Diagnostic ν)

namespace Emission

def language : String := "python"

def fileExtension : String := ".py"

end Emission

namespace Target

/-- The arguments of a call in the order in which the code has them. -/
def callOrder {α : Type} (t : Target) (head : String) : List α → List α
  | [a, b] => if (head = "Log" ∧ t.functions.contains "Log") ∨ head = "ArcTan" then [b, a] else [a, b]
  | a :: b :: c :: rest =>
    if t.functions.contains head ∧ t.binaryHeads.contains head
      then a :: callOrder t head (b :: c :: rest)
    else a :: b :: c :: rest
  | args => args

def isUnmapped (t : Target) (head : String) (arity : Nat) : Bool :=
  !t.functions.contains head && !(head == "ArcTan" && arity == 2)

variable {ν : Type}

mutual

def names (t : Target) : Expr ν → List String
  | .number _ => []
  | .symbol s => if t.constants.contains s then [] else [s]
  | .pattern s _ => [s]
  | .sum xs | .product xs | .list xs => (namesAll t xs).flatten
  | .power b e => names t b ++ names t e
  | .call head args => (t.callOrder head (namesAll t args)).flatten
  | .negation x => names t x

def namesAll (t : Target) : List (Expr ν) → List (List String)
  | [] => []
  | x :: xs => names t x :: namesAll t xs

end

mutual

def unmappedHeads (t : Target) : Expr ν → List String
  | .number _ | .symbol _ | .pattern _ _ => []
  | .sum xs | .product xs | .list xs => (unmappedHeadsAll t xs).flatten
  | .power b e => unmappedHeads t b ++ unmappedHeads t e
  | .call head args =>
    (if t.isUnmapped head args.length then [head] else []) ++
      (t.callOrder head (unmappedHeadsAll t args)).flatten
  | .negation x => unmappedHeads t x

def unmappedHeadsAll (t : Target) : List (Expr ν) → List (List String)
  | [] => []
  | x :: xs => unmappedHeads t x :: unmappedHeadsAll t xs

end

def emissionDiagnostics (t : Target) (bound : List String) (x : Expr ν) : List (Diagnostic ν) :=
  (t.unmappedHeads x).eraseDups.map (.unmappedFunction t.name) ++
    (Identifier.Scope.ofNames t (bound ++ t.names x)).collisions

variable [Number ν]

def code (t : Target) (x : Expr ν) : Code := (t.piece x).rendering.code

def emit (t : Target) (x : Expr ν) : Emission ν :=
  ⟨t.name, (t.code x).text, t.emissionDiagnostics [] x⟩

/-- Parameters are bound before the body, so that a name of the body that becomes a parameter is
found out. -/
def emitDefinition (t : Target) (s : Signature ν) : Emission ν :=
  let params := ", ".intercalate (s.patterns.map (Identifier.ofName t))
  ⟨t.name, "def " ++ s.name ++ "(" ++ params ++ "):\n    return " ++ (t.code s.body).text,
    t.emissionDiagnostics s.patterns s.body⟩

end Target

end Formulary
