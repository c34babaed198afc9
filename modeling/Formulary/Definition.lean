import Formulary.Identifier

namespace Formulary

structure Rule (ν : Type) where
  lhs : Expr ν
  rhs : Expr ν

/-- A function with its parameters as identifiers and, in the same order, as they were written. -/
structure Signature (ν : Type) where
  name : String
  params : List String
  patterns : List String
  body : Expr ν

structure Store (ν : Type) where
  entries : List (String × List (Rule ν))

variable {ν : Type}

namespace Store

def empty : Store ν := ⟨[]⟩

def add (s : Store ν) (symbol : String) (rule : Rule ν) : Store ν :=
  if s.entries.any (·.1 == symbol) then
    ⟨s.entries.map fun p => if p.1 == symbol then (p.1, p.2 ++ [rule]) else p⟩
  else ⟨s.entries ++ [(symbol, [rule])]⟩

def rules (s : Store ν) (symbol : String) : List (Rule ν) :=
  ((s.entries.find? (·.1 == symbol)).map (·.2)).getD []

def symbols (s : Store ν) : List String := s.entries.map (·.1)

def ofDefinitions (ds : List (String × Rule ν)) : Store ν := ds.foldl (fun s d => s.add d.1 d.2) empty

end Store

namespace Signature

/-- The left side itself where a wrapper holds it unevaluated. -/
def held : Expr ν → Expr ν
  | .call "HoldPattern" [x] => x
  | x => x

def headOf (symbol : String) : Expr ν → String
  | .call head _ => head
  | _ => symbol

def repeated (seen : List String) : List String → List String
  | [] => []
  | x :: xs => if seen.contains x then x :: repeated seen xs else repeated (x :: seen) xs

/-- Each repeated member once, in the order of the second occurrences. -/
def duplicates (xs : List String) : List String := (repeated [] xs).eraseDups

def ofRules (target : Target) (symbol : String) (rules : List (Rule ν)) :
    Except (Diagnostic ν) (Signature ν) :=
  match rules with
  | [] => .error (.noDefinitionFound symbol)
  | rule :: _ =>
    let pattern := held rule.lhs
    let name := Identifier.ofName target (headOf symbol pattern)
    let params := pattern.patterns.map (Identifier.ofName target)
    match duplicates params with
    | [] => .ok ⟨name, params, pattern.patterns, rule.rhs⟩
    | ds => .error (.ambiguousSignature name ds)

end Signature

end Formulary
