import Formulary.Assumption.Basic
import Formulary.Decimal.Literal
import Formulary.Text.Blank

namespace Formulary

namespace Assumptions

inductive ClauseError where
  | noRelation (clause : String)
  | malformed (token clause : String)
deriving DecidableEq, Repr

def ClauseError.clause : ClauseError → String
  | .noRelation c => c
  | .malformed _ c => c

def ClauseError.message : ClauseError → String
  | .noRelation c => "No relation found in '" ++ c ++ "'"
  | .malformed token c => "Expected '<symbol> " ++ token ++ " <number>' in '" ++ c ++ "'"

/-- The written relations, a longer one before any that is part of it. -/
def relationTokens : List (List Char × Relation) :=
  [(['>', '='], .ge), (['≥'], .ge), (['<', '='], .le), (['≤'], .le), (['=', '='], .eq),
    (['!', '='], .ne), (['≠'], .ne), (['>'], .gt), (['<'], .lt)]

def splitAt? (token : List Char) : List Char → Option (List Char × List Char)
  | [] => if token.isEmpty then some ([], []) else none
  | c :: cs =>
    match token.isPrefixOf? (c :: cs) with
    | some rest => some ([], rest)
    | none => (splitAt? token cs).map fun p => (c :: p.1, p.2)

def pieces : List Char → List (List Char)
  | [] => [[]]
  | '&' :: '&' :: cs => [] :: pieces cs
  | c :: cs =>
    if c == ',' then [] :: pieces cs
    else
      match pieces cs with
      | [] => [[c]]
      | p :: ps => (c :: p) :: ps

def isNameStart (c : Char) : Bool := c.isAlpha || c == '$' || c == '\x60'

def isNameChar (c : Char) : Bool := c.isAlphanum || c == '$' || c == '\x60'

mutual

def isNameRest : List Char → Bool
  | [] => true
  | '\\' :: '[' :: c :: cs => c.isAlphanum && isGlyphRest cs
  | c :: cs => isNameChar c && isNameRest cs

def isGlyphRest : List Char → Bool
  | [] => false
  | c :: cs => if c == ']' then isNameRest cs else c.isAlphanum && isGlyphRest cs

end

/-- A letter, dollar sign, context mark or glyph, then any of these or digits. -/
def isName : List Char → Bool
  | [] => false
  | c :: cs => (isNameStart c || c == '\\') && isNameRest (c :: cs)

variable {ν : Type} [Number ν]

def unsigned? (cs : List Char) : Option ν := (Decimal.Literal.value? cs).map Number.ofDecimal

def number? : List Char → Option ν
  | '+' :: cs => unsigned? cs
  | '-' :: cs => (unsigned? cs).map (-·)
  | cs => unsigned? cs

def readSides (left right : List Char) (relation : Relation) : Option (Fact ν) :=
  match number? right, isName left, number? left, isName right with
  | some bound, true, _, _ => some ⟨.symbol (String.ofList left), relation, bound⟩
  | _, _, some bound, true => some ⟨.symbol (String.ofList right), relation.flip, bound⟩
  | _, _, _, _ => none

def readClause (clause : List Char) : Except ClauseError (Fact ν) :=
  match relationTokens.findSome? fun t => (splitAt? t.1 clause).map fun sides => (t, sides) with
  | none => .error (.noRelation (String.ofList clause))
  | some ((token, relation), (left, right)) =>
    match readSides (Text.trim left) (Text.trim right) relation with
    | some f => .ok f
    | none => .error (.malformed (String.ofList token) (String.ofList clause))

def clauses (cs : List Char) : List (List Char) := ((pieces cs).map Text.trim).filter (!·.isEmpty)

/-- An empty text and `True` state nothing. -/
def read (text : String) : Except ClauseError (Assumptions ν) :=
  let trimmed := Text.trim text.toList
  if trimmed = [] ∨ trimmed = ['T', 'r', 'u', 'e'] then .ok .unstated
  else
    match (clauses trimmed).mapM readClause with
    | .ok facts => .ok (.stated facts)
    | .error e => .error e

end Assumptions

end Formulary
