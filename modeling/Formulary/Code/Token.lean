import Formulary.Decimal.Literal
import Formulary.Text.Blank

namespace Formulary

inductive TokenKind where
  | number
  | imaginary
  | identifier
  | leftParen
  | rightParen
  | leftBracket
  | rightBracket
  | plus
  | minus
  | star
  | power
  | slash
  | comma
  | stop
deriving DecidableEq, Repr

def TokenKind.label : TokenKind → String
  | .number => "NUMBER"
  | .imaginary => "IMAGINARY"
  | .identifier => "IDENT"
  | .leftParen => "LPAREN"
  | .rightParen => "RPAREN"
  | .leftBracket => "LBRACKET"
  | .rightBracket => "RBRACKET"
  | .plus => "PLUS"
  | .minus => "MINUS"
  | .star => "STAR"
  | .power => "POWER"
  | .slash => "SLASH"
  | .comma => "COMMA"
  | .stop => "EOF"

/-- A token with its text, less the mark of an imaginary literal, and the number of characters
before it. -/
structure Token where
  kind : TokenKind
  text : String
  position : Nat
deriving DecidableEq, Repr

inductive CodeError where
  | character (c : Char) (position : Nat)
  | expected (kind : TokenKind) (found : Token)
  | unexpected (found : Token)
deriving DecidableEq, Repr

namespace CodeError

def position : CodeError → Nat
  | .character _ p => p
  | .expected _ t => t.position
  | .unexpected t => t.position

/-- A character outside the basic plane is shown as the replacement character. -/
def shown (c : Char) : String := String.singleton (if 0x10000 ≤ c.toNat then '\ufffd' else c)

def describe (t : Token) : String :=
  t.kind.label ++ " ('" ++ t.text ++ "') at " ++ toString t.position

def message : CodeError → String
  | .character c p => "Unexpected character '" ++ shown c ++ "' at " ++ toString p
  | .expected k t => "Expected " ++ k.label ++ " but got " ++ describe t
  | .unexpected t => "Unexpected " ++ describe t

end CodeError

structure Tokens where
  tokens : List Token
  length : Nat
deriving DecidableEq, Repr

def Tokens.stop (length : Nat) : Token := ⟨.stop, "", length⟩

structure Lexeme where
  kind : TokenKind
  text : String
  rest : List Char

namespace Lexeme

def isNameStart (c : Char) : Bool := c.isAlpha || c == '_'

def isNameChar (c : Char) : Bool := c.isAlphanum || c == '_'

/-- The rest of a name after its first character; a dot belongs to it when another part follows. -/
def nameRest : List Char → List Char × List Char
  | [] => ([], [])
  | '.' :: c :: cs =>
    if isNameStart c then ('.' :: c :: (nameRest cs).1, (nameRest cs).2) else ([], '.' :: c :: cs)
  | c :: cs => if isNameChar c then (c :: (nameRest cs).1, (nameRest cs).2) else ([], c :: cs)

theorem nameRest_append (cs : List Char) : (nameRest cs).1 ++ (nameRest cs).2 = cs := by
  induction cs using nameRest.induct with
  | case1 => rfl
  | case2 c cs h ih => simp [nameRest, h, ih]
  | case3 c cs h => simp [nameRest, h]
  | case4 c cs hd h ih => rw [nameRest]; · simp [h, ih]
                          · exact hd
  | case5 c cs hd h => rw [nameRest]; · simp [h]
                       · exact hd

theorem length_nameRest_le (cs : List Char) : (nameRest cs).2.length ≤ cs.length := by
  have := congrArg List.length (nameRest_append cs)
  rw [List.length_append] at this
  omega

def ofMark (c : Char) (cs : List Char) : Option Lexeme :=
  match c, cs with
  | '*', '*' :: rest => some ⟨.power, "**", rest⟩
  | '*', rest => some ⟨.star, "*", rest⟩
  | '(', rest => some ⟨.leftParen, "(", rest⟩
  | ')', rest => some ⟨.rightParen, ")", rest⟩
  | '[', rest => some ⟨.leftBracket, "[", rest⟩
  | ']', rest => some ⟨.rightBracket, "]", rest⟩
  | '+', rest => some ⟨.plus, "+", rest⟩
  | '-', rest => some ⟨.minus, "-", rest⟩
  | '/', rest => some ⟨.slash, "/", rest⟩
  | ',', rest => some ⟨.comma, ",", rest⟩
  | _, _ => none

def scan (c : Char) (cs : List Char) : Option Lexeme :=
  match Decimal.Literal.scan (c :: cs) with
  | some (l, 'j' :: rest) => some ⟨.imaginary, l.text, rest⟩
  | some (l, rest) => some ⟨.number, l.text, rest⟩
  | none =>
    if isNameStart c then some ⟨.identifier, String.ofList (c :: (nameRest cs).1), (nameRest cs).2⟩
    else ofMark c cs

theorem length_le_of_ofMark {c : Char} {cs : List Char} {l : Lexeme} (h : ofMark c cs = some l) :
    l.rest.length ≤ cs.length := by
  unfold ofMark at h
  split at h <;> simp only [Option.some.injEq, reduceCtorEq] at h <;> subst h <;>
    simp only [List.length_cons, Nat.le_refl, Nat.le_succ]

theorem length_le_of_scan {c : Char} {cs : List Char} {l : Lexeme} (h : scan c cs = some l) :
    l.rest.length ≤ cs.length := by
  unfold scan at h
  split at h
  · next hs =>
    have := Decimal.Literal.scan_length hs
    simp only [List.length_cons] at this
    simp only [Option.some.injEq] at h
    subst h
    simp only
    omega
  · next hs =>
    have := Decimal.Literal.scan_length hs
    simp only [List.length_cons] at this
    simp only [Option.some.injEq] at h
    subst h
    simp only
    omega
  · split at h
    · simp only [Option.some.injEq] at h
      subst h
      exact length_nameRest_le cs
    · exact length_le_of_ofMark h

end Lexeme

namespace Tokens

def scan (position : Nat) (cs : List Char) : Except CodeError Tokens :=
  match cs with
  | [] => .ok ⟨[], position⟩
  | c :: rest =>
    if Text.isBlank c then scan (position + 1) rest
    else
      match _h : Lexeme.scan c rest with
      | none => .error (.character c position)
      | some l =>
        match scan (position + ((rest.length + 1) - l.rest.length)) l.rest with
        | .ok ts => .ok { ts with tokens := ⟨l.kind, l.text, position⟩ :: ts.tokens }
        | .error e => .error e
termination_by cs.length
decreasing_by
  · simp only [List.length_cons]
    omega
  · have := Lexeme.length_le_of_scan _h
    simp only [List.length_cons]
    omega

def ofText (text : String) : Except CodeError Tokens := scan 0 text.toList

end Tokens

end Formulary
