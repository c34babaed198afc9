import Formulary.Binding
import Formulary.Decimal.Literal

namespace Formulary

inductive Code where
  | number (text : String)
  | imaginary (text : String)
  | name (text : String)
  | call (callee : String) (args : List Code)
  | list (items : List Code)
  | paren (inner : Code)
  | power (base exponent : Code)
  | negative (inner : Code)
  | positive (inner : Code)
  | mul (left right : Code)
  | div (left right : Code)
  | add (left right : Code)
  | sub (left right : Code)

namespace Code

mutual

def text : Code → String
  | .number t => t
  | .imaginary t => t ++ "j"
  | .name t => t
  | .call f args => f ++ "(" ++ ", ".intercalate (texts args) ++ ")"
  | .list items => "[" ++ ", ".intercalate (texts items) ++ "]"
  | .paren c => "(" ++ text c ++ ")"
  | .power b e => text b ++ "**" ++ text e
  | .negative c => "-" ++ text c
  | .positive c => "+" ++ text c
  | .mul l r => text l ++ "*" ++ text r
  | .div l r => text l ++ "/" ++ text r
  | .add l r => text l ++ " + " ++ text r
  | .sub l r => text l ++ " - " ++ text r

def texts : List Code → List String
  | [] => []
  | c :: cs => text c :: texts cs

end

def binding : Code → Binding
  | .number _ | .imaginary _ | .name _ | .call _ _ | .list _ | .paren _ => .atom
  | .power _ _ => .power
  | .negative _ | .positive _ => .unary
  | .mul _ _ | .div _ _ => .product
  | .add _ _ | .sub _ _ => .sum

/-- With a minus sign in front, which in a product binds to the first factor. -/
def negated : Code → Code
  | .mul l r => .mul l.negated r
  | .div l r => .div l.negated r
  | c => .negative c

theorem text_negated (c : Code) : c.negated.text = "-" ++ c.text := by
  induction c using negated.induct with
  | case1 l r ih => simp [negated, text, ih, String.append_assoc]
  | case2 l r ih => simp [negated, text, ih, String.append_assoc]
  | case3 c h1 h2 => rw [negated]; · rfl
                     · exact h1
                     · exact h2

def chain : Code → List Code → Code := List.foldl .mul

def ofText (t : String) : Code :=
  match Decimal.Literal.scan t.toList with
  | some (_, []) => .number t
  | some (l, ['j']) => .imaginary l.text
  | _ => .name t

theorem text_ofText (t : String) : (ofText t).text = t := by
  unfold ofText
  split
  · rfl
  · next l h =>
    have := Decimal.Literal.scan_chars h
    simp only [text, Decimal.Literal.text]
    rw [show "j" = String.ofList ['j'] from rfl, ← String.ofList_append, this, String.ofList_toList]
  · rfl

end Code

end Formulary
