import Formulary.Binding
import Formulary.Expr.Basic

namespace Formulary.Expr

open Number

structure Display where
  text : String
  binding : Binding

def Display.within (t : Display) (b : Binding) : String :=
  if b ≤ t.binding then t.text else "(" ++ t.text ++ ")"

/-- A further term of a sum: its own minus sign takes the place of the plus. -/
def laterTerm (text : String) : String :=
  match text.toList with
  | '-' :: rest => " - " ++ String.ofList rest
  | _ => " + " ++ text

/-- The factors of a product: a sign may lead the first, while the others bind as powers do. -/
def displayProduct : List Display → String
  | [] => ""
  | t :: ts => t.within .unary ++ String.join (ts.map fun t => "*" ++ t.within .power)

def displayList (ts : List Display) : String := ", ".intercalate (ts.map Display.text)

variable {ν : Type} [Number ν]

def displayNumeral (n : Numeral ν) : Display :=
  if n.denominator == one then
    ⟨if isNaN n.numerator then "Indeterminate" else Number.text n.numerator,
      if n.isNegative || (isZero n.numerator && signBit n.numerator) then .unary else .atom⟩
  else
    ⟨Number.text n.numerator ++ "/" ++ Number.text n.denominator, if n.isNegative then .unary
      else .product⟩

def isHalf : Expr ν → Bool
  | .number n => n.isHalf
  | _ => false

mutual

def display : Expr ν → Display
  | .number n => displayNumeral n
  | .symbol name => ⟨name, .atom⟩
  | .pattern name head => ⟨name ++ "_" ++ head.getD "", .atom⟩
  | .sum [] => ⟨"", .sum⟩
  | .sum (t :: ts) => ⟨(display t).text ++ displayTerms ts, .sum⟩
  | .product fs => ⟨displayProduct (displayAll fs), .product⟩
  | .power b e =>
    if e.isHalf then ⟨"Sqrt[" ++ (display b).text ++ "]", .atom⟩
    else ⟨(display b).within .atom ++ "^" ++ (display e).within .atom, .power⟩
  | .call head args => ⟨head ++ "[" ++ displayList (displayAll args) ++ "]", .atom⟩
  | .negation x => ⟨"-" ++ (display x).within .power, .unary⟩
  | .list items => ⟨"\x7b" ++ displayList (displayAll items) ++ "\x7d", .atom⟩

def displayTerms : List (Expr ν) → String
  | [] => ""
  | .negation x :: ts => " - " ++ (display x).within .product ++ displayTerms ts
  | t :: ts => laterTerm (display t).text ++ displayTerms ts

def displayAll : List (Expr ν) → List Display
  | [] => []
  | x :: xs => display x :: displayAll xs

end

def text (x : Expr ν) : String := (display x).text

end Formulary.Expr
