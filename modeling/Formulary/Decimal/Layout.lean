import Formulary.Decimal.Basic

namespace Formulary.Decimal

/-- Positional writing has at most `leading` zeros between point and first digit and at most `whole`
digits before the point. -/
structure Layout where
  leading : Nat
  whole : Nat

def Layout.plain : Layout := ⟨5, 21⟩

def zeroChars (n : Nat) : List Char := List.replicate n '0'

def exponentChars (e : Int) : List Char :=
  'e' :: (if e < 0 then '-' else '+') :: Nat.toDigits 10 e.natAbs

def scientificChars : List Char → Int → List Char
  | [], e => '0' :: exponentChars e
  | [d], e => d :: exponentChars e
  | d :: ds, e => d :: '.' :: (ds ++ exponentChars e)

def Layout.chars (layout : Layout) (d : Decimal) : List Char :=
  let digits := Nat.toDigits 10 d.coefficient
  let point : Int := digits.length + d.exponent
  if 0 < point ∧ point ≤ layout.whole then
    if digits.length ≤ point then digits ++ zeroChars (point.toNat - digits.length)
    else digits.take point.toNat ++ '.' :: digits.drop point.toNat
  else if point ≤ 0 ∧ -(layout.leading : Int) ≤ point then
    '0' :: '.' :: (zeroChars (-point).toNat ++ digits)
  else scientificChars digits (point - 1)

def text (d : Decimal) : String := String.ofList (Layout.plain.chars d)

end Formulary.Decimal
