import Formulary.Decimal.Shortest
import Formulary.Number.Basic

namespace Formulary.Double

/-- The sign, mantissa and binary exponent of a finite double, whose magnitude is
`mantissa * 2 ^ exponent`. -/
structure Parts where
  negative : Bool
  mantissa : Nat
  exponent : Int

def signBit (x : Float) : Bool := x.toBits.toNat / Nat.pow 2 63 == 1

def parts? (x : Float) : Option Parts :=
  let bits := x.toBits.toNat
  let fraction := bits % Nat.pow 2 52
  let scale : Nat := bits / Nat.pow 2 52 % Nat.pow 2 11
  if scale = 2047 then none
  else if scale = 0 then some ⟨signBit x, fraction, -1074⟩
  else some ⟨signBit x, fraction + Nat.pow 2 52, (scale : Int) - 1075⟩

def Parts.fraction (p : Parts) : Nat × Nat :=
  if 0 ≤ p.exponent then (p.mantissa * Nat.pow 2 p.exponent.toNat, 1)
    else (p.mantissa, Nat.pow 2 (-p.exponent).toNat)

def Parts.toRat (p : Parts) : Rat :=
  let (num, den) := p.fraction
  mkRat (if p.negative then -num else num) den

def toRat? (x : Float) : Option Rat := (parts? x).map Parts.toRat

def infinity : Float := 1 / 0

/-- The nearest double. Beyond the range of doubles the power of ten is not worked out. -/
def ofDecimal (d : Decimal) : Float :=
  let point := Decimal.digitCount d.coefficient + d.exponent
  if d.coefficient = 0 then 0
  else if 400 < point then infinity
  else if point < -400 then 0
  else Float.ofScientific d.coefficient (decide (d.exponent < 0)) d.exponent.natAbs

def decimal (x : Float) : Decimal :=
  match parts? x with
  | none => ⟨0, 0⟩
  | some p =>
    let (num, den) := p.fraction
    if num = 0 then ⟨0, 0⟩ else Decimal.shortest (fun d => ofDecimal d == x.abs) num den

instance : Number Float where
  ofInt := Float.ofInt
  ofDecimal := ofDecimal
  toRat? := toRat?
  less x y := decide (x < y)
  signBit := signBit
  nan := 0 / 0
  infinity := infinity
  decimal := decimal

end Formulary.Double
