import Formulary.Code.Basic
import Formulary.Expr.Build
import Formulary.Identifier

namespace Formulary

/-- Code with the strength at which it may stand without parentheses. `magnitude` is the operand of
a leading minus sign. -/
structure Rendering where
  code : Code
  binding : Binding
  magnitude : Option (Code × Binding)

namespace Rendering

def ofCode (c : Code) : Rendering := ⟨c, c.binding, none⟩

def atom (c : Code) : Rendering := ⟨c, .atom, none⟩

def wrap (c : Code) (strength need : Binding) : Code := if need ≤ strength then c else .paren c

def within (r : Rendering) (b : Binding) : Code := wrap r.code r.binding b

/-- A minus sign in front: a sum needs parentheses, while in a product the sign binds to the first
factor. -/
def negative (r : Rendering) : Rendering :=
  if .product ≤ r.binding then
    ⟨r.code.negated, if r.binding ≤ .unary then r.binding else .unary, some (r.code, r.binding)⟩
  else ⟨.negative (.paren r.code), .unary, some (.paren r.code, .atom)⟩

def addTo (left : Code) (r : Rendering) : Code :=
  match r.magnitude with
  | some (m, b) => .sub left (wrap m b .product)
  | none => .add left (r.within .product)

def sum : List Rendering → Rendering
  | [] => ⟨.name "", .sum, none⟩
  | r :: rs => ⟨rs.foldl addTo r.code, .sum, none⟩

def chain : List Rendering → Code
  | [] => .number "1"
  | r :: rs => Code.chain (r.within .power) (rs.map (·.within .power))

end Rendering

/-- A product taken apart: its sign and the factors above and below the line. -/
structure Fraction where
  negated : Bool
  top : List Rendering
  bottom : List Rendering

namespace Fraction

def one : Fraction := ⟨false, [], []⟩

def ofRendering (r : Rendering) : Fraction := ⟨false, [r], []⟩

def flip (f : Fraction) : Fraction := ⟨!f.negated, f.top, f.bottom⟩

def append (f g : Fraction) : Fraction :=
  ⟨f.negated ^^ g.negated, f.top ++ g.top, f.bottom ++ g.bottom⟩

def below : List Rendering → Code
  | [r] => r.within .power
  | rs => .paren (Rendering.chain rs)

def body (f : Fraction) : Rendering :=
  match f.bottom, f.top with
  | [], [] => .atom (.number "1")
  | [], [r] => r
  | [], top => ⟨Rendering.chain top, .product, none⟩
  | bottom, top => ⟨.div (Rendering.chain top) (below bottom), .product, none⟩

def rendering (f : Fraction) : Rendering := if f.negated then f.body.negative else f.body

end Fraction

structure Piece where
  rendering : Rendering
  fraction : Fraction
  element : Code

namespace Piece

def ofRendering (r : Rendering) : Piece := ⟨r, .ofRendering r, r.code⟩

def ofFraction (f : Fraction) : Piece := ⟨f.rendering, f, f.rendering.code⟩

end Piece

variable {ν : Type} [Number ν]

open Number

namespace Target

def unsignedCode (x : ν) : Code :=
  if isFinite x then .number (Number.text x) else .name (Number.text x)

def numberCode (x : ν) : Code :=
  if Number.isNegative x then .negative (unsignedCode (-x)) else unsignedCode x

def unsignedNumeral (t : Target) (n : Numeral ν) : Rendering :=
  if isInfinite n.numerator then .atom (.ofText t.infinity)
  else if n.denominator == one then .atom (numberCode n.numerator)
  else ⟨.div (numberCode n.numerator) (numberCode n.denominator), .product, none⟩

def numeral (t : Target) (n : Numeral ν) : Rendering :=
  if isNaN n.numerator then .atom (.ofText t.nan)
  else if signBit n.numerator then (t.unsignedNumeral n.neg).negative
  else t.unsignedNumeral n

/-- A numeral as a part of a product, where a one is left out. -/
def numeralFraction (t : Target) (n : Numeral ν) : Fraction :=
  let magnitude := Number.abs n.numerator
  if isNaN n.numerator then .ofRendering (t.numeral n)
  else if n.denominator == one then
    ⟨signBit n.numerator, if magnitude == one then [] else [t.unsignedNumeral ⟨magnitude, one⟩], []⟩
  else
    ⟨signBit n.numerator, if magnitude == one then [] else [.atom (numberCode magnitude)],
      [.atom (numberCode n.denominator)]⟩

def power (t : Target) (base exponent : Rendering) (half : Bool) : Rendering :=
  if half && t.radical == .call then .atom (.call t.rootCall [base.code])
  else ⟨.power (base.within .atom) (exponent.within .unary), .power, none⟩

def numeralPower (t : Target) (base : Rendering) (n : Numeral ν) : Rendering :=
  t.power base (t.numeral n) n.isHalf

def reciprocal (t : Target) (base : Rendering) (n : Numeral ν) : Rendering :=
  let opposite (n : Numeral ν) : Numeral ν := .ratio (-n.numerator) n.denominator
  let plain (n : Numeral ν) : Rendering := if n.isMinusOne then base
    else t.numeralPower base (opposite n)
  if !n.isMinusOne && (opposite n).isNegative
    then Fraction.rendering ⟨false, [], [plain (opposite n)]⟩ else plain n

/-- A call. A logarithm to a base is a quotient, an arctangent of two arguments takes the second
first, and a function of two arguments is nested. -/
def callCode (t : Target) (head : String) (args : List Code) : Code :=
  match args, t.functions.get? head with
  | [base, x], some f =>
    if head = "Log" then .div (.call f [x]) (.call f [base])
    else if head = "ArcTan" then .call t.arctangentCall [x, base]
    else .call f [base, x]
  | [x, y], none => if head = "ArcTan" then .call t.arctangentCall [y, x] else .call head [x, y]
  | first :: second :: third :: rest, some f =>
    if t.binaryHeads.contains head then .call f [first, t.callCode head (second :: third :: rest)]
    else .call f (first :: second :: third :: rest)
  | args, some f => .call f args
  | args, none => .call head args

def listPiece (t : Target) (elements : List Code) : Piece :=
  let r := Rendering.atom (match t.arrayCall with
    | some c => .call c [.list elements]
    | none => .list elements)
  ⟨r, .ofRendering r, .list elements⟩

def symbolCode (t : Target) (s : String) : Code :=
  match t.constants.get? s with
  | some c => .ofText c
  | none => .name (Identifier.ofName t s)

mutual

def piece (t : Target) : Expr ν → Piece
  | .number n => ⟨t.numeral n, t.numeralFraction n, (t.numeral n).code⟩
  | .symbol s => .ofRendering (.atom (t.symbolCode s))
  | .pattern s _ => .ofRendering (.atom (.name (Identifier.ofName t s)))
  | .negation (.product fs) => .ofFraction (fractions t fs).flip
  | .negation x =>
    let p := piece t x
    let r := Rendering.negative ⟨p.rendering.within .power, .power, none⟩
    ⟨r, p.fraction.flip, r.code⟩
  | .sum ts => .ofRendering (.sum (renderings t ts))
  | .product fs => .ofFraction (fractions t fs)
  | .power b (.number n) =>
    if n.isNegative then .ofFraction ⟨false, [], [t.reciprocal (piece t b).rendering n]⟩
    else .ofRendering (t.numeralPower (piece t b).rendering n)
  | .power b e => .ofRendering (t.power (piece t b).rendering (piece t e).rendering false)
  | .call head args => .ofRendering (.ofCode (t.callCode head ((renderings t args).map (·.code))))
  | .list items => t.listPiece (elements t items)

def renderings (t : Target) : List (Expr ν) → List Rendering
  | [] => []
  | x :: xs => (piece t x).rendering :: renderings t xs

def fractions (t : Target) : List (Expr ν) → Fraction
  | [] => .one
  | x :: xs => (piece t x).fraction.append (fractions t xs)

def elements (t : Target) : List (Expr ν) → List Code
  | [] => []
  | x :: xs => (piece t x).element :: elements t xs

end

end Target

end Formulary
