namespace Formulary

inductive Binding where
  | sum
  | product
  | unary
  | power
  | atom
deriving DecidableEq, Repr

namespace Binding

def rank : Binding → Nat
  | .sum => 1
  | .product => 2
  | .unary => 3
  | .power => 4
  | .atom => 5

instance : LE Binding := ⟨fun a b => a.rank ≤ b.rank⟩

instance (a b : Binding) : Decidable (a ≤ b) := inferInstanceAs (Decidable (a.rank ≤ b.rank))

end Binding

end Formulary
