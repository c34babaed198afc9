import Formulary.Decimal.Basic

namespace Formulary.Decimal

def neighbours (num den count : Nat) : List Decimal :=
  let exponent := decade num den - (count - 1 : Nat)
  let (a, b) := rescale num den exponent
  let lower := a / b
  let below : Decimal := ⟨lower, exponent⟩
  let above : Decimal := ⟨lower + 1, exponent⟩
  if 2 * (a % b) < b ∨ (2 * (a % b) = b ∧ lower % 2 = 0) then [below, above] else [above, below]

/-- The first decimal that passes the test, or the full expansion where none of seventeen digits
does. -/
def shortest (readsBack : Decimal → Bool) (num den : Nat) : Decimal :=
  match (List.range 17).findSome? (fun n => (neighbours num den (n + 1)).find? readsBack) with
  | some d => d.normal
  | none => expansion num den

theorem shortest_cases (readsBack : Decimal → Bool) (num den : Nat) :
    (∃ d, readsBack d = true ∧ shortest readsBack num den = d.normal) ∨
      shortest readsBack num den = expansion num den := by
  unfold shortest
  split
  · next d h =>
    obtain ⟨n, _, hn⟩ := List.exists_of_findSome?_eq_some h
    exact .inl ⟨d, List.find?_some hn, rfl⟩
  · exact .inr rfl

end Formulary.Decimal
