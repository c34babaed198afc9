import Formulary.Code.Render
import Formulary.Proofs.Expr.Induction

namespace Formulary

variable {ν : Type}

@[elab_as_elim]
theorem Expr.induct_forms {motive : Expr ν → Prop} (number : ∀ n, motive (.number n))
    (symbol : ∀ s, motive (.symbol s)) (pattern : ∀ s h, motive (.pattern s h))
    (sum : ∀ ts, (∀ t ∈ ts, motive t) → motive (.sum ts))
    (product : ∀ fs, (∀ f ∈ fs, motive f) → motive (.product fs))
    (call : ∀ h args, (∀ a ∈ args, motive a) → motive (.call h args))
    (list : ∀ items, (∀ i ∈ items, motive i) → motive (.list items))
    (minusProduct : ∀ fs, motive (.product fs) → motive (.negation (.product fs)))
    (negation : ∀ x, (∀ fs, x ≠ .product fs) → motive x → motive (.negation x))
    (numeralPower : ∀ b n, motive b → motive (.power b (.number n)))
    (power : ∀ b e, (∀ n, e ≠ .number n) → motive b → motive e → motive (.power b e)) (x : Expr ν) :
    motive x := by
  induction x with
  | number n => exact number n
  | symbol s => exact symbol s
  | pattern s h => exact pattern s h
  | sum ts ih => exact sum ts ih
  | product fs ih => exact product fs ih
  | call h args ih => exact call h args ih
  | list items ih => exact list items ih
  | negation x ih =>
      by_cases hproduct : ∃ fs, x = .product fs
      · obtain ⟨fs, rfl⟩ := hproduct
        exact minusProduct fs ih
      · exact negation x (fun fs hfs => hproduct ⟨fs, hfs⟩) ih
  | power b e ihb ihe =>
      by_cases hnumber : ∃ n, e = .number n
      · obtain ⟨n, rfl⟩ := hnumber
        exact numeralPower b n ihb
      · exact power b e (fun n hn => hnumber ⟨n, hn⟩) ihb ihe

namespace Target

variable [Number ν] (t : Target)

theorem piece_minusProduct (fs : List (Expr ν)) :
    t.piece (.negation (.product fs)) = .ofFraction (t.piece (.product fs)).fraction.flip := by
  rw [piece, piece]
  rfl

theorem piece_negation {x : Expr ν} (hx : ∀ fs, x ≠ .product fs) :
    t.piece (.negation x) = ⟨.negative ⟨(t.piece x).rendering.within .power, .power, none⟩,
      (t.piece x).fraction.flip,
      (Rendering.negative ⟨(t.piece x).rendering.within .power, .power, none⟩).code⟩ := by
  rw [piece]
  exact hx

theorem piece_power (b : Expr ν) {e : Expr ν} (he : ∀ n, e ≠ .number n) :
    t.piece (.power b e) =
      .ofRendering (t.power (t.piece b).rendering (t.piece e).rendering false) := by
  rw [piece]
  exact he

theorem renderings_eq_map (xs : List (Expr ν)) :
    t.renderings xs = xs.map fun x => (t.piece x).rendering := by
  induction xs with
  | nil => rw [renderings, List.map_nil]
  | cons x xs ih => rw [renderings, ih, List.map_cons]

theorem elements_eq_map (xs : List (Expr ν)) :
    t.elements xs = xs.map fun x => (t.piece x).element := by
  induction xs with
  | nil => rw [elements, List.map_nil]
  | cons x xs ih => rw [elements, ih, List.map_cons]

end Target

end Formulary
