import Formulary.Proofs.Code.Denotation
import Formulary.Proofs.Request.Description

namespace Formulary

open Number Interpretation

namespace Target

variable {ν : Type} [Number ν] [WrittenNumber ν] (t : Target)

theorem normal_treeOfImaginary (s : String) : (treeOfImaginary s : Expr ν).Normal := by
  rw [treeOfImaginary]
  split
  · exact Expr.normal_symbol "I"
  · exact Expr.normal_mul (List.forall_mem_cons.mpr
      ⟨Expr.normal_ofNumber _, List.forall_mem_singleton.mpr (Expr.normal_symbol "I")⟩)

theorem normal_treeOfName (s : String) : (t.treeOfName s : Expr ν).Normal := by
  rw [treeOfName]
  split
  · exact Expr.normal_ofNumber _
  · split
    · exact Expr.normal_symbol _
    · split
      · exact Expr.normal_ofNumber _
      · exact Expr.normal_symbol _

theorem normal_treeOfCall (f : String) {xs : List (Expr ν)} (h : ∀ x ∈ xs, x.Normal) :
    (t.treeOfCall f xs).Normal := by
  have hplain (head : String) : (.call head xs : Expr ν).Normal := Expr.normal_call head h
  unfold treeOfCall
  simp only
  split
  · next x =>
    have hx : x.Normal := h x List.mem_cons_self
    split
    · exact Expr.normal_sqrt hx
    · split
      · exact hx
      · exact hplain _
  · next y x =>
    split
    · refine Expr.normal_call _
        (List.forall_mem_cons.mpr ⟨h x (by simp), List.forall_mem_singleton.mpr (h y (by simp))⟩)
    · exact hplain _
  · exact hplain _

theorem normal_treeOfQuotient {x y : Expr ν} (hx : x.Normal) (hy : y.Normal) :
    (treeOfQuotient x y).Normal := by
  have hproduct : (Expr.mul [x, .power y (.number (.ofInt (-1)))]).Normal :=
    Expr.normal_mul (List.forall_mem_cons.mpr
    ⟨hx, List.forall_mem_singleton.mpr (Expr.normal_power hy (Expr.normal_ofNumber _))⟩)
  unfold treeOfQuotient
  split
  · split
    · exact Expr.normal_ratio _ _
    · exact hproduct
  · exact hproduct

theorem normal_treeOfCode (c : Code) : (t.treeOfCode c : Expr ν).Normal := by
  have hmap (cs : List Code) (ih : ∀ c ∈ cs, (t.treeOfCode c : Expr ν).Normal) :
      ∀ x ∈ (cs.map t.treeOfCode : List (Expr ν)), x.Normal := List.forall_mem_map.mpr ih
  have hpair {x y : Expr ν} (hx : x.Normal) (hy : y.Normal) : ∀ z ∈ [x, y], z.Normal :=
    List.forall_mem_cons.mpr ⟨hx, List.forall_mem_singleton.mpr hy⟩
  induction c using Code.induct with
  | number s => exact Expr.normal_ofNumber _
  | imaginary s => exact normal_treeOfImaginary s
  | name s => exact t.normal_treeOfName s
  | call f cs ih =>
      rw [treeOfCode_call]
      exact t.normal_treeOfCall f (hmap cs ih)
  | list cs ih =>
      rw [treeOfCode_list]
      exact Expr.normal_list (hmap cs ih)
  | paren c ih => exact ih
  | power b e ihb ihe => exact Expr.normal_power ihb ihe
  | negative c ih => exact Expr.normal_neg ih
  | positive c ih => exact ih
  | mul l r ihl ihr => exact Expr.normal_mul (hpair ihl ihr)
  | div l r ihl ihr => exact normal_treeOfQuotient ihl ihr
  | add l r ihl ihr => exact Expr.normal_add (hpair ihl ihr)
  | sub l r ihl ihr => exact Expr.normal_add (hpair ihl (Expr.normal_neg ihr))

end Target

namespace Expr

def IntegerNumeral : Expr Float → Prop
  | .number n => Number.isInteger n.numerator = true ∧ Number.isInteger n.denominator = true
  | _ => True

theorem toRat?_ratio_of_integers {p q : Float} (hp : Number.isInteger p = true)
    (hq : Number.isInteger q = true) :
    (Numeral.ratio p q).toRat? = (⟨p, q⟩ : Numeral Float).toRat? := by
  obtain ⟨a, ha⟩ := Option.isSome_iff_exists.mp hp
  obtain ⟨b, hb⟩ := Option.isSome_iff_exists.mp hq
  have hpa := toRat?_of_toInt? ha
  have hqb := toRat?_of_toInt? hb
  by_cases hb0 : b = 0
  · have hzero : isZero q = true := WrittenNumber.isZero_of_toRat? (by rw [hqb, hb0, Int.cast_zero])
    have hnan : Number.toRat? (nan : Float) = none := by decide +kernel
    rw [Numeral.ratio, if_pos hzero, toRat?_ofNumber, hnan, Numeral.toRat?, hpa, hqb, hb0]
    exact (if_pos Int.cast_zero).symm
  · rw [toRat?_ratio hpa hqb hb0, Numeral.toRat?_of_parts hpa hqb (by exact_mod_cast hb0)]

/-- Putting a tree with integers together by the constructors keeps its value. -/
theorem value_rebuilt {K : Type} [Field K] [CharZero K] (I : Interpretation K) {x : Expr Float}
    (h : x.Every IntegerNumeral) : I.value x.rebuilt = I.value x := by
  have hall (xs : List (Expr Float))
      (ih : ∀ x ∈ xs, x.Every IntegerNumeral → I.value x.rebuilt = I.value x)
      (h : ∀ x ∈ xs, x.Every IntegerNumeral) : I.values (rebuiltAll xs) = I.values xs := by
    induction xs with
    | nil => rfl
    | cons x xs ihxs =>
        rw [rebuiltAll, values_cons, values_cons, ih x List.mem_cons_self (h x List.mem_cons_self),
          ihxs (fun y hy => ih y (List.mem_cons_of_mem _ hy)) fun y hy =>
            h y (List.mem_cons_of_mem _ hy)]
  induction x with
  | number n =>
    rw [rebuilt, ratio, value_number, value_number, toRat?_ratio_of_integers h.here.1 h.here.2]
  | symbol s => rfl
  | pattern s k => rfl
  | sum xs ih =>
    rw [rebuilt, value_add, value_sum, Interpretation.sum, Interpretation.sum, hall xs ih h.parts]
  | product xs ih =>
    rw [rebuilt, value_mul, value_product, Interpretation.product, Interpretation.product,
      hall xs ih h.parts]
  | call head xs ih => rw [rebuilt, value_call, value_call, hall xs ih h.parts]
  | list xs ih => rw [rebuilt, value_list, value_list, hall xs ih h.parts]
  | power b e ihb ihe =>
      rw [rebuilt, value_power, value_power, ihb (h.parts b List.mem_cons_self),
        ihe (h.parts e (List.mem_cons_of_mem _ List.mem_cons_self))]
  | negation x ih => rw [rebuilt, value_neg, value_negation, ih (h.parts x List.mem_cons_self)]

/-- Whatever is built is normal, from a description and from code for any target; a normal tree is
what its own parts build; and a tree built of a description with integers in it has a value exactly
where the description as it is written has one, and the same. -/
theorem normal_built :
    (∀ (j : Json Float) (x : Expr Float), ofJson j = .ok x → x.Normal) ∧
    (∀ (t : Target) (text : String) (x : Expr Float), t.read text = .ok x → x.Normal) ∧
    (∀ x : Expr Float, x.Normal → x.rebuilt = x) ∧
    ∀ j : Json Float, ((∃ x, ofJson j = .ok x) ↔ ∃ y, Describes j y) ∧
      ∀ x y, ofJson j = .ok x → Describes j y → y.Every IntegerNumeral →
        ∀ (K : Type) [Field K] [CharZero K] (I : Interpretation K), I.value x = I.value y := by
  refine ⟨?_, ?_, fun x => rebuilt_of_normal, fun j => ⟨?_, ?_⟩⟩
  · intro j x h
    obtain ⟨y, -, rfl⟩ := ofJson_eq_ok_iff.mp h
    exact normal_rebuilt y
  · intro t text x h
    rw [Target.read] at h
    cases hparse : Code.parse text with
    | error e =>
        rw [hparse] at h
        cases h
    | ok c =>
        rw [hparse] at h
        cases h
        exact t.normal_treeOfCode c
  · constructor
    · rintro ⟨x, hx⟩
      obtain ⟨y, hy, -⟩ := ofJson_eq_ok_iff.mp hx
      exact ⟨y, hy⟩
    · rintro ⟨y, hy⟩
      exact ⟨y.rebuilt, ofJson_eq_ok_iff.mpr ⟨y, hy, rfl⟩⟩
  · intro x y hx hy hintegers K _ _ I
    have hbuilt : ofJson j = .ok y.rebuilt := ofJson_eq_ok_iff.mpr ⟨y, hy, rfl⟩
    rw [Except.ok.inj (hx.symm.trans hbuilt), value_rebuilt I hintegers]

end Expr

end Formulary
