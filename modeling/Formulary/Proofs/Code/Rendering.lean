import Formulary.Proofs.Code.Legible

namespace Formulary

open Interpretation

variable {ν K : Type} [Number ν] [Field K]

theorem Interpretation.map_signed_false (v : Option K) : v.map (signed false) = v := Option.map_id'

/-- The code reads back with the value, and the operand of a leading sign with the opposite one. -/
structure Rendering.Means (R : Reading ν K) (r : Rendering) (v : Option K) : Prop where
  readable : Code.Readable r.binding r.code
  value : R.value r.code = v
  magnitude : ∀ m b, r.magnitude = some (m, b) → Code.Readable b m ∧ (R.value m).map Neg.neg = v

/-- What stands above the line over what stands below it, with the sign. -/
structure Fraction.Means (R : Reading ν K) (f : Fraction) (v : Option K) : Prop where
  top : ∀ r ∈ f.top, r.Means R (R.value r.code)
  bottom : ∀ r ∈ f.bottom, r.Means R (R.value r.code)
  value : (divide (R.product (f.top.map Rendering.code))
    (R.product (f.bottom.map Rendering.code))).map (signed f.negated) = v

namespace Rendering

variable {R : Reading ν K} {r : Rendering} {v w : Option K}

theorem Means.of_code {c : Code} {b : Binding} (hc : Code.Readable b c) (hv : R.value c = v) :
    Means R ⟨c, b, none⟩ v := by
  refine ⟨hc, hv, ?_⟩
  rintro m d ⟨⟩

theorem Means.legible (h : r.Means R v) : r.Legible :=
  ⟨h.readable, fun m b hm => (h.magnitude m b hm).1⟩

theorem Means.within (h : r.Means R v) (b : Binding) :
    Code.Readable b (r.within b) ∧ R.value (r.within b) = v :=
  ⟨h.readable.wrap, (R.value_wrap _ _ _).trans h.value⟩

theorem Means.element (h : r.Means R v) : Code.Readable .sum r.code := h.legible.element

theorem Means.singleton (h : r.Means R v) :
    (∀ s ∈ [r], s.Means R (R.value s.code)) ∧ R.product ([r].map code) = v := by
  refine ⟨?_, (R.product_singleton r.code).trans h.value⟩
  intro s hs
  rw [List.mem_singleton.mp hs, h.value]
  exact h

variable [WrittenNumber ν]

theorem chain_means {rs : List Rendering} (h : ∀ r ∈ rs, r.Means R (R.value r.code)) :
    Code.Readable .product (chain rs) ∧ R.value (chain rs) = R.product (rs.map code) := by
  have hproduct (rs : List Rendering) (h : ∀ r ∈ rs, r.Means R (R.value r.code)) :
      R.product (rs.map (·.within .power)) = R.product (rs.map code) := by
    induction rs with
    | nil => rfl
    | cons r rs ih =>
        rw [List.map_cons, List.map_cons, Reading.product_cons, Reading.product_cons,
          ih fun s hs => h s (List.mem_cons_of_mem _ hs), ((h r List.mem_cons_self).within .power).2]
  refine ⟨chain_readable fun r hr => (h r hr).legible.operand, ?_⟩
  cases rs with
  | nil => exact (R.one_readable .product).2
  | cons r rs =>
      rw [chain, R.value_chain]
      exact hproduct (r :: rs) h

variable [CharZero K] (hR : R.meaning.Lawful ν R.target)

include hR

theorem Means.negative (h : r.Means R v) : r.negative.Means R (v.map Neg.neg) := by
  have hlegible := h.legible.negative
  refine ⟨hlegible.readable, ?_, fun m b hm => ⟨hlegible.magnitude m b hm, ?_⟩⟩
  · rw [Rendering.negative]
    split
    · rw [Reading.value_negated hR, h.value]
    · rw [R.value_negative, R.value_paren, h.value]
  · rw [Rendering.negative] at hm
    split at hm <;> obtain ⟨rfl, rfl⟩ := hm
    · rw [h.value]
    · rw [R.value_paren, h.value]

omit hR in
theorem Means.addTo (h : r.Means R w) {left : Code} (hl : Code.Readable .sum left)
    (hv : R.value left = v) :
    Code.Readable .sum (addTo left r) ∧ R.value (addTo left r) = Option.map₂ (· + ·) v w := by
  refine ⟨h.legible.addTo hl, ?_⟩
  rw [Rendering.addTo]
  split
  · next m b hm => rw [R.value_sub, R.value_wrap, (h.magnitude m b hm).2, hv]
  · rw [R.value_add, (h.within .product).2, hv]

omit hR in
theorem sum_means {I : Interpretation K} {rs : List Rendering} {ts : List (Expr ν)}
    (h : List.Forall₂ (fun r t => r.Means R (I.value t)) rs ts) (hne : ts ≠ []) :
    (sum rs).Means R (I.sum ts) := by
  have hfold (left : Code) (hl : Code.Readable .sum left) (rs : List Rendering) (ts : List (Expr ν))
      (h : List.Forall₂ (fun r t => r.Means R (I.value t)) rs ts) :
      Code.Readable .sum (rs.foldl addTo left) ∧
          R.value (rs.foldl addTo left) = Option.map₂ (· + ·) (R.value left) (I.sum ts) := by
    induction h generalizing left with
    | nil => exact ⟨hl, by rw [I.sum_nil, Option.map₂_right_identity add_zero, List.foldl_nil]⟩
    | cons hr _ ih =>
        obtain ⟨hleft, hvalue⟩ := hr.addTo hl rfl
        obtain ⟨hall, hsum⟩ := ih _ hleft
        refine ⟨hall, ?_⟩
        rw [List.foldl_cons, hsum, hvalue, I.sum_cons, Option.map₂_assoc add_assoc]
  cases h with
  | nil => exact absurd rfl hne
  | cons hr hrs =>
      obtain ⟨hall, hvalue⟩ := hfold _ hr.element _ _ hrs
      exact .of_code hall (by rw [hvalue, I.sum_cons, hr.value])

end Rendering

namespace Fraction

variable {R : Reading ν K} {f g : Fraction} {v w : Option K}

theorem means_ofRendering {r : Rendering} (h : r.Means R v) : (ofRendering r).Means R v := by
  obtain ⟨htop, hproduct⟩ := h.singleton
  refine ⟨htop, by rintro s ⟨⟩, ?_⟩
  rw [ofRendering, hproduct, List.map_nil, Reading.product_nil, divide_one, map_signed_false]

theorem means_one : one.Means R (some 1) := by
  refine ⟨by rintro s ⟨⟩, by rintro s ⟨⟩, ?_⟩
  rw [one, List.map_nil, Reading.product_nil, divide_one, map_signed_false]

theorem means_below {r : Rendering} (h : r.Means R v) :
    (⟨false, [], [r]⟩ : Fraction).Means R (v.bind reciprocal) := by
  obtain ⟨hbottom, hproduct⟩ := h.singleton
  refine ⟨by rintro s ⟨⟩, hbottom, ?_⟩
  rw [hproduct, List.map_nil, Reading.product_nil, divide, Option.map₂_left_identity one_mul,
    map_signed_false]

theorem Means.flip (h : f.Means R v) : f.flip.Means R (v.map Neg.neg) := by
  refine ⟨h.top, h.bottom, ?_⟩
  rw [← h.value, Option.map_map]
  congr 1
  funext a
  cases hn : f.negated <;> simp [Fraction.flip, signed, hn]

theorem Means.append (hf : f.Means R v) (hg : g.Means R w) :
    (f.append g).Means R (Option.map₂ (· * ·) v w) := by
  have hsigned (a b : Option K) : (Option.map₂ (· * ·) a b).map (signed (f.negated ^^ g.negated)) =
      Option.map₂ (· * ·) (a.map (signed f.negated)) (b.map (signed g.negated)) := by
    cases a <;> cases b <;> cases f.negated <;> cases g.negated <;> simp [signed]
  refine ⟨?_, ?_, ?_⟩
  · intro r hr
    exact (List.mem_append.mp hr).elim (hf.top r) (hg.top r)
  · intro r hr
    exact (List.mem_append.mp hr).elim (hf.bottom r) (hg.bottom r)
  · simp only [Fraction.append, List.map_append, Reading.product_append]
    rw [divide_mul, hsigned, hf.value, hg.value]

variable [WrittenNumber ν] [CharZero K] (hR : R.meaning.Lawful ν R.target)

omit [CharZero K] in
theorem below_means {rs : List Rendering} (h : ∀ r ∈ rs, r.Means R (R.value r.code)) :
    Code.Readable .unary (below rs) ∧ R.value (below rs) = R.product (rs.map Rendering.code) := by
  have hparen : R.value (.paren (Rendering.chain rs)) = R.product (rs.map Rendering.code) := by
    rw [R.value_paren, (Rendering.chain_means h).2]
  refine ⟨below_readable fun r hr => (h r hr).legible.operand, ?_⟩
  unfold below
  split
  · next r =>
      rw [((h r List.mem_cons_self).within .power).2, List.map_cons, List.map_nil,
        R.product_singleton]
  · exact hparen

include hR

theorem Means.body (h : f.Means R v) :
    f.body.Means R (divide (R.product (f.top.map Rendering.code))
      (R.product (f.bottom.map Rendering.code))) := by
  obtain ⟨negated, top, bottom⟩ := f
  have htop := Rendering.chain_means h.top
  have hbottom := below_means h.bottom
  rw [Fraction.body]
  split
  · next hb ht =>
    simp only at hb ht
    subst hb ht
    obtain ⟨hone, hvalue⟩ := R.one_readable .atom
    simpa [Rendering.atom] using Rendering.Means.of_code hone hvalue
  · next r hb ht =>
    simp only at hb ht
    subst hb ht
    simpa [Option.map₂_right_identity mul_one] using h.top r List.mem_cons_self
  · next hb _ _ =>
    simp only at hb
    subst hb
    simpa using Rendering.Means.of_code htop.1 htop.2
  · refine .of_code (htop.1.div hbottom.1) ?_
    rw [Reading.value_div hR, htop.2, hbottom.2]

theorem Means.rendering (h : f.Means R v) : f.rendering.Means R v := by
  have hbody := h.body hR
  rw [Fraction.rendering, ← h.value]
  cases f.negated with
  | false =>
      rw [if_neg Bool.false_ne_true, map_signed_false]
      exact hbody
  | true =>
      rw [if_pos rfl]
      exact hbody.negative hR

end Fraction

end Formulary
