import Formulary.Proofs.Code.Names

namespace Formulary

/-- The code reads back wherever its strength lets it stand, and so does the operand of a leading
sign. -/
structure Rendering.Legible (r : Rendering) : Prop where
  readable : Code.Readable r.binding r.code
  magnitude : ∀ m b, r.magnitude = some (m, b) → Code.Readable b m

/-- What stands below the line need only be an operand, since it never stands first. -/
structure Fraction.Legible (f : Fraction) : Prop where
  top : ∀ r ∈ f.top, r.Legible
  bottom : ∀ r ∈ f.bottom, Code.Readable .unary (r.within .power)

structure Piece.Legible (p : Piece) : Prop where
  rendering : p.rendering.Legible
  fraction : p.fraction.Legible
  element : Code.Readable .sum p.element

namespace Rendering

variable {r : Rendering}

theorem Legible.of_code {c : Code} {b : Binding} (hc : Code.Readable b c) : Legible ⟨c, b, none⟩ := by
  refine ⟨hc, ?_⟩
  rintro m d ⟨⟩

theorem Legible.within (h : r.Legible) (b : Binding) : Code.Readable b (r.within b) := h.readable.wrap

theorem Legible.element (h : r.Legible) : Code.Readable .sum r.code :=
  h.readable.mono (by cases r.binding <;> decide)

theorem Legible.operand (h : r.Legible) : Code.Readable .unary (r.within .power) :=
  (h.within .power).mono (by decide)

theorem chain_readable {rs : List Rendering} (h : ∀ r ∈ rs, Code.Readable .unary (r.within .power)) :
    Code.Readable .product (chain rs) := by
  have hfold (c : Code) (hc : Code.Readable .product c) (cs : List Code)
      (hcs : ∀ d ∈ cs, Code.Readable .unary d) : Code.Readable .product (Code.chain c cs) := by
    induction cs generalizing c with
    | nil => exact hc
    | cons d ds ih =>
      exact ih (.mul c d) (hc.mul (hcs d List.mem_cons_self)) fun e he =>
        hcs e (List.mem_cons_of_mem _ he)
  cases rs with
  | nil => exact Code.readable_number Decimal.Literal.plain_one
  | cons r rs =>
      refine hfold _ ((h r List.mem_cons_self).mono (by decide)) _ ?_
      intro d hd
      obtain ⟨s, hs, rfl⟩ := List.mem_map.mp hd
      exact h s (List.mem_cons_of_mem _ hs)

theorem Legible.negative (h : r.Legible) : r.negative.Legible := by
  rw [Rendering.negative]
  split
  · next hle =>
    refine ⟨h.readable.negated hle, ?_⟩
    rintro m b ⟨⟩
    exact h.readable
  · refine ⟨(h.element.paren.mono (by decide)).negative, ?_⟩
    rintro m b ⟨⟩
    exact h.element.paren

theorem Legible.addTo (h : r.Legible) {left : Code} (hl : Code.Readable .sum left) :
    Code.Readable .sum (addTo left r) := by
  rw [Rendering.addTo]
  split
  · next m b hm => exact hl.sub (h.magnitude m b hm).wrap
  · exact hl.add (h.within .product)

theorem sum_legible {rs : List Rendering} (h : ∀ r ∈ rs, r.Legible) (hne : rs ≠ []) :
    (sum rs).Legible := by
  have hfold (left : Code) (hl : Code.Readable .sum left) (rs : List Rendering)
      (h : ∀ r ∈ rs, r.Legible) : Code.Readable .sum (rs.foldl Rendering.addTo left) := by
    induction rs generalizing left with
    | nil => exact hl
    | cons r rs ih =>
        exact ih _ ((h r List.mem_cons_self).addTo hl) fun s hs => h s (List.mem_cons_of_mem _ hs)
  cases rs with
  | nil => exact absurd rfl hne
  | cons r rs =>
      exact .of_code (hfold _ (h r List.mem_cons_self).element rs fun s hs =>
        h s (List.mem_cons_of_mem _ hs))

end Rendering

namespace Fraction

variable {f g : Fraction} {r : Rendering}

theorem legible_ofRendering (h : r.Legible) : (ofRendering r).Legible :=
  ⟨List.forall_mem_singleton.mpr h, by rintro s ⟨⟩⟩

theorem legible_one : one.Legible := ⟨by rintro s ⟨⟩, by rintro s ⟨⟩⟩

theorem legible_below (h : r.Legible) : (⟨false, [], [r]⟩ : Fraction).Legible :=
  ⟨by rintro s ⟨⟩, List.forall_mem_singleton.mpr h.operand⟩

theorem Legible.flip (h : f.Legible) : f.flip.Legible := ⟨h.top, h.bottom⟩

theorem Legible.append (hf : f.Legible) (hg : g.Legible) : (f.append g).Legible :=
  ⟨List.forall_mem_append.mpr ⟨hf.top, hg.top⟩, List.forall_mem_append.mpr ⟨hf.bottom, hg.bottom⟩⟩

theorem below_readable {rs : List Rendering} (h : ∀ r ∈ rs, Code.Readable .unary (r.within .power)) :
    Code.Readable .unary (below rs) := by
  have hparen : Code.Readable .unary (.paren (Rendering.chain rs)) :=
    ((Rendering.chain_readable h).mono (by decide)).paren.mono (by decide)
  unfold below
  split
  · exact h _ List.mem_cons_self
  · exact hparen

theorem Legible.body (h : f.Legible) : f.body.Legible := by
  obtain ⟨negated, top, bottom⟩ := f
  have htop : Code.Readable .product (Rendering.chain top) := Rendering.chain_readable fun r hr =>
    (h.top r hr).operand
  rw [Fraction.body]
  split
  · exact .of_code (Code.readable_number Decimal.Literal.plain_one)
  · next ht =>
    simp only at ht
    subst ht
    exact h.top _ List.mem_cons_self
  · exact .of_code htop
  · exact .of_code (htop.div (below_readable h.bottom))

theorem Legible.rendering (h : f.Legible) : f.rendering.Legible := by
  rw [Fraction.rendering]
  split
  · exact h.body.negative
  · exact h.body

end Fraction

namespace Piece

theorem legible_ofRendering {r : Rendering} (h : r.Legible) : (ofRendering r).Legible :=
  ⟨h, Fraction.legible_ofRendering h, h.element⟩

theorem legible_ofFraction {f : Fraction} (h : f.Legible) : (ofFraction f).Legible :=
  ⟨h.rendering, h, h.rendering.element⟩

end Piece

namespace Target

variable {t : Target} (ht : t.Invertible)

include ht

theorem power_legible {b e : Rendering} (hb : b.Legible) (he : e.Legible) (half : Bool) :
    (t.power b e half).Legible := by
  rw [power]
  split
  · refine .of_code (Code.readable_call (ht.callables _ (by simp [callables])) ?_)
    exact List.forall_mem_singleton.mpr hb.element
  · exact .of_code ((hb.within .atom).power (he.within .unary))

theorem listPiece_legible {cs : List Code} (h : ∀ c ∈ cs, Code.Readable .sum c) :
    (t.listPiece cs).Legible := by
  have hlist := Code.readable_list h
  have hcode : Code.Readable .atom (t.listPiece cs).rendering.code := by
    simp only [listPiece, Rendering.atom]
    split
    · next c hc =>
      refine Code.readable_call (ht.callables _ (by simp [callables, hc])) ?_
      exact List.forall_mem_singleton.mpr (hlist.mono (by decide))
    · exact hlist
  have hr : (t.listPiece cs).rendering.Legible := .of_code hcode
  exact ⟨hr, Fraction.legible_ofRendering hr, hlist.mono (by decide)⟩

end Target

end Formulary
