import Formulary.Proofs.Code.Form
import Formulary.Proofs.Code.Legible
import Formulary.Proofs.Number.Order

namespace Formulary

open Number

namespace Target

/-- What trees may hold for their code to be read: sums of at least one term, names that tables do
not inherit, heads that are read back, and no patterns. -/
def Writes {ν : Type} (t : Target) : Expr ν → Prop
  | .symbol s => Table.isInherited s = false
  | .sum ts => ts ≠ []
  | .call h _ => t.IsHead h
  | .pattern _ _ => False
  | _ => True

theorem unsignedCode_cases {x : Float} (h : isNegative x = false) :
    (∃ l : Decimal.Literal, l.Plain ∧ unsignedCode x = .number l.text) ∨
      ∃ s, Lexeme.isIdentifier s = true ∧ unsignedCode x = .name s := by
  rw [unsignedCode, isFinite]
  cases hx : Number.toRat? x with
  | some q =>
      have hq : 0 ≤ q := by
        rw [Bool.eq_false_iff, ne_eq, Number.isNegative_iff hx] at h
        exact not_lt.mp h
      obtain ⟨l, hl, hchars, -⟩ := exists_literal_text hx hq
      refine .inl ⟨l, hl, ?_⟩
      rw [Option.isSome_some, if_pos rfl, Decimal.Literal.text, ← hchars, String.ofList_toList]
  | none =>
      rw [Option.isSome_none, if_neg Bool.false_ne_true]
      rcases text_of_not_finite hx h with htext | htext <;> rw [htext]
      · exact .inr ⟨"NaN", by decide, rfl⟩
      · exact .inr ⟨"Infinity", by decide, rfl⟩

theorem unsignedCode_readable {x : Float} (h : isNegative x = false) (b : Binding) :
    Code.Readable b (unsignedCode x) := by
  rcases unsignedCode_cases h with ⟨l, hl, hcode⟩ | ⟨s, hs, hcode⟩ <;> rw [hcode]
  · exact Code.readable_number hl
  · exact Code.readable_name (Bool.and_eq_true_iff.mp hs).1

theorem numberCode_readable (x : Float) : Code.Readable .unary (numberCode x) := by
  rw [numberCode]
  split
  · next h => exact (unsignedCode_readable (Double.isNegative_neg h) .unary).negative
  · next h => exact unsignedCode_readable (Bool.eq_false_of_not_eq_true h) .unary

theorem numberCode_of_not_negative {x : Float} (h : isNegative x = false) :
    numberCode x = unsignedCode x := by
  rw [numberCode, h, if_neg Bool.false_ne_true]

variable {t : Target}

section Numerals

variable (ht : t.Conventional)

include ht

theorem unsignedNumeral_legible {n : Numeral Float} (h : isNegative n.numerator = false) :
    (t.unsignedNumeral n).Legible := by
  have hnumerator := unsignedCode_readable h .atom
  rw [← numberCode_of_not_negative h] at hnumerator
  rw [unsignedNumeral]
  split
  · refine .of_code ?_
    rw [Code.ofText_of_isName ht.isName_infinity]
    exact Code.readable_name ht.isName_infinity
  · split
    · exact .of_code hnumerator
    · exact .of_code ((hnumerator.mono (by decide)).div (numberCode_readable _))

theorem numeral_legible (n : Numeral Float) : (t.numeral n).Legible := by
  rw [numeral]
  split
  · refine .of_code ?_
    rw [Code.ofText_of_isName ht.isName_nan]
    exact Code.readable_name ht.isName_nan
  · split
    · next hsign =>
        exact (unsignedNumeral_legible ht (n := n.neg) (Double.isNegative_neg_of_signBit hsign)).negative
    · next hsign =>
        exact unsignedNumeral_legible ht
          (Double.isNegative_of_signBit (Bool.eq_false_of_not_eq_true hsign))

theorem numeralFraction_legible (n : Numeral Float) : (t.numeralFraction n).Legible := by
  have habs := Double.isNegative_abs n.numerator
  have hmagnitude : (Rendering.atom (numberCode (Number.abs n.numerator))).Legible := by
    rw [numberCode_of_not_negative habs]
    exact .of_code (unsignedCode_readable habs .atom)
  have hunless {c : Prop} [Decidable c] {r : Rendering} (hr : r.Legible) :
      ∀ s ∈ (if c then [] else [r]), s.Legible := by
    split
    · rintro s ⟨⟩
    · exact List.forall_mem_singleton.mpr hr
  simp only [numeralFraction]
  split
  · exact Fraction.legible_ofRendering (numeral_legible ht n)
  · split
    · exact ⟨hunless (unsignedNumeral_legible ht habs), by rintro s ⟨⟩⟩
    · exact ⟨hunless hmagnitude, List.forall_mem_singleton.mpr (numberCode_readable _)⟩

theorem numeralPower_legible {b : Rendering} (hb : b.Legible) (n : Numeral Float) :
    (t.numeralPower b n).Legible :=
  power_legible ht.toInvertible hb (numeral_legible ht n) _

theorem reciprocal_legible {b : Rendering} (hb : b.Legible) (n : Numeral Float) :
    (t.reciprocal b n).Legible := by
  have hplain {c : Prop} [Decidable c] (m : Numeral Float) :
      (if c then b else t.numeralPower b m).Legible := by
    split
    · exact hb
    · exact numeralPower_legible ht hb m
  simp only [reciprocal]
  split
  · exact (Fraction.legible_below (hplain _)).rendering
  · exact hplain _

end Numerals

section Lists

variable {xs : List (Expr Float)} (h : ∀ x ∈ xs, (t.piece x).Legible)

include h

theorem renderings_legible : ∀ r ∈ t.renderings xs, r.Legible := by
  rw [renderings_eq_map]
  exact List.forall_mem_map.mpr fun x hx => (h x hx).rendering

theorem fractions_legible : (t.fractions xs).Legible := by
  induction xs with
  | nil =>
      rw [fractions]
      exact Fraction.legible_one
  | cons x xs ih =>
      rw [fractions]
      exact (h x List.mem_cons_self).fraction.append (ih fun y hy => h y (List.mem_cons_of_mem _ hy))

theorem elements_readable : ∀ c ∈ t.elements xs, Code.Readable .sum c := by
  rw [elements_eq_map]
  exact List.forall_mem_map.mpr fun x hx => (h x hx).element

end Lists

theorem piece_legible (ht : t.Conventional) {x : Expr Float} (hx : x.Every t.Writes) :
    (t.piece x).Legible := by
  induction x using Expr.induct_forms with
  | number n =>
      rw [piece]
      exact ⟨numeral_legible ht n, numeralFraction_legible ht n, (numeral_legible ht n).element⟩
  | symbol s =>
      rw [piece]
      exact Piece.legible_ofRendering
        (.of_code (symbolCode_spec ht.toInvertible Float hx.here .atom).1)
  | pattern s h => exact absurd hx.here (by simp [Writes])
  | sum ts ih =>
      have hne : ts ≠ [] := hx.here
      rw [piece]
      refine Piece.legible_ofRendering
        (Rendering.sum_legible (renderings_legible fun t hmem => ih t hmem (hx.parts t hmem)) ?_)
      rwa [renderings_eq_map, ne_eq, List.map_eq_nil_iff]
  | product fs ih =>
      rw [piece]
      exact Piece.legible_ofFraction (fractions_legible fun f hmem => ih f hmem (hx.parts f hmem))
  | call h args ih =>
      have hargs := renderings_legible fun a hmem => ih a hmem (hx.parts a hmem)
      rw [piece]
      refine Piece.legible_ofRendering (.of_code (callCode_readable ht.toInvertible hx.here _ ?_))
      exact List.forall_mem_map.mpr fun r hr => (hargs r hr).element
  | list items ih =>
      rw [piece]
      exact listPiece_legible ht.toInvertible (elements_readable fun i hmem =>
        ih i hmem (hx.parts i hmem))
  | minusProduct fs ih =>
      have hproduct := ih (hx.parts (.product fs) List.mem_cons_self)
      rw [piece_minusProduct]
      exact Piece.legible_ofFraction hproduct.fraction.flip
  | negation x hproduct ih =>
      have hpiece := ih (hx.parts x List.mem_cons_self)
      have hnegative := (Rendering.Legible.of_code (hpiece.rendering.within .power)).negative
      rw [piece_negation t hproduct]
      exact ⟨hnegative, hpiece.fraction.flip, hnegative.element⟩
  | numeralPower b n ih =>
      have hbase := (ih (hx.parts b Expr.base_mem_children)).rendering
      rw [piece]
      split
      · exact Piece.legible_ofFraction (Fraction.legible_below (reciprocal_legible ht hbase n))
      · exact Piece.legible_ofRendering (numeralPower_legible ht hbase n)
  | power b e hnumber ihb ihe =>
      have hbase := (ihb (hx.parts b Expr.base_mem_children)).rendering
      have hexponent := (ihe (hx.parts e Expr.exponent_mem_children)).rendering
      rw [piece_power t b hnumber]
      exact Piece.legible_ofRendering (power_legible ht.toInvertible hbase hexponent false)

/-- Emitted code is read as the code that was put together. -/
theorem parse_emit {t : Target} (ht : t.IsPreset) {x : Expr Float} (hx : x.Every t.Writes) :
    Code.parse (t.emit x).code = .ok (t.code x) :=
  (piece_legible ht.conventional hx).rendering.element.parse

end Target

end Formulary
