import Formulary.Proofs.Code.Emission
import Formulary.Proofs.Code.Form

namespace Formulary

open Number Interpretation

/-- A negative numeral in an exponent is reduced without rounding. -/
def Expr.ReducibleExponent {ν : Type} [Number ν] : Expr ν → Prop
  | .power _ (.number n) => n.isNegative = true → n.Reducible
  | _ => True

variable {ν K : Type} [Number ν] [Field K]

/-- What trees may hold to be emitted: finite numerals with positive denominators, sums of at least
one term, names that tables do not inherit, heads that are read back, and no patterns. -/
def Target.Emits (t : Target) : Expr ν → Prop
  | .number n => n.Proper
  | .symbol s => Table.isInherited s = false
  | .sum ts => ts ≠ []
  | .call h _ => t.IsHead h
  | .pattern _ _ => False
  | _ => True

/-- The same meanings of powers, calls and lists, and of each symbol under the name that it is read
back as. -/
structure Reading.Matches (R : Reading ν K) (I : Interpretation K) (x : Expr ν) : Prop where
  power : R.meaning.power = I.power
  call : R.meaning.call = I.call
  list : R.meaning.list = I.list
  symbol : ∀ s ∈ x.symbolOccurrences, R.meaning.symbol (R.target.readName s) = I.symbol s
  emits : x.Every R.target.Emits
  exponents : x.Every Expr.ReducibleExponent

omit [Field K] in
theorem Reading.Matches.part {R : Reading ν K} {I : Interpretation K} {x c : Expr ν}
    (h : R.Matches I x) (hc : c ∈ x.children) : R.Matches I c where
  power := h.power
  call := h.call
  list := h.list
  symbol s hs := h.symbol s (Expr.mem_symbolOccurrences_of_mem_children hc hs)
  emits := h.emits.parts c hc
  exponents := h.exponents.parts c hc

structure Piece.Means (R : Reading ν K) (p : Piece) (v : Option K) : Prop where
  rendering : p.rendering.Means R v
  fraction : p.fraction.Means R v
  element : Code.Readable .sum p.element ∧ R.value p.element = v

namespace Piece

variable {R : Reading ν K} {v : Option K}

theorem means_ofRendering {r : Rendering} (h : r.Means R v) : (ofRendering r).Means R v :=
  ⟨h, Fraction.means_ofRendering h, h.element, h.value⟩

theorem means_ofFraction [WrittenNumber ν] [CharZero K] (hR : R.meaning.Lawful ν R.target)
    {f : Fraction} (h : f.Means R v) : (ofFraction f).Means R v :=
  ⟨h.rendering hR, h, (h.rendering hR).element, (h.rendering hR).value⟩

end Piece

namespace Target

variable {R : Reading ν K} {I : Interpretation K}

theorem renderings_mean {xs : List (Expr ν)} (h : ∀ x ∈ xs, (R.target.piece x).Means R (I.value x)) :
    List.Forall₂ (fun r x => r.Means R (I.value x)) (R.target.renderings xs) xs := by
  rw [renderings_eq_map, List.forall₂_map_left_iff]
  exact List.forall₂_same.mpr fun x hx => (h x hx).rendering

theorem fractions_mean {xs : List (Expr ν)} (h : ∀ x ∈ xs, (R.target.piece x).Means R (I.value x)) :
    (R.target.fractions xs).Means R (I.product xs) := by
  induction xs with
  | nil =>
      rw [fractions, I.product_nil]
      exact Fraction.means_one
  | cons x xs ih =>
      rw [fractions, I.product_cons]
      exact (h x List.mem_cons_self).fraction.append (ih fun y hy => h y (List.mem_cons_of_mem _ hy))

/-- Code by code and tree by tree, what is read back has the values of the trees. -/
theorem values_of_codes {cs : List Code} {xs : List (Expr ν)}
    (h : List.Forall₂ (fun c x => Code.Readable .sum c ∧ R.value c = I.value x) cs xs) :
    (∀ c ∈ cs, Code.Readable .sum c) ∧ R.values cs = I.values xs := by
  induction h with
  | nil => exact ⟨by rintro c ⟨⟩, rfl⟩
  | cons hc _ ih =>
      obtain ⟨hcode, hvalue⟩ := hc
      obtain ⟨hcodes, hvalues⟩ := ih
      rw [Reading.values_cons, hvalue, hvalues, Interpretation.values_cons]
      exact ⟨List.forall_mem_cons.mpr ⟨hcode, hcodes⟩, rfl⟩

theorem elements_mean {xs : List (Expr ν)} (h : ∀ x ∈ xs, (R.target.piece x).Means R (I.value x)) :
    (∀ c ∈ R.target.elements xs, Code.Readable .sum c) ∧
      R.values (R.target.elements xs) = I.values xs := by
  rw [elements_eq_map]
  exact values_of_codes
    (List.forall₂_map_left_iff.mpr (List.forall₂_same.mpr fun x hx => (h x hx).element))

theorem values_of_renderings {rs : List Rendering} {xs : List (Expr ν)}
    (h : List.Forall₂ (fun r x => r.Means R (I.value x)) rs xs) :
    (∀ c ∈ rs.map Rendering.code, Code.Readable .sum c) ∧
      R.values (rs.map Rendering.code) = I.values xs :=
  values_of_codes (List.forall₂_map_left_iff.mpr (h.imp fun _ _ hr => ⟨hr.element, hr.value⟩))

theorem listPiece_means (ht : R.target.Invertible) {cs : List Code}
    (h : ∀ c ∈ cs, Code.Readable .sum c) :
    (R.target.listPiece cs).Means R ((R.values cs).bind R.meaning.list) := by
  have hlegible := listPiece_legible ht h
  have hvalue :
      R.value (R.target.listPiece cs).rendering.code = (R.values cs).bind R.meaning.list := by
    rw [Reading.value, treeOfCode_listPiece ht, ← R.value_list]
    rfl
  have hr : (R.target.listPiece cs).rendering.Means R ((R.values cs).bind R.meaning.list) :=
    .of_code hlegible.rendering.readable hvalue
  exact ⟨hr, Fraction.means_ofRendering hr, hlegible.element, R.value_list cs⟩

variable [WrittenNumber ν] [CharZero K] (ht : R.target.Invertible) (hR : R.meaning.Lawful ν R.target)

include ht hR

/-- Every rendering of a tree reads back with the value of the tree. -/
theorem piece_means {x : Expr ν} (hx : R.Matches I x) : (R.target.piece x).Means R (I.value x) := by
  induction x using Expr.induct_forms with
  | number n =>
      have hn := numeral_means hR hx.emits.here
      rw [piece, Interpretation.value_number]
      exact ⟨hn, numeralFraction_means hR hx.emits.here, hn.element, hn.value⟩
  | symbol s =>
      obtain ⟨hcode, hvalue⟩ := Reading.symbolCode_readable ht hx.emits.here .atom
      rw [hx.symbol s List.mem_cons_self] at hvalue
      rw [piece, I.value_symbol]
      exact Piece.means_ofRendering (.of_code hcode hvalue)
  | pattern s h => exact absurd hx.emits.here (by simp [Emits])
  | sum ts ih =>
      rw [piece, I.value_sum]
      exact Piece.means_ofRendering
        (Rendering.sum_means (renderings_mean fun t hmem => ih t hmem (hx.part hmem)) hx.emits.here)
  | product fs ih =>
      rw [piece, I.value_product]
      exact Piece.means_ofFraction hR (fractions_mean fun f hmem => ih f hmem (hx.part hmem))
  | call h args ih =>
      have hargs := renderings_mean fun a hmem => ih a hmem (hx.part hmem)
      obtain ⟨hreadable, hvalues⟩ := values_of_renderings hargs
      have hcode := callCode_readable ht hx.emits.here _ hreadable
      have hvalue := Reading.value_callCode ht hR hx.emits.here
        ((R.target.renderings args).map Rendering.code)
      rw [hvalues, hx.call] at hvalue
      rw [piece, Interpretation.value_call]
      exact Piece.means_ofRendering (.of_code hcode hvalue)
  | list items ih =>
      obtain ⟨hreadable, hvalues⟩ := elements_mean fun i hmem => ih i hmem (hx.part hmem)
      rw [piece, Interpretation.value_list, ← hvalues, ← hx.list]
      exact listPiece_means ht hreadable
  | minusProduct fs ih =>
      have hproduct := ih (hx.part List.mem_cons_self)
      rw [Interpretation.value_negation, piece_minusProduct]
      exact Piece.means_ofFraction hR hproduct.fraction.flip
  | negation x hproduct ih =>
      have hpiece := ih (hx.part List.mem_cons_self)
      obtain ⟨hwithin, hvalue⟩ := hpiece.rendering.within .power
      have hnegative := (Rendering.Means.of_code hwithin hvalue).negative hR
      rw [Interpretation.value_negation, piece_negation _ hproduct]
      exact ⟨hnegative, hpiece.fraction.flip, hnegative.element, hnegative.value⟩
  | numeralPower b n ih =>
      have hbase := (ih (hx.part Expr.base_mem_children)).rendering
      have hn : n.Proper := (hx.emits.parts (.number n) Expr.exponent_mem_children).here
      rw [Interpretation.value_power, ← hx.power, piece, Interpretation.value_number]
      split
      · next hnegative =>
        obtain ⟨u, hu, hvalue⟩ :=
          reciprocal_means hR ht hbase hn (hx.exponents.here hnegative) hnegative
        rw [← hvalue]
        exact Piece.means_ofFraction hR (Fraction.means_below hu)
      · exact Piece.means_ofRendering (numeralPower_means hR ht hbase hn)
  | power b e hnumber ihb ihe =>
      have hbase := (ihb (hx.part Expr.base_mem_children)).rendering
      have hexponent := (ihe (hx.part Expr.exponent_mem_children)).rendering
      rw [Interpretation.value_power, ← hx.power, piece_power _ b hnumber]
      exact Piece.means_ofRendering (power_means ht hbase hexponent (by rintro ⟨⟩))

end Target

end Formulary
