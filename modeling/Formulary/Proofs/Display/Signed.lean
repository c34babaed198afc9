import Formulary.Proofs.Code.Denotation
import Formulary.Proofs.Code.Rendering
import Mathlib

namespace Formulary

open Interpretation

namespace Code

theorem toList_text_chain (c : Code) (cs : List Code) :
    (chain c cs).text.toList = c.text.toList ++ cs.flatMap fun d => '*' :: d.text.toList := by
  induction cs generalizing c with
  | nil => exact (List.append_nil _).symm
  | cons d ds ih =>
      have hchain : chain c (d :: ds) = chain (.mul c d) ds := rfl
      rw [hchain, ih, text, String.toList_append, String.toList_append, List.flatMap_cons,
        List.append_assoc, List.append_assoc]
      rfl

theorem Readable.chain {c : Code} (h : Readable .product c) {cs : List Code}
    (hcs : ∀ d ∈ cs, Readable .unary d) : Readable .product (chain c cs) := by
  induction cs generalizing c with
  | nil => exact h
  | cons d ds ih =>
      obtain ⟨hd, hds⟩ := List.forall_mem_cons.mp hcs
      exact ih (h.mul hd) hds

end Code

structure Signed where
  negative : Bool
  magnitude : Code

namespace Signed

/-- The term by itself: in a product, the sign is that of the first factor. -/
def code (t : Signed) : Code := if t.negative then t.magnitude.negated else t.magnitude

def addTo (left : Code) (t : Signed) : Code :=
  if t.negative then .sub left t.magnitude else .add left t.magnitude

def sum (t : Signed) (ts : List Signed) : Code := ts.foldl addTo t.code

def chars (t : Signed) : List Char := (if t.negative then ['-'] else []) ++ t.magnitude.text.toList

def laterChars (t : Signed) : List Char :=
  [' ', if t.negative then '-' else '+', ' '] ++ t.magnitude.text.toList

variable {t : Signed} {ts us : List Signed}

section Text

theorem toList_text_code : t.code.text.toList = t.chars := by
  unfold code chars
  split
  · rw [Code.text_negated, String.toList_append]
    rfl
  · rfl

theorem toList_text_addTo (left : Code) :
    (addTo left t).text.toList = left.text.toList ++ t.laterChars := by
  unfold addTo laterChars
  split <;> simp [Code.text]

theorem toList_text_sum : (sum t ts).text.toList = t.chars ++ ts.flatMap laterChars := by
  have hfold (left : Code) (us : List Signed) :
      (us.foldl addTo left).text.toList = left.text.toList ++ us.flatMap laterChars := by
    induction us generalizing left with
    | nil => simp
    | cons u us ih =>
      rw [List.foldl_cons, ih, toList_text_addTo, List.flatMap_cons, List.append_assoc]
  rw [sum, hfold, toList_text_code]

end Text

section Readability

theorem readable_code (h : Code.Readable .product t.magnitude) : Code.Readable .product t.code := by
  unfold code
  split
  · exact h.negated (by decide)
  · exact h

theorem readable_addTo {left : Code} (hleft : Code.Readable .sum left)
    (h : Code.Readable .product t.magnitude) : Code.Readable .sum (addTo left t) := by
  unfold addTo
  split
  · exact hleft.sub h
  · exact hleft.add h

theorem readable_sum (h : ∀ s ∈ t :: ts, Code.Readable .product s.magnitude) :
    Code.Readable .sum (sum t ts) := by
  obtain ⟨ht, hts⟩ := List.forall_mem_cons.mp h
  have hfold (left : Code) (hleft : Code.Readable .sum left) (us : List Signed)
      (hus : ∀ u ∈ us, Code.Readable .product u.magnitude) :
      Code.Readable .sum (us.foldl addTo left) := by
    induction us generalizing left with
    | nil => exact hleft
    | cons u us ih =>
        obtain ⟨hu, hus⟩ := List.forall_mem_cons.mp hus
        exact ih _ (readable_addTo hleft hu) hus
  exact hfold _ ((readable_code ht).mono (by decide)) ts hts

end Readability

section Value

variable {K : Type} [Field K] (R : Reading Float K)

theorem signed_mul_left (negative : Bool) (v w : K) :
    signed negative (v * w) = signed negative v * w := by
  cases negative
  · rfl
  · exact (neg_mul v w).symm

noncomputable def value (t : Signed) : Option K := (R.denote t.magnitude).map (signed t.negative)

noncomputable def total : List Signed → Option K
  | [] => some 0
  | t :: ts => Option.map₂ (· + ·) (t.value R) (total ts)

theorem total_append : total R (ts ++ us) = Option.map₂ (· + ·) (total R ts) (total R us) := by
  induction ts with
  | nil => rw [List.nil_append, total, Option.map₂_left_identity zero_add]
  | cons t ts ih => rw [List.cons_append, total, total, ih, Option.map₂_assoc add_assoc]

theorem total_singleton : total R [t] = t.value R := by
  rw [total, total, Option.map₂_right_identity add_zero]

end Value

end Signed

namespace Reading

variable {K : Type} [Field K] (R : Reading Float K)

theorem denote_negated (c : Code) : R.denote c.negated = (R.denote c).map Neg.neg := by
  induction c using Code.negated.induct with
  | case1 l r ih =>
      rw [Code.negated, denote, denote, ih]
      exact (Option.map_map₂_distrib_left fun v w => (neg_mul v w).symm).symm
  | case2 l r ih => rw [Code.negated, denote, denote, ih, map_neg_divide]
  | case3 c hmul hdiv =>
      rw [Code.negated, denote]
      · exact hmul
      · exact hdiv

theorem denote_chain (c : Code) (cs : List Code) :
    R.denote (Code.chain c cs) = Option.map₂ (· * ·) (R.denote c) ((R.denotes cs).map List.prod) := by
  induction cs generalizing c with
  | nil =>
    rw [denotes, Option.map_some, List.prod_nil, Option.map₂_right_identity mul_one, Code.chain,
      List.foldl_nil]
  | cons d ds ih =>
      have hprod : (R.denotes (d :: ds)).map List.prod =
          Option.map₂ (· * ·) (R.denote d) ((R.denotes ds).map List.prod) := by
        rw [denotes]
        cases R.denote d <;> cases R.denotes ds <;> simp
      have hchain : Code.chain c (d :: ds) = Code.chain (.mul c d) ds := rfl
      rw [hchain, ih, hprod, denote, Option.map₂_assoc mul_assoc]

theorem denote_code (t : Signed) : R.denote t.code = t.value R := by
  unfold Signed.code Signed.value
  cases t.negative with
  | true => exact R.denote_negated t.magnitude
  | false => exact (map_signed_false _).symm

theorem denote_addTo (left : Code) (t : Signed) :
    R.denote (Signed.addTo left t) = Option.map₂ (· + ·) (R.denote left) (t.value R) := by
  unfold Signed.addTo Signed.value
  cases t.negative with
  | true =>
      rw [if_pos rfl, denote]
      cases R.denote left <;> cases R.denote t.magnitude <;> simp [signed, sub_eq_add_neg]
  | false =>
      rw [if_neg Bool.false_ne_true, denote, map_signed_false]

theorem denote_sum (t : Signed) (ts : List Signed) :
    R.denote (Signed.sum t ts) = Signed.total R (t :: ts) := by
  have hfold (left : Code) (us : List Signed) :
      R.denote (us.foldl Signed.addTo left) =
          Option.map₂ (· + ·) (R.denote left) (Signed.total R us) := by
    induction us generalizing left with
    | nil => rw [Signed.total, Option.map₂_right_identity add_zero, List.foldl_nil]
    | cons u us ih =>
      rw [List.foldl_cons, ih, denote_addTo, Signed.total, Option.map₂_assoc add_assoc]
  rw [Signed.sum, hfold, denote_code, Signed.total]

end Reading

end Formulary
