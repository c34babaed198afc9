import Formulary.Proofs.Expr.Induction
import Formulary.Proofs.Number.Order
import Formulary.Proofs.Sign.Facts
import Mathlib

namespace Formulary

open Number

variable {ν : Type} [Number ν]

section Numbers

variable [OrderedNumber ν] {x y z : ν}

theorem Number.toExact_eq_of_beq (h : (x == y) = true) : toExact x = toExact y :=
  Exact.eq_of_beq ((OrderedNumber.beq_toExact x y).trans h)

theorem Number.beq_of_toExact_eq (hx : (x == x) = true) (h : toExact x = toExact y) :
    (x == y) = true := by
  rw [← OrderedNumber.beq_toExact, ← h, OrderedNumber.beq_toExact, hx]

theorem Number.beq_symm (h : (x == y) = true) : (y == x) = true := by
  have hplace := toExact_eq_of_beq h
  rw [← OrderedNumber.beq_toExact, hplace, OrderedNumber.beq_toExact] at h
  exact beq_of_toExact_eq h hplace.symm

theorem Number.beq_trans (hxy : (x == y) = true) (hyz : (y == z) = true) : (x == z) = true := by
  rw [← OrderedNumber.beq_toExact, toExact_eq_of_beq hxy, OrderedNumber.beq_toExact, hyz]

end Numbers

namespace Numeral

def Definite (n : Numeral ν) : Prop := isNaN n.numerator = false ∧ isNaN n.denominator = false

variable {a b c : Numeral ν}

theorem beq_refl (h : a.Definite) : (a == a) = true := by
  obtain ⟨hp, hq⟩ := h
  rw [isNaN, Bool.not_eq_eq_eq_not, Bool.not_false] at hp hq
  exact Bool.and_eq_true_iff.mpr ⟨hp, hq⟩

variable [OrderedNumber ν]

theorem beq_symm (h : (a == b) = true) : (b == a) = true := by
  obtain ⟨hp, hq⟩ := Bool.and_eq_true_iff.mp h
  exact Bool.and_eq_true_iff.mpr ⟨Number.beq_symm hp, Number.beq_symm hq⟩

theorem beq_trans (hab : (a == b) = true) (hbc : (b == c) = true) : (a == c) = true := by
  obtain ⟨hp, hq⟩ := Bool.and_eq_true_iff.mp hab
  obtain ⟨hp', hq'⟩ := Bool.and_eq_true_iff.mp hbc
  exact Bool.and_eq_true_iff.mpr ⟨Number.beq_trans hp hp', Number.beq_trans hq hq'⟩

end Numeral

namespace Expr

def DefiniteNode : Expr ν → Prop
  | .number n => n.Definite
  | _ => True

def Definite (x : Expr ν) : Prop := x.Every DefiniteNode

theorem sameAll_iff {xs ys : List (Expr ν)} :
    sameAll xs ys = true ↔ List.Forall₂ (fun x y => (x == y) = true) xs ys := by
  induction xs generalizing ys with
  | nil => cases ys <;> simp [sameAll]
  | cons x xs ih =>
      cases ys with
      | nil => simp [sameAll]
      | cons y ys =>
          rw [sameAll, Bool.and_eq_true, ih, List.forall₂_cons]
          rfl

theorem sameAll_symm {xs ys : List (Expr ν)} (ih : ∀ x ∈ xs, ∀ y, (x == y) = true → (y == x) = true)
    (h : sameAll xs ys = true) : sameAll ys xs = true := by
  rw [sameAll_iff] at h ⊢
  induction h with
  | nil => exact .nil
  | cons hxy _ ihxs =>
      exact .cons (ih _ List.mem_cons_self _ hxy) (ihxs fun x hx => ih x (List.mem_cons_of_mem _ hx))

theorem sameAll_trans {xs ys zs : List (Expr ν)}
    (ih : ∀ x ∈ xs, ∀ y z, (x == y) = true → (y == z) = true → (x == z) = true)
    (hxy : sameAll xs ys = true) (hyz : sameAll ys zs = true) : sameAll xs zs = true := by
  rw [sameAll_iff] at hxy hyz ⊢
  induction hxy generalizing zs with
  | nil => exact hyz
  | cons hx _ ihxs =>
      cases hyz with
      | cons hy hys =>
          exact .cons (ih _ List.mem_cons_self _ _ hx hy)
            (ihxs (fun x hx => ih x (List.mem_cons_of_mem _ hx)) hys)

theorem beq_refl {x : Expr ν} (h : x.Definite) : (x == x) = true := by
  have list (xs : List (Expr ν)) (ih : ∀ x ∈ xs, x.Definite → (x == x) = true)
      (hxs : ∀ x ∈ xs, x.Definite) :
      sameAll xs xs = true := sameAll_iff.mpr (List.forall₂_same.mpr fun x hx => ih x hx (hxs x hx))
  induction x with
  | number n => exact Numeral.beq_refl h.here
  | symbol s => exact beq_self_eq_true s
  | pattern s k => exact Bool.and_eq_true_iff.mpr ⟨beq_self_eq_true s, beq_self_eq_true k⟩
  | sum xs ih | product xs ih | list xs ih => exact list xs ih h.parts
  | call f xs ih => exact Bool.and_eq_true_iff.mpr ⟨beq_self_eq_true f, list xs ih h.parts⟩
  | negation x ih => exact ih (h.parts x List.mem_cons_self)
  | power b e ihb ihe =>
      obtain ⟨hb, he⟩ := List.forall_mem_cons.mp h.parts
      exact Bool.and_eq_true_iff.mpr ⟨ihb hb, ihe (List.forall_mem_singleton.mp he)⟩

variable [OrderedNumber ν]

theorem beq_symm {x y : Expr ν} (h : (x == y) = true) : (y == x) = true := by
  change same x y = true at h
  change same y x = true
  induction x generalizing y with
  | number n =>
      cases y <;> try cases h
      exact Numeral.beq_symm h
  | symbol s =>
      cases y <;> try cases h
      exact beq_iff_eq.mpr (eq_of_beq h).symm
  | pattern s k =>
      cases y <;> try cases h
      obtain ⟨hs, hk⟩ := Bool.and_eq_true_iff.mp h
      exact Bool.and_eq_true_iff.mpr ⟨beq_iff_eq.mpr (eq_of_beq hs).symm,
        beq_iff_eq.mpr (eq_of_beq hk).symm⟩
  | sum xs ih | product xs ih | list xs ih =>
      cases y <;> try cases h
      exact sameAll_symm (fun x hx y => ih x hx) h
  | call f xs ih =>
      cases y <;> try cases h
      obtain ⟨hf, hxs⟩ := Bool.and_eq_true_iff.mp h
      exact Bool.and_eq_true_iff.mpr ⟨beq_iff_eq.mpr (eq_of_beq hf).symm,
        sameAll_symm (fun x hx y => ih x hx) hxs⟩
  | negation x ih =>
      cases y <;> try cases h
      exact ih h
  | power b e ihb ihe =>
      cases y <;> try cases h
      obtain ⟨hb, he⟩ := Bool.and_eq_true_iff.mp h
      exact Bool.and_eq_true_iff.mpr ⟨ihb hb, ihe he⟩

theorem beq_trans {x y z : Expr ν} (hxy : (x == y) = true) (hyz : (y == z) = true) :
    (x == z) = true := by
  change same x y = true at hxy
  change same y z = true at hyz
  change same x z = true
  induction x generalizing y z with
  | number n =>
      cases y <;> try cases hxy
      cases z <;> try cases hyz
      exact Numeral.beq_trans hxy hyz
  | symbol s =>
      cases y <;> try cases hxy
      rw [eq_of_beq hxy]
      exact hyz
  | pattern s k =>
      cases y <;> try cases hxy
      obtain ⟨hs, hk⟩ := Bool.and_eq_true_iff.mp hxy
      rw [eq_of_beq hs, eq_of_beq hk]
      exact hyz
  | sum xs ih | product xs ih | list xs ih =>
      cases y <;> try cases hxy
      cases z <;> try cases hyz
      exact sameAll_trans (fun x hx y z => ih x hx) hxy hyz
  | call f xs ih =>
      cases y <;> try cases hxy
      cases z <;> try cases hyz
      obtain ⟨hf, hxs⟩ := Bool.and_eq_true_iff.mp hxy
      obtain ⟨hg, hys⟩ := Bool.and_eq_true_iff.mp hyz
      rw [eq_of_beq hf]
      exact Bool.and_eq_true_iff.mpr ⟨hg, sameAll_trans (fun x hx y z => ih x hx) hxs hys⟩
  | negation x ih =>
      cases y <;> try cases hxy
      cases z <;> try cases hyz
      exact ih hxy hyz
  | power b e ihb ihe =>
      cases y <;> try cases hxy
      cases z <;> try cases hyz
      obtain ⟨hb, he⟩ := Bool.and_eq_true_iff.mp hxy
      obtain ⟨hb', he'⟩ := Bool.and_eq_true_iff.mp hyz
      exact Bool.and_eq_true_iff.mpr ⟨ihb hb hb', ihe he he'⟩

theorem beq_comm (x y : Expr ν) : (x == y) = (y == x) := Bool.eq_iff_iff.mpr ⟨beq_symm, beq_symm⟩

theorem beq_congr_right {y z : Expr ν} (h : (y == z) = true) (x : Expr ν) : (x == y) = (x == z) :=
  Bool.eq_iff_iff.mpr ⟨fun hxy => beq_trans hxy h, fun hxz => beq_trans hxz (beq_symm h)⟩

/-- Equality of trees as a relation is an equivalence where no numeral is undefined. -/
theorem beq_equivalence : Equivalence fun x y : {x : Expr ν // x.Definite} =>
    (x.1 == y.1) = true where
  refl := fun x => beq_refl x.2
  symm := beq_symm
  trans := beq_trans

end Expr

end Formulary
