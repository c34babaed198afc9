import Formulary.Expr.Build

namespace Formulary.Expr

variable {ν : Type}

@[elab_as_elim, induction_eliminator]
theorem induct {motive : Expr ν → Prop} (number : ∀ n, motive (.number n))
    (symbol : ∀ s, motive (.symbol s)) (sum : ∀ ts, (∀ t ∈ ts, motive t) → motive (.sum ts))
    (product : ∀ fs, (∀ f ∈ fs, motive f) → motive (.product fs))
    (power : ∀ b e, motive b → motive e → motive (.power b e))
    (call : ∀ h args, (∀ a ∈ args, motive a) → motive (.call h args))
    (negation : ∀ x, motive x → motive (.negation x))
    (list : ∀ items, (∀ i ∈ items, motive i) → motive (.list items))
    (pattern : ∀ s h, motive (.pattern s h)) (x : Expr ν) : motive x :=
  @Expr.rec ν motive (fun xs => ∀ x ∈ xs, motive x) number symbol sum product power call negation
    list pattern
    (fun _ h => nomatch h)
      (fun _ _ hx hxs y hy => (List.mem_cons.mp hy).elim (fun h => h ▸ hx) (hxs y)) x

theorem base_mem_children {b e : Expr ν} : b ∈ (power b e).children := List.mem_cons_self

theorem exponent_mem_children {b e : Expr ν} : e ∈ (power b e).children :=
  List.mem_cons_of_mem b (List.mem_singleton_self e)

inductive Every (P : Expr ν → Prop) : Expr ν → Prop where
  | intro {x : Expr ν} (here : P x) (parts : ∀ c ∈ x.children, Every P c) : Every P x

variable {P : Expr ν → Prop} {x : Expr ν}

theorem Every.here (h : x.Every P) : P x := by
  cases h
  assumption

theorem Every.parts (h : x.Every P) : ∀ c ∈ x.children, c.Every P := by
  cases h
  assumption

theorem Every.imp {Q : Expr ν → Prop} (hpq : ∀ y, P y → Q y) (h : x.Every P) : x.Every Q := by
  induction h with
  | intro here _ ih => exact .intro (hpq _ here) ih

theorem Every.of_forall (h : ∀ y, P y) (x : Expr ν) : x.Every P := by
  have list (xs : List (Expr ν)) (ih : ∀ x ∈ xs, x.Every P) (y : Expr ν) (hy : y.children = xs) :
      y.Every P := by
    refine .intro (h y) ?_
    rw [hy]
    exact ih
  induction x with
  | number | symbol | pattern => exact .intro (h _) nofun
  | sum xs ih | product xs ih | call _ xs ih | list xs ih => exact list xs ih _ rfl
  | negation y ih => exact list [y] (List.forall_mem_singleton.mpr ih) _ rfl
  | power b e ihb ihe =>
    exact list [b, e] (List.forall_mem_cons.mpr ⟨ihb, List.forall_mem_singleton.mpr ihe⟩) _ rfl

theorem Every.leaf (here : P x) (h : x.children = []) : x.Every P := by
  refine .intro here ?_
  rw [h]
  rintro c ⟨⟩

theorem mem_symbolOccurrences_of_mem_children {c : Expr ν} (hc : c ∈ x.children) {s : String}
    (hs : s ∈ c.symbolOccurrences) : s ∈ x.symbolOccurrences := by
  have hall (xs : List (Expr ν)) (hc : c ∈ xs) : s ∈ symbolOccurrencesAll xs := by
    induction xs with
    | nil => cases hc
    | cons x xs ih =>
        rw [symbolOccurrencesAll, List.mem_append]
        rcases List.mem_cons.mp hc with rfl | hc
        · exact .inl hs
        · exact .inr (ih hc)
  cases x with
  | number n => cases hc
  | symbol s => cases hc
  | pattern s h => cases hc
  | sum ts =>
      rw [symbolOccurrences]
      exact hall ts hc
  | product fs =>
      rw [symbolOccurrences]
      exact hall fs hc
  | call h args =>
      rw [symbolOccurrences]
      exact hall args hc
  | list items =>
      rw [symbolOccurrences]
      exact hall items hc
  | negation x =>
      rw [symbolOccurrences, ← List.mem_singleton.mp hc]
      exact hs
  | power b e =>
      rw [symbolOccurrences, List.mem_append]
      rcases List.mem_cons.mp hc with rfl | hc
      · exact .inl hs
      · exact .inr (List.mem_singleton.mp hc ▸ hs)

end Formulary.Expr
