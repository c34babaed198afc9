import Formulary.Proofs.Radical.Count
import Mathlib

namespace Formulary

variable {ν : Type}

open Formulary.Expr

namespace Pass

/-- What a pass keeps: a tree it does not change stays as it is, and one it changes loses
half-integer powers, of which it has two at least. -/
structure Shrinks {α : Type} (count : α → Nat) (p : Pass ν α) (x : α) : Prop where
  result_eq : p.changed = false → p.result = x
  count_lt : p.changed = true → count p.result < count x ∧ 2 ≤ count x

theorem Shrinks.pure {α : Type} {count : α → Nat} {x : α} : Shrinks count (pure x : Pass ν α) x where
  result_eq := fun _ => rfl
  count_lt := fun h => by cases h

theorem Shrinks.count_le {α : Type} {count : α → Nat} {p : Pass ν α} {x : α} (h : Shrinks count p x) :
    count p.result ≤ count x := by
  cases hc : p.changed with
  | false => exact Nat.le_of_eq (congrArg count (h.result_eq hc))
  | true => exact Nat.le_of_lt (h.count_lt hc).1

theorem Shrinks.bind_pure {α β : Type} {count : α → Nat} {p : Pass ν α} {x : α}
    (h : Shrinks count p x) {f : α → β} {count' : β → Nat} (hf : ∀ y, count' (f y) = count y) :
    Shrinks count' (p >>= fun y => Pure.pure (f y)) (f x) where
  result_eq := by
    intro hc
    rw [result_bind, result_pure, h.result_eq (by simpa using hc)]
  count_lt := by
    intro hc
    rw [result_bind, result_pure, hf, hf]
    exact h.count_lt (by simpa using hc)

variable [Number ν] (options : RadicalOptions ν) (assumptions : Assumptions ν)

def nth (n : Nat) (x : Expr ν) : Pass ν (Expr ν) :=
  ofExpr options assumptions ((fun y => (ofExpr options assumptions y).result)^[n] x)

theorem nth_succ (n : Nat) (x : Expr ν) :
    nth options assumptions (n + 1) x =
      nth options assumptions n (ofExpr options assumptions x).result := rfl

theorem shrinks_ofExprs (xs : List (Expr ν))
    (h : ∀ x ∈ xs, Shrinks radicalCount (ofExpr options assumptions x) x) :
    Shrinks radicalCountAll (ofExprs options assumptions xs) xs := by
  induction xs with
  | nil => exact .pure
  | cons x xs ih =>
      have hx := h x List.mem_cons_self
      have hxs := ih fun y hy => h y (List.mem_cons_of_mem _ hy)
      have hlx := hx.count_le
      have hlxs := hxs.count_le
      rw [ofExprs]
      constructor
      · intro hc
        simp only [changed_bind, changed_pure, Bool.or_false, Bool.or_eq_false_iff] at hc
        simp only [result_bind, result_pure]
        rw [hx.result_eq hc.1, hxs.result_eq hc.2]
      · intro hc
        simp only [changed_bind, changed_pure, Bool.or_false, Bool.or_eq_true] at hc
        simp only [result_bind, result_pure, radicalCountAll]
        cases hc with
        | inl hc =>
            have := hx.count_lt hc
            omega
        | inr hc =>
            have := hxs.count_lt hc
            omega

/-- A power whose exponent becomes a half-integer has lost two such powers in the exponent. -/
theorem shrinks_power {b e : Expr ν} (hb : Shrinks radicalCount (ofExpr options assumptions b) b)
    (he : Shrinks radicalCount (ofExpr options assumptions e) e) :
    Shrinks radicalCount (ofExpr options assumptions (.power b e)) (.power b e) := by
  have hlb := hb.count_le
  have hle := he.count_le
  have hhalf (x : Expr ν) : x.isHalfInteger = true → radicalCount x = 0 :=
    radicalCount_of_isHalfInteger
  rw [ofExpr]
  constructor
  · intro hc
    simp only [changed_bind, changed_pure, Bool.or_false, Bool.or_eq_false_iff] at hc
    simp only [result_bind, result_pure]
    rw [hb.result_eq hc.1, he.result_eq hc.2]
  · intro hc
    simp only [changed_bind, changed_pure, Bool.or_false, Bool.or_eq_true] at hc
    simp only [result_bind, result_pure, radicalCount]
    cases hce : (ofExpr options assumptions e).changed with
    | false =>
        rw [he.result_eq hce]
        have := hb.count_lt (hc.resolve_right (by simp [hce]))
        omega
    | true =>
        have := he.count_lt hce
        have hr := hhalf (ofExpr options assumptions e).result
        split
        · next h =>
          rw [hr h]
          omega
        · omega

variable [DistinctNumber ν]

theorem shrinks_combineFactors (factors : List (Expr ν)) :
    Shrinks radicalCount (combineFactors options assumptions factors) (.product factors) := by
  have hl := (Lifted.ofExprs factors).radicalCount_combined
  have hs := Radical.radicalCountAll_split (Lifted.ofExprs factors).factors
  have hf : radicalCountAll (Lifted.ofExprs factors).factors = radicalCount (.product factors) :=
    Lifted.radicalCountAll_ofExprs factors
  have combined (negative : Bool) (h : ¬(Lifted.ofExprs factors).radicals.length < 2) :
      radicalCount ((Lifted.ofExprs factors).combined.signed negative) <
        radicalCount (.product factors) ∧ 2 ≤ radicalCount (.product factors) := by
    rw [radicalCount_signed]
    simp only [Lifted.radicals] at *
    omega
  unfold combineFactors
  simp only
  split
  · exact .pure
  · next h =>
    split
    · exact ⟨by rintro ⟨⟩, fun _ => combined _ h⟩
    · split
      · exact ⟨by rintro ⟨⟩, fun _ => combined _ h⟩
      · exact ⟨fun _ => rfl, by rintro ⟨⟩⟩

theorem shrinks_ofFactors {p : Pass ν (List (Expr ν))} {fs : List (Expr ν)}
    (h : Shrinks radicalCountAll p fs) :
    Shrinks radicalCount (ofFactors options assumptions p) (.product fs) := by
  have hd : radicalCount (.product fs) = radicalCountAll fs := rfl
  cases hc : p.changed with
  | false =>
      have hr := h.result_eq hc
      have hp := shrinks_combineFactors options assumptions fs
      constructor
      · intro hn
        simp only [ofFactors, flattened, bind, hc, hr, Bool.false_or] at hn ⊢
        exact hp.result_eq hn
      · intro hn
        simp only [ofFactors, flattened, bind, hc, hr, Bool.false_or] at hn ⊢
        exact hp.count_lt hn
  | true =>
      obtain ⟨hlt, htwo⟩ := h.count_lt hc
      have hm := radicalCount_mul_le p.result
      constructor
      · intro hn
        simp [ofFactors, flattened, bind, hc] at hn
      · intro _
        simp only [ofFactors, flattened, bind, hc, if_true]
        split
        · next gs hg =>
          have hle := (shrinks_combineFactors options assumptions gs).count_le
          rw [← hg] at hle
          omega
        · next y _ =>
          simp only [same]
          omega

theorem shrinks_ofExpr (x : Expr ν) : Shrinks radicalCount (ofExpr options assumptions x) x := by
  induction x with
  | number | symbol | pattern =>
      rw [ofExpr]
      exact .pure
  | sum xs ih | call _ xs ih | list xs ih =>
      rw [ofExpr]
      exact (shrinks_ofExprs options assumptions xs ih).bind_pure fun _ => rfl
  | product fs ih =>
      rw [ofExpr]
      exact shrinks_ofFactors options assumptions (shrinks_ofExprs options assumptions fs ih)
  | power b e ihb ihe => exact shrinks_power options assumptions ihb ihe
  | negation x ih =>
      rw [ofExpr]
      exact ih.bind_pure fun _ => rfl

end Pass

namespace Combined

variable [Number ν] (options : RadicalOptions ν) (assumptions : Assumptions ν)

/-- The outcome of a run of passes: all but the last change something, and the last does not. -/
structure Rests (x : Expr ν) (c : Combined ν) : Prop where
  passes_pos : 0 < c.passes
  changed_of_lt : ∀ n, n + 1 < c.passes → (Pass.nth options assumptions n x).changed = true
  last : Pass.nth options assumptions (c.passes - 1) x = ⟨c.result, false, c.diagnostics⟩

theorem Rests.cons {x : Expr ν} {c : Combined ν}
    (hx : (Pass.ofExpr options assumptions x).changed = true)
    (h : Rests options assumptions (Pass.ofExpr options assumptions x).result c) :
    Rests options assumptions x ⟨c.result, c.diagnostics, c.passes + 1⟩ where
  passes_pos := Nat.succ_pos _
  changed_of_lt := by
    intro n hn
    cases n with
    | zero => exact hx
    | succ n => exact h.changed_of_lt n (Nat.lt_of_succ_lt_succ hn)
  last := by
    have hp := h.passes_pos
    rw [← h.last, ← Pass.nth_succ]
    congr 1
    exact (Nat.sub_add_cancel hp).symm

theorem rests_of_unchanged {x : Expr ν} (hx : (Pass.ofExpr options assumptions x).changed = false) :
    Rests options assumptions x
      ⟨(Pass.ofExpr options assumptions x).result, (Pass.ofExpr options assumptions x).diagnostics,
        1⟩ where
  passes_pos := Nat.one_pos
  changed_of_lt := fun n hn => absurd hn (by simp)
  last := by
    change Pass.ofExpr options assumptions x = _
    rw [← hx]

variable [DistinctNumber ν]

/-- A limit of as many passes as there are half-integer powers is enough. -/
theorem settle_rests (limit : Nat) (x : Expr ν) (hx : x.radicalCount ≤ limit + 1) :
    Rests options assumptions x (settle options assumptions limit x) ∧
      (settle options assumptions limit x).passes ≤ max 1 x.radicalCount := by
  induction limit generalizing x with
  | zero =>
      have hs := Pass.shrinks_ofExpr options assumptions x
      cases hc : (Pass.ofExpr options assumptions x).changed with
      | false => exact ⟨rests_of_unchanged options assumptions hc, Nat.le_max_left _ _⟩
      | true =>
          have := hs.count_lt hc
          omega
  | succ limit ih =>
      have hs := Pass.shrinks_ofExpr options assumptions x
      cases hc : (Pass.ofExpr options assumptions x).changed with
      | false =>
          simp only [settle, hc, Bool.false_eq_true, if_false]
          exact ⟨rests_of_unchanged options assumptions hc, Nat.le_max_left _ _⟩
      | true =>
          obtain ⟨hlt, htwo⟩ := hs.count_lt hc
          obtain ⟨hr, hp⟩ := ih (Pass.ofExpr options assumptions x).result (by omega)
          simp only [settle, hc, if_true]
          refine ⟨hr.cons options assumptions hc, ?_⟩
          omega

theorem settle_eq_of_le {limit limit' : Nat} (x : Expr ν) (hx : x.radicalCount ≤ limit + 1)
    (hl : limit ≤ limit') :
    settle options assumptions limit' x = settle options assumptions limit x := by
  induction limit generalizing x limit' with
  | zero =>
      have hs := Pass.shrinks_ofExpr options assumptions x
      have hc : (Pass.ofExpr options assumptions x).changed = false := by
        cases hc : (Pass.ofExpr options assumptions x).changed with
        | false => rfl
        | true =>
            have := hs.count_lt hc
            omega
      cases limit' with
      | zero => rfl
      | succ limit' => simp only [settle, hc, Bool.false_eq_true, if_false]
  | succ limit ih =>
      obtain ⟨limit', rfl⟩ : ∃ k, limit' = k + 1 := ⟨limit' - 1, by omega⟩
      have hs := Pass.shrinks_ofExpr options assumptions x
      cases hc : (Pass.ofExpr options assumptions x).changed with
      | false => simp only [settle, hc, Bool.false_eq_true, if_false]
      | true =>
          have := hs.count_lt hc
          simp only [settle, hc, if_true]
          have hlimit : limit ≤ limit' := by omega
          rw [ih _ (by omega) hlimit]

theorem ofExpr_rests (x : Expr ν) :
    Rests options assumptions x (ofExpr options assumptions x) ∧
      (ofExpr options assumptions x).passes ≤ max 1 x.radicalCount :=
  settle_rests options assumptions x.size x (Nat.le_succ_of_le x.radicalCount_le_size)

/-- The last pass leaves its tree, so that it is a pass over the result. -/
theorem Rests.last_result {x : Expr ν} {c : Combined ν} (h : Rests options assumptions x c) :
    Pass.ofExpr options assumptions c.result = ⟨c.result, false, c.diagnostics⟩ := by
  have hs := Pass.shrinks_ofExpr options assumptions
    ((fun y => (Pass.ofExpr options assumptions y).result)^[c.passes - 1] x)
  have hl : Pass.ofExpr options assumptions
    ((fun y => (Pass.ofExpr options assumptions y).result)^[c.passes - 1] x) =
    ⟨c.result, false, c.diagnostics⟩ := h.last
  have hr := hs.result_eq (by rw [hl])
  rw [hl] at hr
  rwa [← show c.result = _ from hr] at hl

theorem ofExpr_of_unchanged {x : Expr ν} (hx : (Pass.ofExpr options assumptions x).changed = false) :
    ofExpr options assumptions x = ⟨x, (Pass.ofExpr options assumptions x).diagnostics, 1⟩ := by
  obtain ⟨n, hn⟩ : ∃ n, x.size = n + 1 := ⟨x.size - 1, by cases x <;> simp only [size] <;> omega⟩
  simp only [ofExpr, hn, settle, hx, Bool.false_eq_true, if_false,
    (Pass.shrinks_ofExpr options assumptions x).result_eq hx]

theorem Rests.ofExpr_result {x : Expr ν} {c : Combined ν} (h : Rests options assumptions x c) :
    ofExpr options assumptions c.result = ⟨c.result, c.diagnostics, 1⟩ := by
  have hl := h.last_result
  rw [ofExpr_of_unchanged options assumptions (by rw [hl]), hl]

/-- The passes over a tree come to rest. There are no more of them than half-integer powers, or just
one; all but the last change something, the last does not, and a higher limit than the size of the
tree makes no difference. The result then stays as it is, with the same diagnostics. -/
theorem ofExpr_settled (x : Expr ν) :
    (ofExpr options assumptions x).passes ≤ max 1 x.radicalCount ∧
      Rests options assumptions x (ofExpr options assumptions x) ∧
      (∀ limit, x.size ≤ limit → settle options assumptions limit x = ofExpr options assumptions x) ∧
      ofExpr options assumptions (ofExpr options assumptions x).result =
        ⟨(ofExpr options assumptions x).result, (ofExpr options assumptions x).diagnostics, 1⟩ := by
  obtain ⟨hr, hp⟩ := ofExpr_rests options assumptions x
  refine ⟨hp, hr, ?_, hr.ofExpr_result⟩
  intro limit hl
  exact settle_eq_of_le options assumptions x (Nat.le_succ_of_le x.radicalCount_le_size) hl

def rootsOfRoots : Expr Float := .product [.sqrt (.sqrt (.symbol "a")), .sqrt (.sqrt (.symbol "b"))]

def positiveFacts : Assumptions Float :=
  .stated [⟨.symbol "a", .gt, .ofInt 0⟩, ⟨.symbol "b", .gt, .ofInt 0⟩]

/-- The outer roots are combined first, then the inner ones, and the third pass finds nothing to
do. -/
theorem ofExpr_settled_rootsOfRoots :
    rootsOfRoots.radicalCount = 4 ∧ (ofExpr .defaults positiveFacts rootsOfRoots).passes = 3 ∧
      Rests .defaults positiveFacts rootsOfRoots (ofExpr .defaults positiveFacts rootsOfRoots) ∧
      ofExpr .defaults positiveFacts (ofExpr .defaults positiveFacts rootsOfRoots).result =
        ⟨(ofExpr .defaults positiveFacts rootsOfRoots).result,
          (ofExpr .defaults positiveFacts rootsOfRoots).diagnostics, 1⟩ := by
  obtain ⟨-, hr, -, hi⟩ := ofExpr_settled .defaults positiveFacts rootsOfRoots
  exact ⟨by decide +kernel, by decide +kernel, hr, hi⟩

end Combined

end Formulary
