import Formulary.Evaluation.Sample
import Formulary.Number.Exact
import Mathlib

namespace Formulary

open Number

namespace Relation

variable {r : Relation} {a b v : ℚ}

theorem holds_finite : r.holds (Exact.finite v) (.finite b) = true ↔
    match r with
    | .gt => b < v
    | .ge => b ≤ v
    | .lt => v < b
    | .le => v ≤ b
    | .eq => v = b
    | .ne => v ≠ b := by
  cases r <;> simp [holds, lessEq, less, Exact.less, BEq.beq, bne, Exact.beq, le_iff_lt_or_eq]

end Relation

namespace Exact

variable {a b : ℚ}

theorem less_finite : Number.less (.finite a) (.finite b : Exact) = decide (a < b) := rfl

theorem isNaN_finite : isNaN (.finite a : Exact) = false := by simp [isNaN, BEq.beq, beq]

theorem isNaN_infinite {s : Bool} :
    isNaN (.infinite s : Exact) = false := by simp [isNaN, BEq.beq, beq]

theorem max_finite : Number.max (.finite a) (.finite b) = Exact.finite (max a b) := by
  rcases lt_trichotomy a b with h | rfl | h
  · simp [Number.max, less_finite, isNaN_finite, h, h.le]
  · simp [Number.max, less_finite, isNaN_finite]
  · simp [Number.max, less_finite, isNaN_finite, h, h.le, h.not_gt]

theorem min_finite : Number.min (.finite a) (.finite b) = Exact.finite (min a b) := by
  rcases lt_trichotomy a b with h | rfl | h
  · simp [Number.min, less_finite, isNaN_finite, h, h.le]
  · simp [Number.min, less_finite, isNaN_finite]
  · simp [Number.min, less_finite, isNaN_finite, h, h.le, h.not_gt]

theorem max_unbounded : Number.max (.infinite true) (.finite b) = Exact.finite b := by
  have hless : Number.less (.infinite true) (.finite b : Exact) = true := rfl
  simp [Number.max, hless, isNaN_finite, isNaN_infinite]

theorem min_unbounded : Number.min (.infinite false) (.finite b) = Exact.finite b := by
  have hless : Number.less (.infinite false) (.finite b : Exact) = false := rfl
  have hmore : Number.less (.finite b) (.infinite false : Exact) = true := rfl
  simp [Number.min, hless, hmore, isNaN_finite, isNaN_infinite]

end Exact

namespace Range

variable {q v u : ℚ} {x : Exact} {r : Range Exact} {f : Fact Exact} {facts : List (Fact Exact)}

inductive Floor (q : ℚ) : Exact → Prop where
  | unbounded : Floor q (.infinite true)
  | bounded {a : ℚ} (h : a ≤ q) : Floor q (.finite a)

inductive Ceiling (q : ℚ) : Exact → Prop where
  | unbounded : Ceiling q (.infinite false)
  | bounded {b : ℚ} (h : q ≤ b) : Ceiling q (.finite b)

/-- The rational is between the ends, if not at one of them, and a fixed value can only be the
rational. -/
structure Around (r : Range Exact) (q : ℚ) : Prop where
  lo : Floor q r.lo
  hi : Ceiling q r.hi
  fixed : ∀ x, r.exact = some x → x = .finite q

structure Inside (r : Range Exact) (v : ℚ) : Prop where
  free : r.exact = none
  lo : less r.lo (.finite v) = true
  hi : less (.finite v) r.hi = true

section Ends

variable {b : ℚ}

theorem Floor.max (h : Floor q x) (hb : b ≤ q) : Floor q (Number.max x (.finite b)) := by
  cases h with
  | unbounded =>
      rw [Exact.max_unbounded]
      exact .bounded hb
  | bounded ha =>
      rw [Exact.max_finite]
      exact .bounded (max_le ha hb)

theorem Ceiling.min (h : Ceiling q x) (hb : q ≤ b) : Ceiling q (Number.min x (.finite b)) := by
  cases h with
  | unbounded =>
      rw [Exact.min_unbounded]
      exact .bounded hb
  | bounded ha =>
      rw [Exact.min_finite]
      exact .bounded (le_min ha hb)

theorem Floor.max_less (h : Floor q x) : less (Number.max x (.finite b)) (.finite v) = true ↔
    less x (.finite v) = true ∧ b < v := by
  cases h with
  | unbounded => simp [Exact.max_unbounded, less, Exact.less]
  | bounded ha => simp [Exact.max_finite, less, Exact.less]

theorem Ceiling.less_min (h : Ceiling q x) : less (.finite v) (Number.min x (.finite b)) = true ↔
    less (.finite v) x = true ∧ v < b := by
  cases h with
  | unbounded => simp [Exact.min_unbounded, less, Exact.less]
  | bounded ha => simp [Exact.min_finite, less, Exact.less]

end Ends

theorem around_full : (full : Range Exact).Around q := ⟨.unbounded, .unbounded, nofun⟩

theorem Around.meet (h : r.Around q) (hbound : ∃ b, f.bound = .finite b)
    (hf : f.relation ≠ .ne → f.relation.holds (.finite q) f.bound = true) : (r.meet f).Around q := by
  obtain ⟨subject, relation, bound⟩ := f
  obtain ⟨b, rfl⟩ := hbound
  simp only [Relation.holds_finite] at hf
  cases relation with
  | gt => exact ⟨h.lo.max (hf nofun).le, h.hi, h.fixed⟩
  | ge => exact ⟨h.lo.max (hf nofun), h.hi, h.fixed⟩
  | lt => exact ⟨h.lo, h.hi.min (hf nofun).le, h.fixed⟩
  | le => exact ⟨h.lo, h.hi.min (hf nofun), h.fixed⟩
  | eq =>
      refine ⟨h.lo, h.hi, ?_⟩
      intro x hx
      rw [← Option.some.inj hx, hf nofun]
  | ne => exact h

/-- What is strictly inside after a fact was so before, and satisfies the fact whether its bound is
strict or not. -/
theorem Inside.of_meet (hr : r.Around q) (hbound : ∃ b, f.bound = .finite b)
    (h : (r.meet f).Inside v) :
    r.Inside v ∧ (f.relation ≠ .ne → f.relation.holds (.finite v) f.bound = true) := by
  obtain ⟨subject, relation, bound⟩ := f
  obtain ⟨b, rfl⟩ := hbound
  simp only [Relation.holds_finite]
  cases relation with
  | gt =>
      obtain ⟨hlo, hb⟩ := hr.lo.max_less.mp h.lo
      exact ⟨⟨h.free, hlo, h.hi⟩, fun _ => hb⟩
  | ge =>
      obtain ⟨hlo, hb⟩ := hr.lo.max_less.mp h.lo
      exact ⟨⟨h.free, hlo, h.hi⟩, fun _ => hb.le⟩
  | lt =>
      obtain ⟨hhi, hb⟩ := hr.hi.less_min.mp h.hi
      exact ⟨⟨h.free, h.lo, hhi⟩, fun _ => hb⟩
  | le =>
      obtain ⟨hhi, hb⟩ := hr.hi.less_min.mp h.hi
      exact ⟨⟨h.free, h.lo, hhi⟩, fun _ => hb.le⟩
  | eq => cases h.free
  | ne => exact ⟨h, fun hne => absurd rfl hne⟩

/-- The facts together: the range is around the rational, and what is strictly inside satisfies all
of them. -/
theorem foldl_meet (hr : r.Around q) (hbound : ∀ f ∈ facts, ∃ b, f.bound = .finite b)
    (hq : ∀ f ∈ facts, f.relation ≠ .ne → f.relation.holds (.finite q) f.bound = true) :
    (facts.foldl meet r).Around q ∧ ∀ v, (facts.foldl meet r).Inside v →
      r.Inside v ∧ ∀ f ∈ facts, f.relation ≠ .ne → f.relation.holds (.finite v) f.bound = true := by
  induction facts generalizing r with
  | nil => exact ⟨hr, fun v hv => ⟨hv, nofun⟩⟩
  | cons f fs ih =>
      obtain ⟨hb, hbs⟩ := List.forall_mem_cons.mp hbound
      obtain ⟨hf, hfs⟩ := List.forall_mem_cons.mp hq
      obtain ⟨haround, hinside⟩ := ih (hr.meet hb hf) hbs hfs
      refine ⟨haround, ?_⟩
      intro v hv
      obtain ⟨hmeet, hrest⟩ := hinside v hv
      obtain ⟨hbefore, hholds⟩ := hmeet.of_meet hr hb
      exact ⟨hbefore, List.forall_mem_cons.mpr ⟨hholds, hrest⟩⟩

theorem valueAt_between {a b : ℚ} (hab : a ≤ b) (h0 : 0 ≤ u) (h1 : u < 1) :
    ∃ v, (⟨.finite a, .finite b, none⟩ : Range Exact).valueAt (.finite u) = .finite v ∧
    (a = b → v = a) ∧ (a < b → a < v ∧ v < b) := by
  have hmargin : Decimal.toRat ⟨1, -3⟩ = 1 / 1000 := by norm_num [Decimal.toRat]
  refine ⟨a + (b + -a) * (1 / 1000) + u * (b + -a + -(2 * ((b + -a) * (1 / 1000)))), ?_, ?_, ?_⟩
  · rw [← hmargin]
    rfl
  · rintro rfl
    ring
  · intro hlt
    have hdrawn : 0 ≤ u * (b - a) := mul_nonneg h0 (sub_nonneg.mpr hab)
    have hleft : 0 < (1 - u) * (b - a) := mul_pos (sub_pos.mpr h1) (sub_pos.mpr hlt)
    constructor <;> linarith

/-- A value drawn after the open ends are closed is strictly inside, or nothing else than the
rational could be drawn. -/
theorem Around.valueAt_close (h : r.Around q) (h0 : 0 ≤ u) (h1 : u < 1) :
    ∃ v, r.close.valueAt (.finite u) = .finite v ∧ (v = q ∨ r.Inside v) := by
  obtain ⟨lo, hi, fixed⟩ := r
  obtain ⟨hlo, hhi, hfixed⟩ := h
  cases fixed with
  | some x =>
      obtain rfl : x = .finite q := hfixed x rfl
      refine ⟨q, ?_, .inl rfl⟩
      -- closing the ends leaves a fixed value
      have hclose : (⟨lo, hi, some (.finite q)⟩ : Range Exact).close.exact = some (.finite q) := by
        unfold close
        split_ifs <;> rfl
      rw [valueAt, hclose]
  | none =>
      have ten : 0 < (10 : ℚ) := by norm_num
      cases hlo with
      | unbounded =>
          cases hhi with
          | unbounded =>
              obtain ⟨v, hv, -, -⟩ := valueAt_between (a := -10) (b := 10) (by norm_num) h0 h1
              exact ⟨v, hv, .inr ⟨rfl, rfl, rfl⟩⟩
          | @bounded b hb =>
              obtain ⟨v, hv, -, hin⟩ := valueAt_between (a := b + -10) (b := b) (by linarith) h0 h1
              exact ⟨v, hv, .inr ⟨rfl, rfl, decide_eq_true (hin (by linarith)).2⟩⟩
      | @bounded a ha =>
          cases hhi with
          | unbounded =>
              obtain ⟨v, hv, -, hin⟩ := valueAt_between (a := a) (b := a + 10) (by linarith) h0 h1
              exact ⟨v, hv, .inr ⟨rfl, decide_eq_true (hin (by linarith)).1, rfl⟩⟩
          | @bounded b hb =>
              obtain ⟨v, hv, hsame, hin⟩ := valueAt_between (ha.trans hb) h0 h1
              refine ⟨v, hv, ?_⟩
              rcases (ha.trans hb).eq_or_lt with hab | hab
              · exact .inl ((hsame hab).trans (le_antisymm ha (hab ▸ hb)))
              · exact .inr ⟨rfl, decide_eq_true (hin hab).1, decide_eq_true (hin hab).2⟩

theorem uniform_finite (g : Generator) :
    ∃ u : ℚ, (g.uniform : Exact) = .finite u ∧ 0 ≤ u ∧ u < 1 := by
  refine ⟨(g.word.toNat : ℤ) / (4294967296 : ℤ), rfl, by positivity, ?_⟩
  rw [div_lt_one (by norm_num)]
  exact_mod_cast g.word.toNat_lt

/-- A fixed value is drawn without the stream, and it is also what every draw gives. -/
theorem sample_eq (r : Range Exact) (g : Generator) : (r.sample g).1 = r.valueAt g.step.uniform := by
  unfold sample
  split
  · next x hx => rw [valueAt, hx]
  · rfl

theorem isAbout_iff {name : String} : isAbout name f = true ↔ f.subject = .symbol name := by
  unfold isAbout
  split
  · next s hs => rw [hs, beq_iff_eq, Expr.symbol.injEq]
  · next hs =>
    refine ⟨nofun, ?_⟩
    intro h
    exact absurd h (hs name)

/-- If the facts about a name can be satisfied, then every value drawn for it satisfies all of them
that are not inequations: the facts may be in any order and number, and the bounds strict or not. -/
theorem valueAt_satisfies (name : String) (facts : List (Fact Exact))
    (hbound : ∀ f ∈ facts, isFinite f.bound = true)
    (hsome : ∃ q : ℚ, ∀ f ∈ facts, f.subject = .symbol name →
      f.relation.holds (Exact.finite q) f.bound = true) :
    (∀ u : ℚ, 0 ≤ u → u < 1 → ∃ v, (ofFacts name facts).valueAt (.finite u) = .finite v ∧
      ∀ f ∈ facts, f.subject = .symbol name → f.relation ≠ .ne →
        f.relation.holds (.finite v) f.bound = true) ∧
    ∀ g : Generator, ∃ v, ((ofFacts name facts).sample g).1 = .finite v ∧
      ∀ f ∈ facts, f.subject = .symbol name → f.relation ≠ .ne →
        f.relation.holds (.finite v) f.bound = true := by
  obtain ⟨q, hq⟩ := hsome
  have hmem {f : Fact Exact} :
      f ∈ facts.filter (isAbout name) ↔ f ∈ facts ∧ f.subject = .symbol name := by
    rw [List.mem_filter, isAbout_iff]
  have hfinite (f : Fact Exact) (hf : f ∈ facts.filter (isAbout name)) :
      ∃ b, f.bound = .finite b := by
    have hb := hbound f (hmem.mp hf).1
    cases h : f.bound with
    | finite b => exact ⟨b, rfl⟩
    | undefined | infinite => simp [h, isFinite, toRat?, Exact.toRat?] at hb
  have hsatisfied (f : Fact Exact) (hf : f ∈ facts.filter (isAbout name)) :
      f.relation.holds (Exact.finite q) f.bound = true :=
    hq f (hmem.mp hf).1 (hmem.mp hf).2
  obtain ⟨haround, hinside⟩ := foldl_meet (around_full (q := q)) hfinite fun f hf _ => hsatisfied f hf
  have drawn (u : ℚ) (h0 : 0 ≤ u) (h1 : u < 1) :
      ∃ v, (ofFacts name facts).valueAt (.finite u) = .finite v ∧
      ∀ f ∈ facts, f.subject = .symbol name → f.relation ≠ .ne →
          f.relation.holds (.finite v) f.bound = true := by
    obtain ⟨v, hv, rfl | hin⟩ := haround.valueAt_close h0 h1
    · exact ⟨v, hv, fun f hf hs _ => hq f hf hs⟩
    · exact ⟨v, hv, fun f hf hs => (hinside v hin).2 f (hmem.mpr ⟨hf, hs⟩)⟩
  refine ⟨drawn, ?_⟩
  intro g
  obtain ⟨u, hu, h0, h1⟩ := uniform_finite g.step
  rw [sample_eq, hu]
  exact drawn u h0 h1

/-- Between a strict and a weak bound, and where the ends meet. -/
theorem valueAt_satisfies_of_bounds :
    (∃ v, (ofFacts "x" [⟨.symbol "x", .gt, Exact.finite 1⟩, ⟨.symbol "x", .le, .finite 2⟩]).valueAt
      (.finite (1 / 2)) = .finite v ∧ (1 < v ∧ v ≤ 2)) ∧
    ∃ v, (ofFacts "x" [⟨.symbol "x", .ge, Exact.finite 3⟩, ⟨.symbol "x", .le, .finite 3⟩]).valueAt
      (.finite 0) = .finite v ∧ v = 3 := by
  constructor
  · obtain ⟨v, hv, h⟩ :=
      (valueAt_satisfies "x" [⟨.symbol "x", .gt, Exact.finite 1⟩, ⟨.symbol "x", .le, .finite 2⟩]
      (by simp [isFinite, toRat?, Exact.toRat?]) ⟨2, by simp [Relation.holds_finite]⟩).1 (1 / 2)
        (by norm_num) (by norm_num)
    exact ⟨v, hv, by simpa [Relation.holds_finite] using h⟩
  · obtain ⟨v, hv, h⟩ :=
      (valueAt_satisfies "x" [⟨.symbol "x", .ge, Exact.finite 3⟩, ⟨.symbol "x", .le, .finite 3⟩]
      (by simp [isFinite, toRat?, Exact.toRat?]) ⟨3, by simp [Relation.holds_finite]⟩).1 0 le_rfl
        (by norm_num)
    refine ⟨v, hv, ?_⟩
    have hboth : 3 ≤ v ∧ v ≤ 3 := by simpa [Relation.holds_finite] using h
    exact le_antisymm hboth.2 hboth.1

end Range

end Formulary
