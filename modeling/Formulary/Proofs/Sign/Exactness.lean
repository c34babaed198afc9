import Formulary.Proofs.Sign.Facts
import Mathlib

namespace Formulary

open Number

theorem Relation.HoldsOf.placed {r : Relation} {v : ℝ} {bound : Exact} (h : r.HoldsOf v bound)
    (hr : r ≠ .ne) : ∃ x, bound.toEReal? = some x := by
  unfold HoldsOf at h
  split at h
  · exact absurd h hr
  · next x hx => exact ⟨x, hx⟩

section Places

variable {ν : Type} [Number ν]

def Fact.inPlace (f : Fact ν) : Fact Exact := ⟨.symbol "", f.relation, toExact f.bound⟩

def Fact.HoldsAt (f : Fact ν) (q : ℚ) : Prop :=
  f.relation.holds (Exact.finite q) (toExact f.bound) = true

def Fact.solutions (facts : List (Fact ν)) : Set ℚ := {q | ∀ f ∈ facts, f.HoldsAt q}

theorem Fact.mem_solutions {facts : List (Fact ν)} {q : ℚ} :
    q ∈ solutions facts ↔ ∀ f ∈ facts.map inPlace, f.relation.HoldsOf q f.bound := by
  rw [List.forall_mem_map]
  exact forall₂_congr fun f _ => (f.relation.holdsOf_ratCast q _).symm

end Places

namespace Sign

variable {u v w : ℝ} {x y : EReal}

theorem holds_positive : Sign.positive.Holds (v : ℂ) ↔ 0 < v := by
  constructor
  · rintro ⟨b, hb, hv⟩
    rwa [Complex.ofReal_injective hv]
  · intro hv
    exact ⟨v, hv, rfl⟩

theorem holds_negative : Sign.negative.Holds (v : ℂ) ↔ v < 0 := by
  constructor
  · rintro ⟨b, hb, hv⟩
    rwa [Complex.ofReal_injective hv]
  · intro hv
    exact ⟨v, hv, rfl⟩

theorem holds_zero : Sign.zero.Holds (v : ℂ) ↔ v = 0 := Complex.ofReal_eq_zero

section Bounds

variable {b : Bound Exact}

theorem Bound.below_iff (h : b.value.toEReal? = some x) :
    b.Below v ↔ x ≤ v ∧ (b.strict = true → x ≠ v) := by
  rw [Below, h]
  simp

theorem Bound.above_iff (h : b.value.toEReal? = some x) :
    b.Above v ↔ v ≤ x ∧ (b.strict = true → x ≠ v) := by
  rw [Above, h]
  simp

theorem Bound.Below.mono (h : b.Below u) (huv : u ≤ v) : b.Below v := by
  obtain ⟨x, hx, hle, hne⟩ := h
  have huv : (u : EReal) ≤ v := EReal.coe_le_coe_iff.mpr huv
  refine ⟨x, hx, hle.trans huv, ?_⟩
  rintro hs rfl
  exact hne hs (le_antisymm hle huv)

theorem Bound.Above.mono (h : b.Above v) (huv : u ≤ v) : b.Above u := by
  obtain ⟨x, hx, hle, hne⟩ := h
  have huv : (u : EReal) ≤ v := EReal.coe_le_coe_iff.mpr huv
  refine ⟨x, hx, huv.trans hle, ?_⟩
  rintro hs rfl
  exact hne hs (le_antisymm huv hle)

def Bound.Placed (b : Bound Exact) : Prop := ∃ x, b.value.toEReal? = some x

structure Bound.Reached (b : Bound Exact) : Prop where
  placed : b.Placed
  rational : b.strict = false → ∃ q, b.value = .finite q

end Bounds

namespace Interval

variable {i j : Interval Exact} {b : Bound Exact} {f : Fact Exact} {facts : List (Fact Exact)}

def Spans (i : Interval Exact) (v : ℝ) : Prop := i.lo.Below v ∧ i.hi.Above v

theorem contains_iff : i.Contains v ↔ i.Spans v ∧ (i.excludesZero = true → v ≠ 0) :=
  ⟨fun h => ⟨⟨h.lo, h.hi⟩, h.ne_zero⟩, fun h => ⟨h.1.1, h.1.2, h.2⟩⟩

theorem Spans.between (hu : i.Spans u) (hw : i.Spans w) (huv : u ≤ v) (hvw : v ≤ w) : i.Spans v :=
  ⟨hu.1.mono huv, hw.2.mono hvw⟩

theorem spans_raise (hlo : i.lo.Placed) (hb : b.Placed) :
    (i.raise b).Spans v ↔ i.Spans v ∧ b.Below v := by
  obtain ⟨x, hx⟩ := hlo
  obtain ⟨y, hy⟩ := hb
  have hless : Number.less i.lo.value b.value = true ↔ x < y := Exact.less_iff_lt hx hy
  have hbeq : (b.value == i.lo.value) = true ↔ y = x := Exact.beq_iff_eq hy hx
  simp only [Spans, raise, Bool.or_eq_true, Bool.and_eq_true, hless, hbeq]
  split
  · next h =>
    constructor
    · rintro ⟨hl, hh⟩
      refine ⟨⟨?_, hh⟩, hl⟩
      rw [Bound.below_iff hx]
      rw [Bound.below_iff hy] at hl
      rcases h with hlt | ⟨rfl, hs⟩
      · exact ⟨(hlt.trans_le hl.1).le, fun _ => (hlt.trans_le hl.1).ne⟩
      · exact ⟨hl.1, fun _ => hl.2 hs⟩
    · rintro ⟨⟨-, hh⟩, hl⟩
      exact ⟨hl, hh⟩
  · next h =>
    refine ⟨fun hi => ⟨hi, ?_⟩, fun hi => hi.1⟩
    rw [Bound.below_iff hy]
    obtain ⟨hle, hne⟩ := (Bound.below_iff hx).mp hi.1
    obtain ⟨hxy, hs⟩ := not_or.mp h
    refine ⟨(not_lt.mp hxy).trans hle, ?_⟩
    rintro hstrict rfl
    exact hs ⟨le_antisymm (not_lt.mp hxy) hle, hstrict⟩

theorem spans_lower (hhi : i.hi.Placed) (hb : b.Placed) :
    (i.lower b).Spans v ↔ i.Spans v ∧ b.Above v := by
  obtain ⟨x, hx⟩ := hhi
  obtain ⟨y, hy⟩ := hb
  have hless : Number.less b.value i.hi.value = true ↔ y < x := Exact.less_iff_lt hy hx
  have hbeq : (b.value == i.hi.value) = true ↔ y = x := Exact.beq_iff_eq hy hx
  simp only [Spans, lower, Bool.or_eq_true, Bool.and_eq_true, hless, hbeq]
  split
  · next h =>
    constructor
    · rintro ⟨hl, hh⟩
      refine ⟨⟨hl, ?_⟩, hh⟩
      rw [Bound.above_iff hx]
      rw [Bound.above_iff hy] at hh
      rcases h with hlt | ⟨rfl, hs⟩
      · exact ⟨(hh.1.trans_lt hlt).le, fun _ => (hh.1.trans_lt hlt).ne'⟩
      · exact ⟨hh.1, fun _ => hh.2 hs⟩
    · rintro ⟨⟨hl, -⟩, hh⟩
      exact ⟨hl, hh⟩
  · next h =>
    refine ⟨fun hi => ⟨hi, ?_⟩, fun hi => hi.1⟩
    rw [Bound.above_iff hy]
    obtain ⟨hle, hne⟩ := (Bound.above_iff hx).mp hi.2
    obtain ⟨hxy, hs⟩ := not_or.mp h
    refine ⟨hle.trans (not_lt.mp hxy), ?_⟩
    rintro hstrict rfl
    exact hs ⟨le_antisymm hle (not_lt.mp hxy), hstrict⟩

theorem ends_meet {P : Bound Exact → Prop} (hi : P i.lo ∧ P i.hi)
    (hf : f.relation ≠ .ne → ∀ s, P ⟨f.bound, s⟩) : P (i.meet f).lo ∧ P (i.meet f).hi := by
  have raised (i : Interval Exact) (b : Bound Exact) (hi : P i.lo ∧ P i.hi) (hb : P b) :
      P (i.raise b).lo ∧ P (i.raise b).hi := by
    unfold raise
    split
    · exact ⟨hb, hi.2⟩
    · exact hi
  have lowered (i : Interval Exact) (b : Bound Exact) (hi : P i.lo ∧ P i.hi) (hb : P b) :
      P (i.lower b).lo ∧ P (i.lower b).hi := by
    unfold lower
    split
    · exact ⟨hi.1, hb⟩
    · exact hi
  obtain ⟨subject, relation, bound⟩ := f
  cases relation with
  | gt | ge => exact raised i _ hi (hf nofun _)
  | lt | le => exact lowered i _ hi (hf nofun _)
  | eq => exact lowered _ _ (raised i _ hi (hf nofun _)) (hf nofun _)
  | ne =>
      unfold meet
      simp only
      split <;> exact hi

theorem spans_meet (hlo : i.lo.Placed) (hhi : i.hi.Placed)
    (hf : f.relation ≠ .ne → ∃ x, f.bound.toEReal? = some x) :
    (i.meet f).Spans v ↔ i.Spans v ∧ (f.relation ≠ .ne → f.relation.HoldsOf v f.bound) := by
  obtain ⟨subject, relation, bound⟩ := f
  by_cases hne : relation = .ne
  · subst hne
    have hsame : (i.meet ⟨subject, .ne, bound⟩).Spans v ↔ i.Spans v := by
      unfold meet
      simp only
      split <;> exact Iff.rfl
    simp [hsame]
  · obtain ⟨x, hx⟩ := hf hne
    have placed (s : Bool) : Bound.Placed ⟨bound, s⟩ := ⟨x, hx⟩
    have below (s : Bool) : Bound.Below ⟨bound, s⟩ v ↔ x ≤ v ∧ (s = true → x ≠ v) :=
      Bound.below_iff hx
    have above (s : Bool) : Bound.Above ⟨bound, s⟩ v ↔ v ≤ x ∧ (s = true → x ≠ v) :=
      Bound.above_iff hx
    simp only [Relation.HoldsOf, hx]
    cases relation with
    | gt =>
        refine (spans_raise hlo (placed true)).trans (and_congr_right fun _ => ?_)
        simp [below, lt_iff_le_and_ne]
    | ge =>
        refine (spans_raise hlo (placed false)).trans (and_congr_right fun _ => ?_)
        simp [below]
    | lt =>
        refine (spans_lower hhi (placed true)).trans (and_congr_right fun _ => ?_)
        simp [above, lt_iff_le_and_ne, ne_comm]
    | le =>
        refine (spans_lower hhi (placed false)).trans (and_congr_right fun _ => ?_)
        simp [above]
    | eq =>
        have hraised : (i.raise ⟨bound, false⟩).hi.Placed := by
          unfold raise
          split <;> exact hhi
        refine (spans_lower hraised (placed false)).trans ?_
        rw [spans_raise hlo (placed false), and_assoc]
        refine and_congr_right fun _ => ?_
        simp [below, above, le_antisymm_iff, and_comm]
    | ne => exact absurd rfl hne

theorem excludesZero_meet : (i.meet f).excludesZero = true ↔ i.excludesZero = true ∨
    f.relation = .ne ∧ isZero f.bound = true := by
  obtain ⟨subject, relation, bound⟩ := f
  have raised (i : Interval Exact) (b : Bound Exact) : (i.raise b).excludesZero = i.excludesZero := by
    unfold raise
    split <;> rfl
  have lowered (i : Interval Exact) (b : Bound Exact) :
      (i.lower b).excludesZero = i.excludesZero := by
    unfold lower
    split <;> rfl
  cases relation with
  | gt | ge => simp [meet, raised]
  | lt | le => simp [meet, lowered]
  | eq => simp [meet, raised, lowered]
  | ne =>
      unfold meet
      simp only
      split <;> simp_all

section Facts

variable {facts : List (Fact Exact)}

theorem spans_full : (full : Interval Exact).Spans v := ⟨(contains_full v).lo, (contains_full v).hi⟩

/-- What the full interval has of its ends and every fact keeps, the facts together keep. -/
theorem ofFacts_ends {P : Bound Exact → Prop} (hlo : P ⟨.infinite true, true⟩)
    (hhi : P ⟨.infinite false, true⟩) (hf : ∀ f ∈ facts, f.relation ≠ .ne → ∀ s, P ⟨f.bound, s⟩) :
    P (ofFacts facts).lo ∧ P (ofFacts facts).hi := by
  have from_interval (i : Interval Exact) (hi : P i.lo ∧ P i.hi) :
      P (facts.foldl meet i).lo ∧ P (facts.foldl meet i).hi := by
    induction facts generalizing i with
    | nil => exact hi
    | cons f fs ih =>
        apply ih fun g hg => hf g (List.mem_cons_of_mem _ hg)
        exact ends_meet hi (hf f List.mem_cons_self)
  exact from_interval full ⟨hlo, hhi⟩

theorem spans_ofFacts (hf : ∀ f ∈ facts, f.relation ≠ .ne → ∃ x, f.bound.toEReal? = some x) :
    (ofFacts facts).Spans v ↔ ∀ f ∈ facts, f.relation ≠ .ne → f.relation.HoldsOf v f.bound := by
  have from_interval (i : Interval Exact) (hi : i.lo.Placed ∧ i.hi.Placed) :
      (facts.foldl meet i).Spans v ↔ i.Spans v ∧ ∀ f ∈ facts, f.relation ≠ .ne →
          f.relation.HoldsOf v f.bound := by
    induction facts generalizing i with
    | nil => simp
    | cons f fs ih =>
        have hfirst := hf f List.mem_cons_self
        have hends : (i.meet f).lo.Placed ∧ (i.meet f).hi.Placed := ends_meet hi fun hr _ => hfirst hr
        rw [List.foldl_cons, ih (fun g hg => hf g (List.mem_cons_of_mem _ hg)) _ hends,
          spans_meet hi.1 hi.2 hfirst, and_assoc, List.forall_mem_cons]
  rw [ofFacts, from_interval full ⟨⟨⊥, rfl⟩, ⟨⊤, rfl⟩⟩]
  exact and_iff_right spans_full

theorem excludesZero_ofFacts : (ofFacts facts).excludesZero = true ↔ ∃ f ∈ facts, f.relation = .ne ∧
    isZero f.bound = true := by
  have from_interval (i : Interval Exact) :
      (facts.foldl meet i).excludesZero = true ↔ i.excludesZero = true ∨
          ∃ f ∈ facts, f.relation = .ne ∧ isZero f.bound = true := by
    induction facts generalizing i with
    | nil => simp
    | cons f fs ih => rw [List.foldl_cons, ih, excludesZero_meet, List.exists_mem_cons_iff, or_assoc]
  rw [ofFacts, from_interval]
  exact or_iff_right nofun

/-- The interval has the values at which the facts hold, those apart that exclude a point other than
zero. -/
theorem contains_ofFacts (hf : ∀ f ∈ facts, f.relation ≠ .ne → ∃ x, f.bound.toEReal? = some x) :
    (ofFacts facts).Contains v ↔ ∀ f ∈ facts, (f.relation = .ne → isZero f.bound = true) →
      f.relation.HoldsOf v f.bound := by
  have zero {f : Fact Exact} (hne : f.relation = .ne) (h0 : isZero f.bound = true) :
      f.relation.HoldsOf v f.bound ↔ v ≠ 0 := by
    rw [hne, Exact.eq_of_beq h0, Relation.HoldsOf, Exact.toEReal?_zero]
    simp
  rw [contains_iff, spans_ofFacts hf, excludesZero_ofFacts]
  constructor
  · rintro ⟨hspans, hzero⟩ f hmem hcounts
    by_cases hne : f.relation = .ne
    · exact (zero hne (hcounts hne)).mpr (hzero ⟨f, hmem, hne, hcounts hne⟩)
    · exact hspans f hmem hne
  · intro h
    refine ⟨fun f hmem hne => h f hmem fun heq => absurd heq hne, ?_⟩
    rintro ⟨f, hmem, hne, h0⟩
    exact (zero hne h0).mp (h f hmem fun _ => h0)

end Facts

section Signs

theorem Contains.isEmpty (h : i.Contains v) : i.isEmpty = false := by
  obtain ⟨⟨x, hx, hxv, hxs⟩, ⟨y, hy, hvy, hys⟩, hz⟩ := h
  have hless : less i.hi.value i.lo.value = true ↔ y < x := Exact.less_iff_lt hy hx
  have hbeq : (i.lo.value == i.hi.value) = true ↔ x = y := Exact.beq_iff_eq hx hy
  rw [Bool.eq_false_iff, Interval.isEmpty]
  simp only [ne_eq, Bool.or_eq_true, Bool.and_eq_true, hless, hbeq, Exact.isZero_iff hx,
    Exact.isZero_iff hy]
  rintro ((hlt | ⟨rfl, hs⟩) | ⟨⟨he, rfl⟩, rfl⟩)
  · exact absurd (hxv.trans hvy) hlt.not_ge
  · have hv : x = v := le_antisymm hxv hvy
    exact hs.elim (hxs · hv) (hys · hv)
  · exact hz he (EReal.coe_eq_zero.mp (le_antisymm hvy hxv))

theorem exists_le_zero (hw : i.Contains w) (h : i.sign ≠ .positive) : ∃ v ≤ 0, i.Contains v := by
  obtain ⟨⟨x, hx, hxw, -⟩, ⟨y, hy, hwy, hys⟩, hz⟩ := id hw
  have hlo : ¬(0 < x ∨ x = 0 ∧ (i.lo.strict = true ∨ i.excludesZero = true)) := by
    intro hc
    apply h
    simp [Interval.sign, hw.isEmpty, Exact.isPositive_iff hx, Exact.isZero_iff hx, hc]
  obtain ⟨hx0, hopen⟩ := not_or.mp hlo
  rcases le_or_gt w 0 with hw0 | hw0
  · exact ⟨w, hw0, hw⟩
  rcases (not_lt.mp hx0).lt_or_eq with hlt | rfl
  · obtain ⟨v, hxv, hv0⟩ := EReal.lt_iff_exists_real_btwn.mp hlt
    have hv0 : v < 0 := EReal.coe_neg'.mp hv0
    refine ⟨v, hv0.le, ⟨x, hx, hxv.le, fun _ => hxv.ne⟩, ?_, fun _ => hv0.ne⟩
    exact hw.hi.mono (hv0.trans hw0).le
  · have hlo : i.lo.Below 0 := ⟨0, hx, le_rfl, fun hs => absurd ⟨rfl, .inl hs⟩ hopen⟩
    exact ⟨0, le_rfl, hlo, hw.hi.mono hw0.le, fun he => absurd ⟨rfl, .inr he⟩ hopen⟩

theorem exists_zero_le (hw : i.Contains w) (h : i.sign ≠ .negative) : ∃ v, 0 ≤ v ∧ i.Contains v := by
  obtain ⟨⟨x, hx, hxw, -⟩, ⟨y, hy, hwy, -⟩, -⟩ := id hw
  rcases le_or_gt 0 w with hw0 | hw0
  · exact ⟨w, hw0, hw⟩
  have hx0 : x < 0 := hxw.trans_lt (EReal.coe_neg'.mpr hw0)
  have hhi : ¬(y < 0 ∨ y = 0 ∧ (i.hi.strict = true ∨ i.excludesZero = true)) := by
    intro hc
    apply h
    simp [Interval.sign, hw.isEmpty, Exact.isPositive_iff hx, Exact.isZero_iff hx,
      Exact.isNegative_iff hy, Exact.isZero_iff hy, hc, hx0.not_gt, hx0.ne]
  obtain ⟨hy0, hopen⟩ := not_or.mp hhi
  rcases (not_lt.mp hy0).lt_or_eq with hlt | rfl
  · obtain ⟨v, hv0, hvy⟩ := EReal.lt_iff_exists_real_btwn.mp hlt
    have hv0 : 0 < v := EReal.coe_pos.mp hv0
    refine ⟨v, hv0.le, ?_, ⟨y, hy, hvy.le, fun _ => hvy.ne'⟩, fun _ => hv0.ne'⟩
    exact hw.lo.mono (hw0.trans hv0).le
  · have hhi : i.hi.Above 0 := ⟨0, hy, le_rfl, fun hs => absurd ⟨rfl, .inl hs⟩ hopen⟩
    exact ⟨0, le_rfl, hw.lo.mono hw0.le, hhi, fun he => absurd ⟨rfl, .inr he⟩ hopen⟩

theorem exists_ne_zero (hw : i.Contains w) (h : i.sign ≠ .zero) : ∃ v, v ≠ 0 ∧ i.Contains v := by
  by_cases hw0 : w = 0
  swap
  · exact ⟨w, hw0, hw⟩
  subst hw0
  obtain ⟨⟨x, hx, hxw, hxs⟩, ⟨y, hy, hwy, hys⟩, hz⟩ := id hw
  rcases hxw.lt_or_eq with hlt | rfl
  · obtain ⟨v, hxv, hv0⟩ := EReal.lt_iff_exists_real_btwn.mp hlt
    have hv0 : v < 0 := EReal.coe_lt_coe_iff.mp hv0
    exact ⟨v, hv0.ne, ⟨x, hx, hxv.le, fun _ => hxv.ne⟩, hw.hi.mono hv0.le, fun _ => hv0.ne⟩
  rcases hwy.lt_or_eq with hlt | rfl
  · obtain ⟨v, hv0, hvy⟩ := EReal.lt_iff_exists_real_btwn.mp hlt
    have hv0 : 0 < v := EReal.coe_lt_coe_iff.mp hv0
    exact ⟨v, hv0.ne', hw.lo.mono hv0.le, ⟨y, hy, hvy.le, fun _ => hvy.ne'⟩, fun _ => hv0.ne'⟩
  · -- both ends are at zero, which is left
    exfalso
    apply h
    have hlo : i.lo.strict = false := Bool.eq_false_iff.mpr fun hs => hxs hs rfl
    have hhi : i.hi.strict = false := Bool.eq_false_iff.mpr fun hs => hys hs rfl
    have he : i.excludesZero = false := Bool.eq_false_iff.mpr fun he => hz he rfl
    simp [Interval.sign, hw.isEmpty, Exact.isPositive_iff hx, Exact.isZero_iff hx,
      Exact.isNegative_iff hy, Exact.isZero_iff hy, hlo, hhi, he]

/-- An interval with a value in it has every sign that all its values have. -/
theorem sign_eq_of_forall {s : Sign} (hw : i.Contains w) (hs : s ≠ .unknown)
    (h : ∀ v, i.Contains v → s.Holds v) : i.sign = s := by
  by_contra hne
  cases s with
  | positive =>
      obtain ⟨v, hv0, hv⟩ := exists_le_zero hw hne
      exact (holds_positive.mp (h v hv)).not_ge hv0
  | negative =>
      obtain ⟨v, hv0, hv⟩ := exists_zero_le hw hne
      exact (holds_negative.mp (h v hv)).not_ge hv0
  | zero =>
      obtain ⟨v, hv0, hv⟩ := exists_ne_zero hw hne
      exact hv0 (holds_zero.mp (h v hv))
  | unknown => exact hs rfl

theorem sign_mono (hw : j.Contains w) (hji : ∀ v, j.Contains v → i.Contains v)
    (hs : i.sign ≠ .unknown) : j.sign = i.sign :=
  sign_eq_of_forall hw hs fun v hv => (hji v hv).sign

end Signs

section Rationals

variable {facts : List (Fact Exact)} {q : ℚ}

/-- An interval that is not empty has a rational value, since its ends are open at the infinities. -/
theorem exists_rat_contains (hlo : i.lo.Reached) (hhi : i.hi.Reached) (h : i.isEmpty = false) :
    ∃ q : ℚ, i.Contains q := by
  obtain ⟨⟨x, hx⟩, hloq⟩ := hlo
  obtain ⟨⟨y, hy⟩, -⟩ := hhi
  have hless : less i.hi.value i.lo.value = true ↔ y < x := Exact.less_iff_lt hy hx
  have hbeq : (i.lo.value == i.hi.value) = true ↔ x = y := Exact.beq_iff_eq hx hy
  rw [Bool.eq_false_iff, Interval.isEmpty] at h
  simp only [ne_eq, Bool.or_eq_true, Bool.and_eq_true, hless, hbeq, Exact.isZero_iff hx,
    Exact.isZero_iff hy, not_or] at h
  obtain ⟨⟨hyx, hclosed⟩, hzero⟩ := h
  have inside {q : ℚ} (hxq : x < (q : ℝ)) (hqy : ((q : ℝ) : EReal) < y) (hq : q ≠ 0) : i.Contains q :=
    ⟨⟨x, hx, hxq.le, fun _ => hxq.ne⟩, ⟨y, hy, hqy.le, fun _ => hqy.ne'⟩,
      fun _ => Rat.cast_ne_zero.mpr hq⟩
  rcases (not_lt.mp hyx).lt_or_eq with hlt | rfl
  · -- of two values between the ends one is not zero
    obtain ⟨p, hxp, hpy⟩ := EReal.lt_iff_exists_rat_btwn.mp hlt
    obtain ⟨q, hpq, hqy⟩ := EReal.lt_iff_exists_rat_btwn.mp hpy
    by_cases hp : p = 0
    · subst hp
      have hq : (0 : ℚ) ≠ q := by
        rintro rfl
        exact lt_irrefl _ hpq
      exact ⟨q, inside (hxp.trans hpq) hqy hq.symm⟩
    · exact ⟨p, inside hxp hpy hp⟩
  · obtain ⟨hlos, hhis⟩ := not_or.mp (not_and.mp hclosed rfl)
    obtain ⟨q, hq⟩ := hloq (Bool.eq_false_iff.mpr hlos)
    rw [hq] at hx
    obtain rfl := Option.some.inj hx
    refine ⟨q, ⟨⟨_, by rw [hq]; rfl, le_rfl, fun hs => absurd hs hlos⟩,
      ⟨_, hy, le_rfl, fun hs => absurd hs hhis⟩, ?_⟩⟩
    intro he hq0
    have hq0 : ((q : ℝ) : EReal) = 0 := by rw [hq0, EReal.coe_zero]
    exact hzero ⟨⟨he, hq0⟩, hq0⟩

variable (hf : ∀ f ∈ facts, ∃ q, f.bound = .finite q)
include hf

theorem placed_of_finite : ∀ f ∈ facts, f.relation ≠ .ne → ∃ x, f.bound.toEReal? = some x := by
  intro f hmem _
  obtain ⟨q, hq⟩ := hf f hmem
  exact ⟨_, by rw [hq]; rfl⟩

theorem sign_eq_unknown (h : ¬∃ q : ℚ, (ofFacts facts).Contains q) :
    (ofFacts facts).sign = .unknown := by
  have hends : (ofFacts facts).lo.Reached ∧ (ofFacts facts).hi.Reached := by
    refine ofFacts_ends ⟨⟨⊥, rfl⟩, nofun⟩ ⟨⟨⊤, rfl⟩, nofun⟩ ?_
    intro f hmem hne s
    exact ⟨placed_of_finite hf f hmem hne, fun _ => hf f hmem⟩
  have hempty : (ofFacts facts).isEmpty = true := by
    by_contra hne
    exact h (exists_rat_contains hends.1 hends.2 (Bool.eq_false_iff.mpr hne))
  rw [Interval.sign, if_pos hempty]

theorem sign_eq_unknown_of_bounds
    (h : ¬∃ q : ℚ, ∀ f ∈ facts, f.relation ≠ .ne → f.relation.HoldsOf q f.bound) :
    (ofFacts facts).sign = .unknown := by
  apply sign_eq_unknown hf
  rintro ⟨q, hq⟩
  exact h ⟨q, (spans_ofFacts (placed_of_finite hf)).mp ⟨hq.lo, hq.hi⟩⟩

/-- Between two values that the ends leave there is a rational at which all facts hold: they exclude
finitely many. -/
theorem exists_rat_between (hu : (ofFacts facts).Spans u) (hw : (ofFacts facts).Spans w)
    (huw : u < w) : ∃ q : ℚ, u < q ∧ q < w ∧ ∀ f ∈ facts, f.relation.HoldsOf q f.bound := by
  obtain ⟨p, hup, hpw⟩ := exists_rat_btwn huw
  obtain ⟨r, hpr, hrw⟩ := exists_rat_btwn hpw
  have hpr : p < r := by exact_mod_cast hpr
  obtain ⟨q, hq, hout⟩ :=
    (Set.Ioo_infinite hpr).exists_notMem_finset (facts.filterMap fun f => toRat? f.bound).toFinset
  have huq : u < q := hup.trans (by exact_mod_cast hq.1)
  have hqw : q < w := lt_trans (by exact_mod_cast hq.2) hrw
  refine ⟨q, huq, hqw, fun f hmem => ?_⟩
  by_cases hne : f.relation = .ne
  · obtain ⟨b, hb⟩ := hf f hmem
    rw [hne, hb]
    have hqb : q ≠ b := by
      rintro rfl
      apply hout
      rw [List.mem_toFinset, List.mem_filterMap]
      exact ⟨f, hmem, by rw [hb]; rfl⟩
    exact fun heq => hqb (by exact_mod_cast heq)
  · exact (spans_ofFacts (placed_of_finite hf)).mp (hu.between hw huq.le hqw.le) f hmem hne

theorem holds_at_zero (h : (ofFacts facts).Contains 0) :
    ∀ f ∈ facts, f.relation.HoldsOf 0 f.bound := by
  intro f hmem
  by_cases hcounts : f.relation = .ne → isZero f.bound = true
  · exact (contains_ofFacts (placed_of_finite hf)).mp h f hmem hcounts
  · obtain ⟨hne, h0⟩ := Classical.not_imp.mp hcounts
    obtain ⟨b, hb⟩ := hf f hmem
    rw [hne, hb]
    rw [hb, Exact.isZero_iff rfl] at h0
    exact fun heq => h0 (by rw [← heq, EReal.coe_zero])

theorem exists_rat_same_sign (hq : ∀ f ∈ facts, f.relation.HoldsOf q f.bound)
    (hv : (ofFacts facts).Contains v) :
    ∃ p : ℚ, (∀ f ∈ facts, f.relation.HoldsOf p f.bound) ∧ ∀ s : Sign, s.Holds ((p : ℝ) : ℂ) →
      s.Holds (v : ℂ) := by
  have hspans : (ofFacts facts).Spans q := (spans_ofFacts (placed_of_finite hf)).mpr fun f hmem _ =>
    hq f hmem
  have hvspans : (ofFacts facts).Spans v := ⟨hv.lo, hv.hi⟩
  have negative {p : ℚ} (hp : (p : ℝ) < 0) (hv0 : v < 0) (s : Sign) (h : s.Holds ((p : ℝ) : ℂ)) :
      s.Holds (v : ℂ) := by
    cases s with
    | positive => exact absurd (holds_positive.mp h) hp.not_gt
    | negative => exact holds_negative.mpr hv0
    | zero => exact absurd (holds_zero.mp h) hp.ne
    | unknown => trivial
  have positive {p : ℚ} (hp : 0 < (p : ℝ)) (hv0 : 0 < v) (s : Sign) (h : s.Holds ((p : ℝ) : ℂ)) :
      s.Holds (v : ℂ) := by
    cases s with
    | positive => exact holds_positive.mpr hv0
    | negative => exact absurd (holds_negative.mp h) hp.not_gt
    | zero => exact absurd (holds_zero.mp h) hp.ne'
    | unknown => trivial
  rcases lt_trichotomy v 0 with hv0 | rfl | hv0
  · rcases lt_or_ge (q : ℝ) 0 with hq0 | hq0
    · exact ⟨q, hq, negative hq0 hv0⟩
    · obtain ⟨p, -, hp0, hp⟩ := exists_rat_between hf hvspans (hvspans.between hspans hv0.le hq0) hv0
      exact ⟨p, hp, negative hp0 hv0⟩
  · refine ⟨0, ?_, fun s h => by rwa [Rat.cast_zero] at h⟩
    rw [Rat.cast_zero]
    exact holds_at_zero hf hv
  · rcases lt_or_ge 0 (q : ℝ) with hq0 | hq0
    · exact ⟨q, hq, positive hq0 hv0⟩
    · obtain ⟨p, hp0, -, hp⟩ := exists_rat_between hf (hspans.between hvspans hq0 hv0.le) hvspans hv0
      exact ⟨p, hp, positive hp0 hv0⟩

theorem sign_eq_iff {s : Sign} (hs : s ≠ .unknown) (hq : ∀ f ∈ facts, f.relation.HoldsOf q f.bound) :
    (ofFacts facts).sign = s ↔ ∀ p : ℚ, (∀ f ∈ facts, f.relation.HoldsOf p f.bound) →
      s.Holds ((p : ℝ) : ℂ) := by
  have hcontains {p : ℚ} (hp : ∀ f ∈ facts, f.relation.HoldsOf p f.bound) :
      (ofFacts facts).Contains p :=
    (contains_ofFacts (placed_of_finite hf)).mpr fun f hmem _ => hp f hmem
  constructor
  · rintro rfl p hp
    exact (hcontains hp).sign
  · intro h
    apply sign_eq_of_forall (hcontains hq) hs
    intro v hv
    obtain ⟨p, hp, hsame⟩ := exists_rat_same_sign hf hq hv
    exact hsame s (h p hp)

/-- The sign is that of the set of facts. -/
theorem sign_perm {others : List (Fact Exact)} (h : facts.Perm others) :
    (ofFacts others).sign = (ofFacts facts).sign := by
  have hf' : ∀ f ∈ others, ∃ q, f.bound = .finite q := fun f hmem => hf f (h.mem_iff.mpr hmem)
  have hsame (v : ℝ) : (ofFacts others).Contains v ↔ (ofFacts facts).Contains v := by
    rw [contains_ofFacts (placed_of_finite hf), contains_ofFacts (placed_of_finite hf')]
    simp only [h.mem_iff]
  by_cases hq : ∃ q : ℚ, (ofFacts facts).Contains q
  · obtain ⟨q, hq⟩ := hq
    by_cases hs : (ofFacts facts).sign = .unknown
    · by_contra hne
      rw [hs] at hne
      rw [sign_mono hq (fun v => (hsame v).mpr) hne] at hs
      exact hne hs
    · exact sign_mono ((hsame q).mpr hq) (fun v => (hsame v).mp) hs
  · rw [sign_eq_unknown hf hq, sign_eq_unknown hf' (by simpa only [hsame] using hq)]

end Rationals

section Places

variable {ν : Type} [Number ν] [OrderedNumber ν]

theorem toExact_ofFacts (facts : List (Fact ν)) :
    (ofFacts facts).toExact = ofFacts (facts.map Fact.inPlace) := by
  have from_interval (i : Interval ν) :
      (facts.foldl meet i).toExact = (facts.map Fact.inPlace).foldl meet i.toExact := by
    induction facts generalizing i with
    | nil => rfl
    | cons f fs ih => rw [List.foldl_cons, ih, toExact_meet i f (.symbol "")]; rfl
  rw [ofFacts, from_interval, toExact_full]
  rfl

theorem sign_inPlace (facts : List (Fact ν)) :
    (ofFacts (facts.map Fact.inPlace)).sign = (ofFacts facts).sign := by
  rw [← toExact_ofFacts, sign_toExact]

end Places

end Interval

section Symbols

variable {ν : Type} [Number ν] [OrderedNumber ν]

theorem ofFacts_eq (facts : List (Fact ν)) (x : Expr ν) :
    ofFacts facts x = (Interval.ofFacts (facts.filter (·.subject == x))).sign := by
  unfold ofFacts
  split
  · next hnone =>
    rw [hnone, ← Interval.sign_inPlace]
    rfl
  · rfl

theorem fromFacts_symbol {name : String} (hname : name ∉ positiveConstants) {facts : List (Fact ν)}
    (hsubject : ∀ f ∈ facts, f.subject = .symbol name) :
    fromFacts (.symbol name) (.stated facts) = (Interval.ofFacts facts).sign := by
  have habout : facts.filter (·.subject == .symbol name) = facts := by
    rw [List.filter_eq_self]
    intro f hf
    rw [hsubject f hf]
    exact beq_self_eq_true name
  have hfacts : ofFacts facts (.symbol name) = (Interval.ofFacts facts).sign := by
    rw [ofFacts_eq, habout]
  have hsymbol : ofSymbol name = .unknown := by rw [ofSymbol, if_neg (by simpa using hname)]
  rw [fromFacts, Assumptions.facts, ofExpr, hfacts, structural, hsymbol]
  cases (Interval.ofFacts facts).sign <;> rfl

/-- Facts about a symbol decide its sign exactly when all their solutions have it, in whatever order
the facts come. -/
theorem fromFacts_symbol_exact {name : String} (hname : name ∉ positiveConstants)
    {facts : List (Fact ν)} (hsubject : ∀ f ∈ facts, f.subject = .symbol name)
    (hfinite : ∀ f ∈ facts, isFinite f.bound = true) :
    ((Fact.solutions facts).Nonempty →
      (fromFacts (.symbol name) (.stated facts) = .positive ↔ ∀ q ∈ Fact.solutions facts, 0 < q) ∧
      (fromFacts (.symbol name) (.stated facts) = .negative ↔ ∀ q ∈ Fact.solutions facts, q < 0) ∧
      (fromFacts (.symbol name) (.stated facts) = .zero ↔ ∀ q ∈ Fact.solutions facts, q = 0) ∧
      (fromFacts (.symbol name) (.stated facts) = .unknown ↔
        ¬(∀ q ∈ Fact.solutions facts, 0 < q) ∧ ¬(∀ q ∈ Fact.solutions facts, q < 0) ∧
        ¬∀ q ∈ Fact.solutions facts, q = 0)) ∧
    (Fact.solutions (facts.filter (·.relation ≠ .ne)) = ∅ →
      fromFacts (.symbol name) (.stated facts) = .unknown) ∧
    ∀ others, facts.Perm others →
      fromFacts (.symbol name) (.stated others) = fromFacts (.symbol name) (.stated facts) := by
  have hplaces : ∀ f ∈ facts.map Fact.inPlace, ∃ q, f.bound = .finite q := by
    rw [List.forall_mem_map]
    intro f hf
    obtain ⟨q, hq⟩ := Option.isSome_iff_exists.mp (hfinite f hf)
    exact ⟨q, toExact_of_toRat? hq⟩
  rw [fromFacts_symbol hname hsubject]
  refine ⟨?_, ?_, ?_⟩
  · rintro ⟨q, hq⟩
    have decided {s : Sign} (hs : s ≠ .unknown) :
        (Interval.ofFacts facts).sign = s ↔ ∀ p ∈ Fact.solutions facts, s.Holds ((p : ℝ) : ℂ) := by
      rw [← Interval.sign_inPlace, Interval.sign_eq_iff hplaces hs (Fact.mem_solutions.mp hq)]
      simp only [Fact.mem_solutions]
    have hpositive := decided (s := .positive) nofun
    have hnegative := decided (s := .negative) nofun
    have hzero := decided (s := .zero) nofun
    simp only [holds_positive, holds_negative, holds_zero, Rat.cast_pos, Rat.cast_lt_zero,
      Rat.cast_eq_zero] at hpositive hnegative hzero
    refine ⟨hpositive, hnegative, hzero, ?_⟩
    rw [← hpositive, ← hnegative, ← hzero]
    cases (Interval.ofFacts facts).sign <;> simp
  · intro hnone
    rw [← Interval.sign_inPlace]
    apply Interval.sign_eq_unknown_of_bounds hplaces
    rintro ⟨q, hq⟩
    rw [← Set.mem_empty_iff_false q, ← hnone]
    intro f hf
    obtain ⟨hmem, hne⟩ := List.mem_filter.mp hf
    apply (f.relation.holdsOf_ratCast q _).mp
    exact hq _ (List.mem_map_of_mem hmem) (of_decide_eq_true hne)
  · intro others hperm
    rw [fromFacts_symbol hname fun f hf => hsubject f (hperm.mem_iff.mpr hf),
      ← Interval.sign_inPlace others, ← Interval.sign_inPlace facts]
    exact Interval.sign_perm hplaces (hperm.map _)

/-- Being at least zero and not zero is positive; bounds that no number is between decide nothing. -/
theorem fromFacts_symbol_exact_of_two :
    (fromFacts (.symbol "x")
      (.stated [⟨.symbol "x", .ne, Exact.finite 0⟩, ⟨.symbol "x", .ge, .finite 0⟩]) = .positive ↔
      ∀ q ∈ Fact.solutions [⟨.symbol "x", .ne, Exact.finite 0⟩, ⟨.symbol "x", .ge, .finite 0⟩],
        0 < q) ∧
    fromFacts (.symbol "x")
      (.stated [⟨.symbol "x", .ge, Exact.finite 1⟩, ⟨.symbol "x", .lt, .finite 1⟩]) = .unknown := by
  constructor
  · have hone : (1 : ℚ) ∈ Fact.solutions [⟨.symbol "x", .ne, Exact.finite 0⟩,
        ⟨.symbol "x", .ge, .finite 0⟩] := by
      intro f hf
      fin_cases hf <;> rfl
    exact ((fromFacts_symbol_exact (by decide) (by simp)
      (by simp [isFinite, toRat?, Exact.toRat?])).1 ⟨1, hone⟩).1
  · apply (fromFacts_symbol_exact (by decide) (by simp)
      (by simp [isFinite, toRat?, Exact.toRat?])).2.1
    rw [Set.eq_empty_iff_forall_notMem]
    intro q hq
    have hge := Fact.mem_solutions.mp hq ⟨.symbol "", .ge, .finite 1⟩ (by simp [Fact.inPlace])
    have hlt := Fact.mem_solutions.mp hq ⟨.symbol "", .lt, .finite 1⟩ (by simp [Fact.inPlace])
    exact absurd hge (not_le_of_gt hlt)

end Symbols

end Sign

end Formulary
