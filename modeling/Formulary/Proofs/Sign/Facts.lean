import Formulary.Proofs.Number.Order
import Formulary.Proofs.Value.Analytic
import Formulary.Sign
import Mathlib

namespace Formulary

open Number

def Sign.Holds (s : Sign) (v : ℂ) : Prop :=
  match s with
  | .positive => ∃ b : ℝ, 0 < b ∧ v = b
  | .negative => ∃ b : ℝ, b < 0 ∧ v = b
  | .zero => v = 0
  | .unknown => True

theorem Sign.Holds.exists_real {s : Sign} {v : ℂ} (h : s.Holds v) (hs : s ≠ .unknown) :
    ∃ b : ℝ, v = b ∧ (s = .negative ↔ b < 0) := by
  cases s with
  | positive =>
      obtain ⟨b, hb, rfl⟩ := h
      exact ⟨b, rfl, nofun, fun hn => absurd hb hn.not_gt⟩
  | negative =>
      obtain ⟨b, hb, rfl⟩ := h
      exact ⟨b, rfl, fun _ => hb, fun _ => rfl⟩
  | zero =>
      refine ⟨0, ?_, nofun, fun hn => absurd hn (lt_irrefl 0)⟩
      rw [Complex.ofReal_zero]
      exact h
  | unknown => exact absurd rfl hs

noncomputable def Exact.toEReal? : Exact → Option EReal
  | .undefined => none
  | .finite q => some ((q : ℝ) : EReal)
  | .infinite negative => some (if negative then ⊥ else ⊤)

namespace Exact

variable {a b : Exact} {x y : EReal}

theorem toEReal?_zero : (zero : Exact).toEReal? = some 0 := by
  have hz : (zero : Exact) = .finite 0 := rfl
  simp [hz, toEReal?]

theorem less_iff : less a b = true ↔ ∃ x y, a.toEReal? = some x ∧ b.toEReal? = some y ∧ x < y := by
  cases a with
  | undefined => simp [less, toEReal?]
  | finite p =>
      cases b with
      | undefined => simp [less, toEReal?]
      | finite q => simp [less, toEReal?]
      | infinite s => cases s <;> simp [less, toEReal?, EReal.coe_lt_top]
  | infinite s =>
      cases b with
      | undefined => simp [less, toEReal?]
      | finite q => cases s <;> simp [less, toEReal?, EReal.bot_lt_coe]
      | infinite t => cases s <;> cases t <;> simp [less, toEReal?]

theorem eq_of_beq (h : (a == b) = true) : a = b := by
  cases a <;> cases b <;> simp_all [BEq.beq, beq]

theorem less_iff_lt (ha : a.toEReal? = some x) (hb : b.toEReal? = some y) :
    less a b = true ↔ x < y := by
  rw [less_iff, ha, hb]
  simp

theorem beq_iff_eq (ha : a.toEReal? = some x) (hb : b.toEReal? = some y) :
    (a == b) = true ↔ x = y := by
  constructor
  · intro h
    rw [eq_of_beq h, hb] at ha
    exact (Option.some.inj ha).symm
  · rintro rfl
    -- the three kinds of places are apart, and each holds a number once
    cases a with
    | undefined => cases ha
    | finite p =>
        obtain rfl := Option.some.inj ha
        cases b with
        | undefined => cases hb
        | finite q =>
            have hpq : ((q : ℝ) : EReal) = (p : ℝ) := Option.some.inj hb
            exact decide_eq_true (by exact_mod_cast hpq.symm)
        | infinite s => cases s <;> simp [toEReal?] at hb
    | infinite s =>
        obtain rfl := Option.some.inj ha
        cases b with
        | undefined => cases hb
        | finite q => cases s <;> simp [toEReal?] at hb
        | infinite t => cases s <;> cases t <;> simp_all [toEReal?, BEq.beq, beq]

theorem isPositive_iff (ha : a.toEReal? = some x) : isPositive a = true ↔ 0 < x :=
  less_iff_lt toEReal?_zero ha

theorem isNegative_iff (ha : a.toEReal? = some x) : Number.isNegative a = true ↔ x < 0 :=
  less_iff_lt ha toEReal?_zero

theorem isZero_iff (ha : a.toEReal? = some x) : isZero a = true ↔ x = 0 := beq_iff_eq ha toEReal?_zero

end Exact

/-- Whether a real value is in a relation to a bound. Nothing but inequality holds of what is not a
number. -/
def Relation.HoldsOf (r : Relation) (v : ℝ) (bound : Exact) : Prop :=
  match bound.toEReal? with
  | none => r = .ne
  | some b =>
    match r with
    | .gt => b < v
    | .ge => b ≤ v
    | .lt => (v : EReal) < b
    | .le => (v : EReal) ≤ b
    | .eq => (v : EReal) = b
    | .ne => (v : EReal) ≠ b

theorem Relation.holdsOf_ratCast (r : Relation) (q : ℚ) (bound : Exact) :
    r.HoldsOf q bound ↔ r.holds (Exact.finite q) bound = true := by
  cases bound with
  | undefined =>
    cases r
      <;> simp [HoldsOf, holds, Exact.toEReal?, less, lessEq, Exact.less, BEq.beq, Exact.beq, bne]
  | finite p =>
      cases r <;> simp [HoldsOf, holds, Exact.toEReal?, less, lessEq, Exact.less, BEq.beq,
        Exact.beq, bne, le_iff_lt_or_eq]
  | infinite s =>
      cases s <;> cases r <;>
        simp [HoldsOf, holds, Exact.toEReal?, less, lessEq, Exact.less, BEq.beq, Exact.beq, bne,
          EReal.coe_lt_top, EReal.bot_lt_coe]

def Fact.Holds (I : Interpretation ℂ) (f : Fact Exact) : Prop :=
  ∃ v : ℝ, I.value f.subject = some (v : ℂ) ∧ f.relation.HoldsOf v f.bound

/-- The subject has a real value that is as the fact says of the place of its bound. -/
def Fact.Satisfied {ν : Type} [Number ν] (I : Interpretation ℂ) (f : Fact ν) : Prop :=
  ∃ v : ℝ, I.value f.subject = some (v : ℂ) ∧ f.relation.HoldsOf v (toExact f.bound)

theorem Fact.Holds.satisfied {I : Interpretation ℂ} {f : Fact Exact} (h : f.Holds I) :
    f.Satisfied I := by
  rw [Fact.Satisfied, Exact.toExact_eq]
  exact h

namespace Sign

def Bound.Below (b : Bound Exact) (v : ℝ) : Prop :=
  ∃ x, b.value.toEReal? = some x ∧ x ≤ v ∧ (b.strict = true → x ≠ v)

def Bound.Above (b : Bound Exact) (v : ℝ) : Prop :=
  ∃ x, b.value.toEReal? = some x ∧ (v : EReal) ≤ x ∧ (b.strict = true → x ≠ v)

namespace Interval

structure Contains (i : Interval Exact) (v : ℝ) : Prop where
  lo : i.lo.Below v
  hi : i.hi.Above v
  ne_zero : i.excludesZero = true → v ≠ 0

theorem contains_full (v : ℝ) : (full : Interval Exact).Contains v where
  lo := ⟨⊥, rfl, bot_le, fun _ => EReal.bot_ne_coe v⟩
  hi := ⟨⊤, rfl, le_top, fun _ => EReal.top_ne_coe v⟩
  ne_zero := nofun

theorem Contains.raise {i : Interval Exact} {b : Bound Exact} {v : ℝ} (h : i.Contains v)
    (hb : b.Below v) : (i.raise b).Contains v := by
  unfold Interval.raise
  split
  · exact ⟨hb, h.hi, h.ne_zero⟩
  · exact h

theorem Contains.lower {i : Interval Exact} {b : Bound Exact} {v : ℝ} (h : i.Contains v)
    (hb : b.Above v) : (i.lower b).Contains v := by
  unfold Interval.lower
  split
  · exact ⟨h.lo, hb, h.ne_zero⟩
  · exact h

theorem Contains.meet {i : Interval Exact} {f : Fact Exact} {v : ℝ} (h : i.Contains v)
    (hf : f.relation.HoldsOf v f.bound) : (i.meet f).Contains v := by
  obtain ⟨subject, relation, bound⟩ := f
  unfold Relation.HoldsOf at hf
  cases hx : bound.toEReal? with
  | none =>
      simp only [hx] at hf
      subst hf
      simp only [Interval.meet]
      split
      · next hz =>
        rw [Exact.eq_of_beq hz] at hx
        cases hx
      · exact h
  | some x =>
      simp only [hx] at hf
      cases relation with
      | gt => exact h.raise ⟨x, hx, le_of_lt hf, fun _ => ne_of_lt hf⟩
      | ge => exact h.raise ⟨x, hx, hf, nofun⟩
      | lt => exact h.lower ⟨x, hx, le_of_lt hf, fun _ => ne_of_gt hf⟩
      | le => exact h.lower ⟨x, hx, hf, nofun⟩
      | eq =>
          have hl : Bound.Below ⟨bound, false⟩ v := ⟨x, hx, ge_of_eq hf, nofun⟩
          exact (h.raise hl).lower ⟨x, hx, le_of_eq hf, nofun⟩
      | ne =>
          simp only [Interval.meet]
          split
          · next hz =>
            rw [Exact.eq_of_beq hz, Exact.toEReal?_zero] at hx
            refine ⟨h.lo, h.hi, ?_⟩
            intro _ hv
            rw [hv, EReal.coe_zero] at hf
            exact hf (Option.some.inj hx)
          · exact h

/-- An end at zero is left out if it is strict or the interval leaves zero out. -/
theorem Contains.ne_zero_of_end {i : Interval Exact} {v : ℝ} (h : i.Contains v) {strict : Bool}
    (hend : strict = true → (0 : EReal) ≠ v) (hout : (strict || i.excludesZero) = true) : v ≠ 0 := by
  rintro rfl
  cases Bool.or_eq_true_iff.mp hout with
  | inl hstrict => exact hend hstrict rfl
  | inr hzero => exact h.ne_zero hzero rfl

theorem Contains.pos {i : Interval Exact} {v : ℝ} (h : i.Contains v)
    (hlo : (isPositive i.lo.value || isZero i.lo.value && (i.lo.strict || i.excludesZero)) = true) :
    0 < v := by
  obtain ⟨x, hx, hxv, hstrict⟩ := h.lo
  cases Bool.or_eq_true_iff.mp hlo with
  | inl hpositive =>
    exact EReal.coe_pos.mp (lt_of_lt_of_le ((Exact.isPositive_iff hx).mp hpositive) hxv)
  | inr hlo =>
      obtain ⟨hend, hout⟩ := Bool.and_eq_true_iff.mp hlo
      obtain rfl := (Exact.isZero_iff hx).mp hend
      exact lt_of_le_of_ne (EReal.coe_nonneg.mp hxv) (h.ne_zero_of_end hstrict hout).symm

theorem Contains.neg {i : Interval Exact} {v : ℝ} (h : i.Contains v)
    (hhi : (Number.isNegative i.hi.value || isZero i.hi.value && (i.hi.strict || i.excludesZero)) =
      true) : v < 0 := by
  obtain ⟨y, hy, hvy, hstrict⟩ := h.hi
  cases Bool.or_eq_true_iff.mp hhi with
  | inl hnegative =>
    exact EReal.coe_neg'.mp (lt_of_le_of_lt hvy ((Exact.isNegative_iff hy).mp hnegative))
  | inr hhi =>
      obtain ⟨hend, hout⟩ := Bool.and_eq_true_iff.mp hhi
      obtain rfl := (Exact.isZero_iff hy).mp hend
      exact lt_of_le_of_ne (EReal.coe_nonpos.mp hvy) (h.ne_zero_of_end hstrict hout)

theorem Contains.eq_zero {i : Interval Exact} {v : ℝ} (h : i.Contains v)
    (hends : (isZero i.lo.value && isZero i.hi.value) = true) : v = 0 := by
  obtain ⟨⟨x, hx, hxv, -⟩, ⟨y, hy, hvy, -⟩, -⟩ := h
  obtain ⟨hlo, hhi⟩ := Bool.and_eq_true_iff.mp hends
  obtain rfl := (Exact.isZero_iff hx).mp hlo
  obtain rfl := (Exact.isZero_iff hy).mp hhi
  exact le_antisymm (EReal.coe_nonpos.mp hvy) (EReal.coe_nonneg.mp hxv)

theorem Contains.sign {i : Interval Exact} {v : ℝ} (h : i.Contains v) : i.sign.Holds v := by
  unfold Interval.sign
  split
  · trivial
  · split
    · next hpositive => exact ⟨v, h.pos hpositive, rfl⟩
    · split
      · next hnegative => exact ⟨v, h.neg hnegative, rfl⟩
      · split
        · next hends =>
          change (v : ℂ) = 0
          rw [h.eq_zero hends, Complex.ofReal_zero]
        · trivial

section Places

variable {ν : Type} [Number ν]

def toExact (i : Interval ν) : Interval Exact :=
  ⟨⟨Number.toExact i.lo.value, i.lo.strict⟩, ⟨Number.toExact i.hi.value, i.hi.strict⟩, i.excludesZero⟩

variable [OrderedNumber ν]

theorem toExact_full : (full : Interval ν).toExact = full := by
  rw [toExact, full, OrderedNumber.toExact_infinity, OrderedNumber.toExact_neg_infinity]
  rfl

theorem toExact_raise (i : Interval ν) (b : Bound ν) :
    (i.raise b).toExact = i.toExact.raise ⟨Number.toExact b.value, b.strict⟩ := by
  simp only [raise, toExact, OrderedNumber.less_toExact, OrderedNumber.beq_toExact]
  split <;> rfl

theorem toExact_lower (i : Interval ν) (b : Bound ν) :
    (i.lower b).toExact = i.toExact.lower ⟨Number.toExact b.value, b.strict⟩ := by
  simp only [lower, toExact, OrderedNumber.less_toExact, OrderedNumber.beq_toExact]
  split <;> rfl

theorem toExact_meet (i : Interval ν) (f : Fact ν) (subject : Expr Exact) :
    (i.meet f).toExact = i.toExact.meet ⟨subject, f.relation, Number.toExact f.bound⟩ := by
  obtain ⟨about, relation, bound⟩ := f
  cases relation with
  | gt | ge => exact toExact_raise i _
  | lt | le => exact toExact_lower i _
  | eq =>
      simp only [meet]
      rw [toExact_lower, toExact_raise]
  | ne =>
      simp only [meet, isZero_toExact]
      split <;> rfl

theorem sign_toExact (i : Interval ν) : i.toExact.sign = i.sign := by
  simp only [sign, isEmpty, toExact, isZero_toExact, isPositive_toExact, isNegative_toExact,
    OrderedNumber.less_toExact, OrderedNumber.beq_toExact]
  rfl

/-- Facts that hold of a value draw an interval whose sign is that of the value. -/
theorem sign_ofFacts_holds {facts : List (Fact ν)} {v : ℝ}
    (h : ∀ f ∈ facts, f.relation.HoldsOf v (Number.toExact f.bound)) :
    (ofFacts facts).sign.Holds v := by
  have from_interval (i : Interval ν) (hi : i.toExact.Contains v) :
      (facts.foldl meet i).toExact.Contains v := by
    induction facts generalizing i with
    | nil => exact hi
    | cons f fs ih =>
        apply ih (fun g hg => h g (List.mem_cons_of_mem _ hg))
        rw [toExact_meet i f (.symbol "")]
        exact hi.meet (h f List.mem_cons_self)
  rw [← sign_toExact]
  apply (from_interval full _).sign
  rw [toExact_full]
  exact contains_full v

end Places

end Interval

variable {ν : Type} [Number ν] [OrderedNumber ν]

/-- Facts that hold are right about the sign of a tree with a value. -/
theorem ofFacts_holds (I : Interpretation ℂ) {facts : List (Fact ν)}
    (hf : ∀ f ∈ facts, f.Satisfied I) {x : Expr ν} {v : ℂ} (h : I.value x = some v) :
    (Sign.ofFacts facts x).Holds v := by
  unfold Sign.ofFacts
  split
  · trivial
  · next about hne =>
    have real (f : Fact ν) (hmem : f ∈ facts.filter (·.subject == x)) :
        ∃ b : ℝ, v = b ∧ f.relation.HoldsOf b (toExact f.bound) := by
      obtain ⟨hin, heq⟩ := List.mem_filter.mp hmem
      obtain ⟨b, hb, hr⟩ := hf f hin
      exact ⟨b, Option.some.inj (h.symm.trans ((I.value_eq_of_beq heq).symm.trans hb)), hr⟩
    obtain ⟨f, hmem⟩ := List.exists_mem_of_ne_nil _ hne
    obtain ⟨b, rfl, -⟩ := real f hmem
    apply Interval.sign_ofFacts_holds
    intro g hg
    obtain ⟨c, hc, hr⟩ := real g hg
    rw [Complex.ofReal_injective hc]
    exact hr

end Sign

end Formulary
