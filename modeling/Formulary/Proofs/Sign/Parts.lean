import Formulary.Proofs.Number.Written
import Formulary.Proofs.Sign.Facts

namespace Formulary

open Interpretation Number

theorem Numeral.parts_of_toRat? {ν : Type} [Number ν] {n : Numeral ν} {q : ℚ}
    (h : n.toRat? = some q) :
    ∃ p d : ℚ, Number.toRat? n.numerator = some p ∧ Number.toRat? n.denominator = some d ∧ d ≠ 0 ∧
    q = p / d := by
  unfold Numeral.toRat? at h
  split at h
  · next p d hp hd =>
    split at h
    · cases h
    · next h0 => exact ⟨p, d, hp, hd, h0, (Option.some.inj h).symm⟩
  · cases h

def IsPositiveReal (v : ℂ) : Prop := ∃ b : ℝ, 0 < b ∧ v = b

theorem isPositiveReal_power {b v : ℂ} (e : ℝ) (hb : IsPositiveReal b)
    (hv : principalPower b e = some v) : IsPositiveReal v := by
  obtain ⟨x, hx, rfl⟩ := hb
  rw [principalPower, if_neg (by exact_mod_cast hx.ne'), ← Complex.ofReal_cpow hx.le] at hv
  exact ⟨x ^ e, Real.rpow_pos_of_pos hx e, (Option.some.inj hv).symm⟩

namespace Sign

theorem Holds.otherwise {s t : Sign} {v : ℂ} (hs : s.Holds v) (ht : t.Holds v) :
    (s.otherwise t).Holds v := by
  rw [Sign.otherwise]
  split <;> assumption

theorem Holds.flip {s : Sign} {v : ℂ} (h : s.Holds v) : s.flip.Holds (-v) := by
  cases s with
  | positive =>
      obtain ⟨b, hb, rfl⟩ := h
      exact ⟨-b, neg_neg_of_pos hb, (Complex.ofReal_neg b).symm⟩
  | negative =>
      obtain ⟨b, hb, rfl⟩ := h
      exact ⟨-b, neg_pos_of_neg hb, (Complex.ofReal_neg b).symm⟩
  | zero => exact neg_eq_zero.mpr h
  | unknown => trivial

theorem prod_eq_zero_of_holds {ss : List Sign} {vs : List ℂ} (h : List.Forall₂ Holds ss vs)
    (hz : .zero ∈ ss) : vs.prod = 0 := by
  induction h with
  | nil => cases hz
  | @cons s v ss vs hv _ ih =>
      rw [List.prod_cons]
      cases List.mem_cons.mp hz with
      | inl hs =>
          subst hs
          rw [show v = 0 from hv, zero_mul]
      | inr hs => rw [ih hs, mul_zero]

theorem prod_of_holds {ss : List Sign} {vs : List ℂ} (h : List.Forall₂ Holds ss vs)
    (hz : .zero ∉ ss) (hu : .unknown ∉ ss) :
    ∃ b : ℝ, vs.prod = b ∧ if ss.count .negative % 2 = 0 then 0 < b else b < 0 := by
  induction h with
  | nil => exact ⟨1, by simp, by simp⟩
  | @cons s v ss vs hv _ ih =>
      obtain ⟨hz0, hz⟩ := not_or.mp (List.mem_cons.not.mp hz)
      obtain ⟨hu0, hu⟩ := not_or.mp (List.mem_cons.not.mp hu)
      obtain ⟨c, hc, hs⟩ := ih hz hu
      rw [List.prod_cons, hc]
      cases s with
      | positive =>
          obtain ⟨b, hb, rfl⟩ := hv
          refine ⟨b * c, (Complex.ofReal_mul b c).symm, ?_⟩
          have hn : Sign.positive ≠ .negative := nofun
          rw [List.count_cons_of_ne hn]
          by_cases hm : ss.count .negative % 2 = 0
          · rw [if_pos hm] at hs ⊢
            exact mul_pos hb hs
          · rw [if_neg hm] at hs ⊢
            exact mul_neg_of_pos_of_neg hb hs
      | negative =>
          obtain ⟨b, hb, rfl⟩ := hv
          refine ⟨b * c, (Complex.ofReal_mul b c).symm, ?_⟩
          rw [List.count_cons_self]
          by_cases hm : ss.count .negative % 2 = 0
          · rw [if_pos hm] at hs
            rw [if_neg (by omega)]
            exact mul_neg_of_neg_of_pos hb hs
          · rw [if_neg hm] at hs
            rw [if_pos (by omega)]
            exact mul_pos_of_neg_of_neg hb hs
      | zero => exact absurd rfl hz0
      | unknown => exact absurd rfl hu0

theorem product_holds {ss : List Sign} {vs : List ℂ} (h : List.Forall₂ Holds ss vs) :
    (product ss).Holds vs.prod := by
  unfold product
  split
  · next hz => exact prod_eq_zero_of_holds h (List.contains_iff_mem.mp hz)
  · next hz =>
    split
    · trivial
    · next hu =>
      obtain ⟨b, hb, hs⟩ := prod_of_holds h (fun hm => hz (List.contains_iff_mem.mpr hm))
        (fun hm => hu (List.contains_iff_mem.mpr hm))
      split
      · next hc =>
        rw [if_pos hc] at hs
        exact ⟨b, hs, hb⟩
      · next hc =>
        rw [if_neg hc] at hs
        exact ⟨b, hs, hb⟩

theorem sum_nonneg_of_holds {ss : List Sign} {vs : List ℂ} (h : List.Forall₂ Holds ss vs)
    (hu : .unknown ∉ ss) (hn : .negative ∉ ss) :
    ∃ b : ℝ, vs.sum = b ∧ 0 ≤ b ∧ (.positive ∈ ss → 0 < b) ∧ (.positive ∉ ss → b = 0) := by
  induction h with
  | nil => exact ⟨0, by simp, le_refl 0, nofun, fun _ => rfl⟩
  | @cons s v ss vs hv _ ih =>
      obtain ⟨hu0, hu⟩ := not_or.mp (List.mem_cons.not.mp hu)
      obtain ⟨hn0, hn⟩ := not_or.mp (List.mem_cons.not.mp hn)
      obtain ⟨c, hc, h0, hp, hz⟩ := ih hu hn
      rw [List.sum_cons, hc]
      cases s with
      | positive =>
          obtain ⟨b, hb, rfl⟩ := hv
          refine ⟨b + c, (Complex.ofReal_add b c).symm, (add_pos_of_pos_of_nonneg hb h0).le, ?_, ?_⟩
          · exact fun _ => add_pos_of_pos_of_nonneg hb h0
          · exact fun hm => absurd List.mem_cons_self hm
      | negative => exact absurd rfl hn0
      | zero =>
          refine ⟨c, ?_, h0, ?_, ?_⟩
          · rw [show v = 0 from hv, zero_add]
          · exact fun hm => hp ((List.mem_cons.mp hm).resolve_left nofun)
          · exact fun hm => hz fun h => hm (List.mem_cons_of_mem _ h)
      | unknown => exact absurd rfl hu0

theorem sum_flip_of_holds {ss : List Sign} {vs : List ℂ} (h : List.Forall₂ Holds ss vs) :
    List.Forall₂ Holds (ss.map Sign.flip) (vs.map Neg.neg) := by
  induction h with
  | nil => exact .nil
  | cons hv _ ih => exact .cons hv.flip ih

theorem mem_map_flip {ss : List Sign} {s : Sign} : s ∈ ss.map Sign.flip ↔ s.flip ∈ ss := by
  have hf (t : Sign) : t.flip.flip = t := by cases t <;> rfl
  rw [List.mem_map]
  constructor
  · rintro ⟨t, ht, rfl⟩
    rw [hf]
    exact ht
  · intro h
    exact ⟨s.flip, h, hf s⟩

theorem sum_holds {ss : List Sign} {vs : List ℂ} (h : List.Forall₂ Holds ss vs) :
    (sum ss).Holds vs.sum := by
  unfold sum
  split
  · trivial
  · next hu =>
    have hu : .unknown ∉ ss := fun hm => hu (List.contains_iff_mem.mpr hm)
    split
    · next hp =>
      split
      · trivial
      · next hn =>
        obtain ⟨b, hb, -, hpos, -⟩ :=
          sum_nonneg_of_holds h hu (fun hm => hn (List.contains_iff_mem.mpr hm))
        exact ⟨b, hpos (List.contains_iff_mem.mp hp), hb⟩
    · next hp =>
      have hp : .positive ∉ ss := fun hm => hp (List.contains_iff_mem.mpr hm)
      split
      · next hn =>
        -- seen from the other side this is a sum without negative terms
        obtain ⟨b, hb, -, hpos, -⟩ :=
          sum_nonneg_of_holds (sum_flip_of_holds h) (fun hm => hu (mem_map_flip.mp hm))
          (fun hm => hp (mem_map_flip.mp hm))
        refine ⟨-b, neg_neg_of_pos (hpos (mem_map_flip.mpr (List.contains_iff_mem.mp hn))), ?_⟩
        have hn : (vs.map Neg.neg).sum = -vs.sum := (List.sum_neg vs).symm
        rw [Complex.ofReal_neg, ← hb, hn, neg_neg]
      · next hn =>
        obtain ⟨b, hb, -, -, hz⟩ :=
          sum_nonneg_of_holds h hu (fun hm => hn (List.contains_iff_mem.mpr hm))
        change vs.sum = 0
        rw [hb, hz hp, Complex.ofReal_zero]

section Numerals

variable {ν : Type} [Number ν] [OrderedNumber ν]

theorem ofNumber_holds {n : Numeral ν} {v : ℂ}
    (hn : ∃ d : ℚ, Number.toRat? n.denominator = some d ∧ 0 < d)
    (h : n.toRat?.map Rat.cast = some v) : (ofNumber n.numerator).Holds v := by
  obtain ⟨q, hq, rfl⟩ := Option.map_eq_some_iff.mp h
  obtain ⟨p, d, hp, hd, -, rfl⟩ := Numeral.parts_of_toRat? hq
  obtain ⟨d', hd', hpos⟩ := hn
  obtain rfl : d = d' := Option.some.inj (hd.symm.trans hd')
  unfold ofNumber
  split
  · trivial
  · split
    · next hs =>
      exact ⟨(p / d : ℚ),
        by exact_mod_cast div_pos ((isPositive_iff hp).mp hs) hpos, (Complex.ofReal_ratCast _).symm⟩
    · next hs =>
      split
      · next hs' =>
        have hlt := (isNegative_iff hp).mp hs'
        exact ⟨(p / d : ℚ),
          by exact_mod_cast div_neg_of_neg_of_pos hlt hpos, (Complex.ofReal_ratCast _).symm⟩
      · next hs' =>
        have hle := not_lt.mp fun hlt => hs ((isPositive_iff hp).mpr hlt)
        have hge := not_lt.mp fun hlt => hs' ((isNegative_iff hp).mpr hlt)
        rw [le_antisymm hle hge, zero_div]
        exact Rat.cast_zero

/-- The power of a base with a known sign. That a power of a positive base is positive has to be
known from elsewhere, and so has that a divisor in the exponent is positive. -/
theorem ofPower_holds {s : Sign} {I : Interpretation ℂ} {e : Expr ν} {b w v : ℂ} (hb : s.Holds b)
    (he : I.value e = some w)
    (hn : ∀ n, e = .number n → ∃ d : ℚ, Number.toRat? n.denominator = some d ∧ 0 < d)
    (hv : principalPower b w = some v) (hp : IsPositiveReal b → IsPositiveReal v) :
    (ofPower s e).Holds v := by
  unfold ofPower
  split
  · exact hp hb
  · next n =>
    split
    · next hs =>
      rw [value_number] at he
      obtain ⟨q, hq, rfl⟩ := Option.map_eq_some_iff.mp he
      obtain ⟨p, d, hp, hd, -, rfl⟩ := Numeral.parts_of_toRat? hq
      obtain ⟨d', hd', hpos⟩ := hn n rfl
      obtain rfl : d = d' := Option.some.inj (hd.symm.trans hd')
      have hquotient : 0 < p / d := div_pos (OrderedNumber.pos_of_isPositive_div hp hd hpos hs) hpos
      have hr : (0 : ℝ) < (p / d : ℚ) := by exact_mod_cast hquotient
      have hz : ((p / d : ℚ) : ℂ) ≠ 0 := by exact_mod_cast hquotient.ne'
      rw [show b = 0 from hb, principalPower, if_pos rfl, if_neg hz, if_pos (by simpa using hr)] at hv
      exact (Option.some.inj hv).symm
    · trivial
  · next n =>
    split
    · next hi =>
      rw [value_number] at he
      obtain ⟨q, hq, rfl⟩ := Option.map_eq_some_iff.mp he
      obtain ⟨h1, hm⟩ := Bool.and_eq_true_iff.mp hi
      obtain ⟨m, hm⟩ := Option.isSome_iff_exists.mp hm
      obtain ⟨c, hc, rfl⟩ := hb
      have hqm : q = m := by
        have hone := (RationalNumber.toRat?_eq_of_beq h1).trans RationalNumber.toRat?_one
        rw [Numeral.toRat?_of_parts (toRat?_of_toInt? hm) hone one_ne_zero, div_one] at hq
        exact (Option.some.inj hq).symm
      have hvc : v = ((c ^ m : ℝ) : ℂ) := by
        rw [hqm, Rat.cast_intCast, principalPower_int,
          if_neg fun h => hc.ne (by exact_mod_cast h.1)] at hv
        rw [← Option.some.inj hv, Complex.ofReal_zpow]
      have hodd : isOdd n.numerator = (m % 2 == 1) := by rw [isOdd, hm]
      rw [hodd]
      split
      · next h => exact ⟨c ^ m, (Int.odd_iff.mpr (beq_iff_eq.mp h)).zpow_neg hc, hvc⟩
      · next h => exact ⟨c ^ m, (Int.even_iff.mpr (by simpa using h)).zpow_pos hc.ne, hvc⟩
    · trivial
  · trivial

end Numerals

structure KeepsSign (f : ℝ → ℝ) (domain : ℝ → Prop) : Prop where
  pos : ∀ x, domain x → 0 < x → 0 < f x
  neg : ∀ x, domain x → x < 0 → f x < 0
  zero : f 0 = 0

theorem KeepsSign.sign_eq {f : ℝ → ℝ} {domain : ℝ → Prop} (hf : KeepsSign f domain) {x : ℝ}
    (hx : domain x) : SignType.sign (f x) = SignType.sign x := by
  rcases lt_trichotomy x 0 with h | rfl | h
  · rw [sign_neg h, sign_neg (hf.neg x hx h)]
  · rw [hf.zero]
  · rw [sign_pos h, sign_pos (hf.pos x hx h)]

theorem keepsSign_sign : KeepsSign Real.sign fun _ => True where
  pos := fun x _ hx => by rw [Real.sign_of_pos hx]; exact one_pos
  neg := fun x _ hx => by rw [Real.sign_of_neg hx]; exact neg_one_lt_zero
  zero := Real.sign_zero

theorem keepsSign_sinh : KeepsSign Real.sinh fun _ => True where
  pos := fun _ _ hx => Real.sinh_pos_iff.mpr hx
  neg := fun _ _ hx => Real.sinh_neg_iff.mpr hx
  zero := Real.sinh_zero

theorem keepsSign_tanh : KeepsSign Real.tanh fun _ => True where
  pos := fun x _ hx => by
    rw [Real.tanh_eq_sinh_div_cosh]
    exact div_pos (Real.sinh_pos_iff.mpr hx) (Real.cosh_pos x)
  neg := fun x _ hx => by
    rw [Real.tanh_eq_sinh_div_cosh]
    exact div_neg_of_neg_of_pos (Real.sinh_neg_iff.mpr hx) (Real.cosh_pos x)
  zero := Real.tanh_zero

theorem keepsSign_arctan : KeepsSign Real.arctan fun _ => True where
  pos := fun _ _ hx => Real.arctan_pos.mpr hx
  neg := fun _ _ hx => Real.arctan_lt_zero.mpr hx
  zero := Real.arctan_zero

theorem keepsSign_arsinh : KeepsSign Real.arsinh fun _ => True where
  pos := fun _ _ hx => Real.arsinh_pos_iff.mpr hx
  neg := fun _ _ hx => Real.arsinh_neg_iff.mpr hx
  zero := Real.arsinh_zero

theorem keepsSign_artanh : KeepsSign Real.artanh fun x => |x| < 1 where
  pos := fun _ hd hx => Real.artanh_pos ⟨hx, (abs_lt.mp hd).2⟩
  neg := fun _ hd hx => Real.artanh_neg ⟨(abs_lt.mp hd).1, hx⟩
  zero := Real.artanh_zero

theorem eq_of_realWhere {condition : ℝ → Prop} {f : ℝ → ℝ} {z v : ℂ}
    (hv : realWhere condition f z = some v) (x : ℝ) (hx : z = x) : condition x ∧ v = f x := by
  subst hx
  unfold realWhere at hv
  split at hv
  · next h => exact ⟨h.2, (Option.some.inj hv).symm⟩
  · cases hv

theorem Holds.of_sign_eq {s : Sign} {x y : ℝ} (h : SignType.sign y = SignType.sign x)
    (hx : s.Holds x) : s.Holds y := by
  cases s with
  | positive =>
      obtain ⟨b, hb, hxb⟩ := hx
      rw [Complex.ofReal_injective hxb, sign_pos hb] at h
      exact ⟨y, sign_eq_one_iff.mp h, rfl⟩
  | negative =>
      obtain ⟨b, hb, hxb⟩ := hx
      rw [Complex.ofReal_injective hxb, sign_neg hb] at h
      exact ⟨y, sign_eq_neg_one_iff.mp h, rfl⟩
  | zero =>
      have hx0 : x = 0 := Complex.ofReal_eq_zero.mp hx
      rw [hx0, sign_zero, sign_eq_zero_iff] at h
      exact Complex.ofReal_eq_zero.mpr h
  | unknown => trivial

end Sign

/-- What signs presume of powers and functions: powers and roots are principal, exponentials and
hyperbolic cosines of real numbers are positive, absolute values are moduli, and the functions that
keep signs have none but real values at real numbers. -/
structure Interpretation.RealFunctions (I : Interpretation ℂ) : Prop where
  power : ∀ {b e v : ℂ}, I.power b e = some v → principalPower b e = some v
  sqrt : ∀ {z v : ℂ}, I.call "Sqrt" [z] = some v → principalPower z (1 / 2) = some v
  abs : ∀ {z v : ℂ}, I.call "Abs" [z] = some v → v = (‖z‖ : ℝ)
  positive : ∀ {head : String} (x : ℝ) {v : ℂ}, head = "Exp" ∨ head = "Cosh" →
    I.call head [(x : ℂ)] = some v → IsPositiveReal v
  keepsSign : ∀ {head : String} (x : ℝ) {v : ℂ}, head ∈ Sign.signPreserving →
    I.call head [(x : ℂ)] = some v → ∃ y : ℝ, v = y ∧ SignType.sign y = SignType.sign x

/-- A real argument is enough. -/
theorem isPositiveReal_call {head : String} {v : ℂ} (x : ℝ) (hh : head = "Exp" ∨ head = "Cosh")
    (hv : apply head [(x : ℂ)] = some v) : IsPositiveReal v := by
  obtain rfl | rfl := hh
  · exact ⟨Real.exp x, Real.exp_pos x, (Option.some.inj hv).symm.trans (Complex.ofReal_exp x).symm⟩
  · exact ⟨Real.cosh x, Real.cosh_pos x, (Option.some.inj hv).symm.trans (Complex.ofReal_cosh x).symm⟩

theorem Interpretation.analytic_realFunctions (ρ : String → ℝ) : (analytic ρ).RealFunctions where
  power := id
  sqrt := id
  abs := fun h => (Option.some.inj h).symm
  positive := fun x _ hh hv => isPositiveReal_call x hh hv
  keepsSign := by
    intro head x v hhead hv
    have partly {f : ℝ → ℝ} {domain : ℝ → Prop} (hf : Sign.KeepsSign f domain)
        (h : realWhere domain f x = some v) :
        ∃ y : ℝ, v = y ∧ SignType.sign y = SignType.sign x := by
      obtain ⟨hd, rfl⟩ := Sign.eq_of_realWhere h x rfl
      exact ⟨f x, rfl, hf.sign_eq hd⟩
    rw [Sign.signPreserving] at hhead
    simp only [List.mem_cons, List.not_mem_nil, or_false] at hhead
    obtain rfl | rfl | rfl | rfl | rfl | rfl := hhead
    · exact partly Sign.keepsSign_sign hv
    · exact ⟨Real.sinh x, (Option.some.inj hv).symm.trans (Complex.ofReal_sinh x).symm,
        Sign.keepsSign_sinh.sign_eq trivial⟩
    · exact ⟨Real.tanh x, Option.some.inj (hv.symm.trans (applyOne_tanh x)),
        Sign.keepsSign_tanh.sign_eq trivial⟩
    · exact partly Sign.keepsSign_arctan hv
    · exact partly Sign.keepsSign_arsinh hv
    · exact partly Sign.keepsSign_artanh hv

namespace Sign

/-- The value of a function of an argument with a known sign. That exponentials and hyperbolic
cosines are positive has to be known from elsewhere. -/
theorem ofCall_holds {I : Interpretation ℂ} (hI : I.RealFunctions) {head : String} {s : Sign}
    {z v : ℂ} (hz : s.Holds z) (hv : I.call head [z] = some v)
    (hp : head = "Exp" ∨ head = "Cosh" → IsPositiveReal v) :
    (ofCall head s).Holds v := by
  unfold ofCall
  split
  · next h => exact hp h
  · split
    · next h =>
      subst h
      rw [hI.abs hv]
      cases s with
      | positive =>
          obtain ⟨x, hx, rfl⟩ := hz
          exact ⟨_, norm_pos_iff.mpr (by exact_mod_cast hx.ne'), rfl⟩
      | negative =>
          obtain ⟨x, hx, rfl⟩ := hz
          exact ⟨_, norm_pos_iff.mpr (by exact_mod_cast hx.ne), rfl⟩
      | zero =>
          rw [show z = 0 from hz]
          simp [Holds]
      | unknown => trivial
    · split
      · next h =>
        subst h
        have hroot (x : ℝ) (hx : z = x) : v = realRoot x := by
          subst hx
          exact Option.some.inj ((hI.sqrt hv).symm.trans (principalPower_sqrt x))
        cases s with
        | positive =>
            obtain ⟨x, hx, hzx⟩ := hz
            refine ⟨√x, Real.sqrt_pos.mpr hx, ?_⟩
            rw [hroot x hzx, realRoot, if_pos hx.le]
        | zero =>
            have h0 := hroot 0 ((show z = 0 from hz).trans Complex.ofReal_zero.symm)
            change v = 0
            simpa [realRoot] using h0
        | negative | unknown => trivial
      · split
        · next h =>
          by_cases hs : s = .unknown
          · subst hs
            trivial
          · obtain ⟨x, rfl, -⟩ := hz.exists_real hs
            obtain ⟨y, rfl, hsign⟩ := hI.keepsSign x (List.contains_iff_mem.mp h) hv
            exact hz.of_sign_eq hsign
        · trivial

end Sign

end Formulary
