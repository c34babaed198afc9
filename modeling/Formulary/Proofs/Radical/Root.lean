import Formulary.Proofs.Radical.Merging
import Formulary.Proofs.Value.Analytic
import Mathlib

namespace Formulary

open Interpretation Number

/-- Numbers that are compared as exact numbers are, of which one half is made, and whose sums are
rounded only where no number stands for them. -/
class RootNumber (ν : Type) [Number ν] : Prop extends OrderedNumber ν, SummingNumber ν where
  numerator_half : toRat? (Numeral.half : Numeral ν).numerator = some 1
  denominator_half : toRat? (Numeral.half : Numeral ν).denominator = some 2

theorem Exact.half_parts : Number.toRat? (Numeral.half : Numeral Exact).numerator = some 1 ∧
    Number.toRat? (Numeral.half : Numeral Exact).denominator = some 2 := by decide +kernel

instance : RootNumber Exact where
  numerator_half := Exact.half_parts.1
  denominator_half := Exact.half_parts.2

theorem Double.half_parts : Number.toRat? (Numeral.half : Numeral Float).numerator = some 1 ∧
    Number.toRat? (Numeral.half : Numeral Float).denominator = some 2 := by decide +kernel

instance : RootNumber Float where
  numerator_half := Double.half_parts.1
  denominator_half := Double.half_parts.2

variable {ν : Type} [Number ν]

theorem Numeral.exists_halves [RationalNumber ν] {m : Numeral ν} (h : m.isHalfInteger = true) :
    ∃ n : ℤ, Number.toRat? m.numerator = some (n : ℚ) ∧ m.toRat? = some ((n : ℚ) / 2) := by
  obtain ⟨hd, hn⟩ := Bool.and_eq_true_iff.mp h
  obtain ⟨n, hn⟩ := Option.isSome_iff_exists.mp hn
  have hn2 : Number.toRat? m.numerator = some (n : ℚ) := toRat?_of_toInt? hn
  have hd2 : Number.toRat? m.denominator = some 2 :=
    (RationalNumber.toRat?_eq_of_beq hd).trans RationalNumber.toRat?_two
  exact ⟨n, hn2, Numeral.toRat?_of_parts hn2 hd2 two_ne_zero⟩

/-- Integer powers are the usual ones. Half-integer powers of real numbers, where there are any, are
powers of the principal root. -/
structure Interpretation.Rooted (I : Interpretation ℂ) : Prop where
  power_int : ∀ (b : ℂ) (n : ℤ), I.power b n = if b = 0 ∧ n < 0 then none else some (b ^ n)
  power_half : ∀ {b : ℝ} {n : ℤ} {v : ℂ}, I.power b (n / 2) = some v → ¬(b = 0 ∧ n < 0) ∧
    v = realRoot b ^ n

theorem Interpretation.Principal.power_sqrt {I : Interpretation ℂ} (hI : I.Principal) (b : ℝ) :
    I.power b (1 / 2) = some (realRoot b) := by
  have h := hI.power_half b 1
  rw [if_neg (by omega), zpow_one, Int.cast_one] at h
  exact h

theorem Interpretation.Principal.rooted {I : Interpretation ℂ} (hI : I.Principal) : I.Rooted where
  power_int := hI.power_int
  power_half := by
    intro b n v h
    rw [hI.power_half] at h
    split at h
    · cases h
    · next h0 => exact ⟨h0, (Option.some.inj h).symm⟩

theorem Numeral.definite_of_value [OrderedNumber ν] {n : Numeral ν} {q : ℚ}
    (h : n.toRat? = some q) : n.Definite := by
  have number {x : ν} {p : ℚ} (hx : Number.toRat? x = some p) : Number.isNaN x = false := by
    have hself : (x == x) = true := by
      rw [← OrderedNumber.beq_toExact, toExact_of_toRat? hx]
      exact decide_eq_true (rfl : p = p)
    rw [Number.isNaN, hself]
    rfl
  rw [Numeral.toRat?] at h
  split at h
  · next hp hq => exact ⟨number hp, number hq⟩
  · cases h

variable (I : Interpretation ℂ)

theorem Expr.definite_of_value [OrderedNumber ν] {x : Expr ν} {v : ℂ} (h : I.value x = some v) :
    x.Definite := by
  have list (xs : List (Expr ν)) (ih : ∀ x ∈ xs, ∀ {v}, I.value x = some v → x.Definite) {vs : List ℂ}
      (h : I.values xs = some vs) : ∀ x ∈ xs, x.Definite := by
    induction xs generalizing vs with
    | nil => exact nofun
    | cons x xs ihx =>
        obtain ⟨v, ws, hv, hws, -⟩ := Option.map₂_eq_some_iff.mp h
        exact List.forall_mem_cons.mpr ⟨ih x List.mem_cons_self hv,
          ihx (fun y hy => ih y (List.mem_cons_of_mem _ hy)) hws⟩
  induction x generalizing v with
  | number n =>
      obtain ⟨q, hq, -⟩ := Option.map_eq_some_iff.mp h
      exact .leaf (Numeral.definite_of_value hq) rfl
  | symbol | pattern => exact .leaf trivial rfl
  | sum xs ih | product xs ih =>
      obtain ⟨vs, hvs, -⟩ := Option.map_eq_some_iff.mp h
      exact .intro trivial (list xs (fun y hy => ih y hy) hvs)
  | call f xs ih | list xs ih =>
      obtain ⟨vs, hvs, -⟩ := Option.bind_eq_some_iff.mp h
      exact .intro trivial (list xs (fun y hy => ih y hy) hvs)
  | power b e ihb ihe =>
      obtain ⟨u, hu, h⟩ := Option.bind_eq_some_iff.mp h
      obtain ⟨w, hw, -⟩ := Option.bind_eq_some_iff.mp h
      exact .intro trivial (List.forall_mem_cons.mpr ⟨ihb hu, List.forall_mem_singleton.mpr (ihe hw)⟩)
  | negation y ih =>
      obtain ⟨w, hw, -⟩ := Option.map_eq_some_iff.mp h
      exact .intro trivial (List.forall_mem_singleton.mpr (ih hw))

namespace Radical

/-- The half-integer power that a radical over a real base stands for. It is no negative power of
zero. -/
structure Denotes (r : Radical ν) (p : HalfPower) : Prop where
  base : I.value r.base = some (p.base : ℂ)
  turns : toRat? r.turns = some (p.turns : ℚ)
  nonneg : p.base = 0 → 0 ≤ p.turns

theorem eq_power_of_ofExpr? [RationalNumber ν] {x : Expr ν} {r : Radical ν} (h : ofExpr? x = some r) :
    ∃ (m : Numeral ν) (n : ℤ), x = .power r.base (.number m) ∧ m.isHalfInteger = true ∧
      toRat? r.turns = some (n : ℚ) ∧ m.toRat? = some ((n : ℚ) / 2) := by
  unfold ofExpr? at h
  split at h
  · next b m =>
    split at h
    · next hm =>
      cases h
      obtain ⟨n, hn, hq⟩ := Numeral.exists_halves hm
      exact ⟨m, n, rfl, hm, hn, hq⟩
    · cases h
  · cases h

theorem value_halves {m : Numeral ν} {n : ℤ} (h : m.toRat? = some ((n : ℚ) / 2)) :
    I.value (.number m) = some ((n : ℂ) / 2) := by
  rw [value_number, h, Option.map_some]
  push_cast
  rfl

variable {I}

theorem Denotes.definite [OrderedNumber ν] {r : Radical ν} {p : HalfPower} (h : Denotes I r p) :
    r.base.Definite :=
  Expr.definite_of_value I h.base

theorem denotes_of_value [RationalNumber ν] (hI : I.Rooted) {x : Expr ν} {r : Radical ν} {v : ℂ}
    {b : ℝ} (hr : ofExpr? x = some r) (hx : I.value x = some v)
    (hb : ∀ w, I.value r.base = some w → w = b) :
    ∃ n : ℤ, Denotes I r ⟨b, n⟩ ∧ v = HalfPower.root ⟨b, n⟩ := by
  obtain ⟨m, n, rfl, -, hn, hm⟩ := eq_power_of_ofExpr? hr
  rw [value_power, value_halves I hm] at hx
  obtain ⟨w, hw, hx⟩ := Option.bind_eq_some_iff.mp hx
  obtain rfl := hb w hw
  rw [Option.bind_some] at hx
  obtain ⟨h0, rfl⟩ := hI.power_half hx
  refine ⟨n, ⟨hw, hn, ?_⟩, rfl⟩
  intro hb0
  exact not_lt.mp fun hn0 => h0 ⟨hb0, hn0⟩

theorem zpow_add_of_nonneg {b : ℝ} {m n : ℤ} (hm : b = 0 → 0 ≤ m) (hn : b = 0 → 0 ≤ n) :
    b ^ (m + n) = b ^ m * b ^ n := by
  apply zpow_add'
  by_cases hb : b = 0
  · have := hm hb
    have := hn hb
    by_cases h : m + n = 0
    · exact .inr (.inr (by omega))
    · exact .inr (.inl h)
  · exact .inl hb

/-- The turns that are added up over each base have exact partial sums. -/
def MergesExactly (rs : List (Radical ν)) : Prop :=
  ∀ r ∈ rs, ∃ qs, SumsExactly (turnsOver rs r.base) qs

theorem MergesExactly.of_concat {rs : List (Radical ν)} {r : Radical ν}
    (h : MergesExactly (rs ++ [r])) : MergesExactly rs := by
  intro x hx
  obtain ⟨qs, hqs⟩ := h x (List.mem_append_left _ hx)
  rw [turnsOver_concat] at hqs
  split at hqs
  · obtain ⟨ps, -, -, hps, -⟩ := hqs.of_concat
    exact ⟨ps, hps⟩
  · rw [List.append_nil] at hqs
    exact ⟨qs, hqs⟩

section Merging

variable [RootNumber ν] {rs ms : List (Radical ν)} {r m : Radical ν} {p : HalfPower}
    {ps qs : List HalfPower}

theorem definite_of_denotes (h : List.Forall₂ (Denotes I) rs ps) : ∀ x ∈ rs, x.base.Definite := by
  induction h with
  | nil => exact nofun
  | cons hr _ ih => exact List.forall_mem_cons.mpr ⟨hr.definite, ih⟩

/-- A number stands for the turns that an entry has once a radical with its base is merged into it. -/
theorem exists_sum_of_mem_mergeAll (hdefinite : ∀ x ∈ rs, x.base.Definite) (hr : r.base.Definite)
    (hexact : MergesExactly (rs ++ [r])) (hm : m ∈ mergeAll rs) (hbase : (m.base == r.base) = true)
    {a b : ℚ} (ha : toRat? m.turns = some a) (hb : toRat? r.turns = some b) :
    ∃ z : ν, toRat? z = some (a + b) := by
  have hsame : turnsOver rs r.base = turnsOver rs m.base := by
    simp only [turnsOver, Expr.beq_comm _ _ |>.trans (Expr.beq_congr_right hbase _).symm,
      Expr.beq_comm m.base]
  obtain ⟨qs, hqs⟩ := hexact r (List.mem_append_right _ (List.mem_singleton_self r))
  rw [turnsOver_concat, if_pos (Expr.beq_refl hr), hsame] at hqs
  obtain ⟨ps, q, rfl, hps, hq⟩ := hqs.of_concat
  have hturns := (merged_mergeAll hdefinite).turns m hm
  obtain rfl : ps.sum = a := Option.some.inj (hps.total.symm.trans (hturns ▸ ha))
  obtain rfl : q = b := Option.some.inj (hq.symm.trans hb)
  obtain ⟨z, hz⟩ := hqs.partialSums _ (List.prefix_refl _)
  exact ⟨z, by rw [hz, List.sum_append, List.sum_singleton]⟩

theorem denotes_merge (hm : List.Forall₂ (Denotes I) ms qs) (hr : Denotes I r p)
    (hsum : ∀ m ∈ ms, (m.base == r.base) = true → ∀ a, toRat? m.turns = some a →
      ∃ z : ν, toRat? z = some (a + p.turns)) :
    ∃ ps, List.Forall₂ (Denotes I) (merge ms r) ps ∧
      (ps.map HalfPower.squared).prod = (qs.map HalfPower.squared).prod * p.squared := by
  induction hm with
  | nil => exact ⟨[p], .cons hr .nil, by simp⟩
  | @cons m q ms qs hq hqs ih =>
      obtain ⟨hhere, hlater⟩ := List.forall_mem_cons.mp hsum
      rw [merge]
      by_cases hb : (m.base == r.base) = true
      · rw [if_pos hb]
        have hv : q.base = p.base := by
          have h := hq.base.symm.trans ((I.value_eq_of_beq hb).trans hr.base)
          exact Complex.ofReal_injective (Option.some.inj h)
        have hp : q.base = 0 → 0 ≤ p.turns := fun h => hr.nonneg (hv.symm.trans h)
        obtain ⟨z, hz⟩ := hhere hb _ hq.turns
        refine ⟨⟨q.base, q.turns + p.turns⟩ :: qs, .cons ⟨hq.base, ?_, ?_⟩ hqs, ?_⟩
        · push_cast
          exact SummingNumber.toRat?_add hq.turns hr.turns hz
        · intro h
          exact add_nonneg (hq.nonneg h) (hp h)
        · have hs : HalfPower.squared ⟨q.base, q.turns + p.turns⟩ = q.squared * p.squared := by
            unfold HalfPower.squared
            rw [← hv, zpow_add_of_nonneg hq.nonneg hp]
          rw [List.map_cons, List.prod_cons, List.map_cons, List.prod_cons, hs]
          ring
      · rw [if_neg hb]
        obtain ⟨ps, hps, hprod⟩ := ih hlater
        refine ⟨q :: ps, .cons hq hps, ?_⟩
        rw [List.map_cons, List.prod_cons, List.map_cons, List.prod_cons, hprod, mul_assoc]

theorem denotes_mergeAll (h : List.Forall₂ (Denotes I) rs ps) (hexact : MergesExactly rs) :
    ∃ os, List.Forall₂ (Denotes I) (mergeAll rs) os ∧
      (os.map HalfPower.squared).prod = (ps.map HalfPower.squared).prod := by
  induction rs using List.reverseRecOn generalizing ps with
  | nil => exact ⟨ps, h, rfl⟩
  | append_singleton rs r ih =>
      obtain ⟨qs, p, rfl, hqs, hr⟩ := forall₂_of_concat h
      obtain ⟨os, hos, hprod⟩ := ih hqs hexact.of_concat
      obtain ⟨ts, hts, hmerged⟩ := denotes_merge hos hr fun m hm hb a ha =>
        exists_sum_of_mem_mergeAll (definite_of_denotes hqs) hr.definite hexact hm hb ha hr.turns
      refine ⟨ts, ?_, ?_⟩
      · rw [mergeAll, List.foldl_concat]
        exact hts
      · rw [hmerged, hprod, List.map_append, List.prod_append, List.map_singleton,
          List.prod_singleton]

end Merging

section Roots

variable [RootNumber ν] {rs : List (Radical ν)} {r : Radical ν} {p : HalfPower} {ps : List HalfPower}

theorem value_squared (hI : I.Rooted) (h : Denotes I r p) :
    I.value r.squared = some (p.squared : ℂ) := by
  unfold squared HalfPower.squared
  split
  · next h1 =>
    have hn : p.turns = 1 := by
      have hone : some (p.turns : ℚ) = some 1 := by
        rw [← h.turns, RationalNumber.toRat?_eq_of_beq h1, RationalNumber.toRat?_one]
      exact_mod_cast Option.some.inj hone
    rw [h.base, hn, zpow_one]
  · have he : I.value (.ofNumber r.turns : Expr ν) = some (p.turns : ℂ) := by
      rw [Expr.ofNumber, value_number,
        Numeral.toRat?_of_parts h.turns RationalNumber.toRat?_one one_ne_zero]
      simp
    rw [value_power, h.base, he, Option.bind_some, Option.bind_some, hI.power_int]
    have h0 : ¬((p.base : ℂ) = 0 ∧ p.turns < 0) := by
      rintro ⟨hb, hn⟩
      exact absurd (h.nonneg (by exact_mod_cast hb)) hn.not_ge
    rw [if_neg h0, Complex.ofReal_zpow]

theorem product_kept (hI : I.Rooted) (h : List.Forall₂ (Denotes I) rs ps) :
    I.product ((rs.filter fun r => !isZero r.turns).map squared) =
      some (((ps.map HalfPower.squared).prod : ℝ) : ℂ) := by
  induction h with
  | nil => simp
  | @cons r p rs ps hp _ ih =>
      cases hz : isZero r.turns with
      | true =>
          have hn : p.turns = 0 := by
            have hzero : some (p.turns : ℚ) = some 0 := by
              rw [← hp.turns, RationalNumber.toRat?_eq_of_beq hz, RationalNumber.toRat?_zero]
            exact_mod_cast Option.some.inj hzero
          have h1 : p.squared = 1 := by rw [HalfPower.squared, hn, zpow_zero]
          rw [List.filter_cons_of_neg (by simp [hz]), ih, List.map_cons, List.prod_cons, h1, one_mul]
      | false =>
          rw [List.filter_cons_of_pos (by simp [hz]), List.map_cons, product_cons,
            value_squared hI hp, ih, List.map_cons, List.prod_cons, Complex.ofReal_mul]
          rfl

theorem value_radicand (hI : I.Rooted) (h : List.Forall₂ (Denotes I) rs ps)
    (hexact : MergesExactly rs) :
    I.value (radicand rs) = some (((ps.map HalfPower.squared).prod : ℝ) : ℂ) := by
  obtain ⟨os, hos, hprod⟩ := denotes_mergeAll h hexact
  rw [radicand, value_mul, product_kept hI hos, hprod]

theorem value_half : I.value (.number .half : Expr ν) = some (1 / 2) := by
  have hhalf : (Numeral.half : Numeral ν).toRat? = some (1 / 2) :=
    Numeral.toRat?_of_parts RootNumber.numerator_half RootNumber.denominator_half two_ne_zero
  rw [value_number, hhalf]
  norm_num

theorem value_sqrt_of_power {x : Expr ν} {b : ℝ} (h : I.value x = some (b : ℂ))
    (hroot : I.power b (1 / 2) = some (realRoot b)) : I.value (.sqrt x) = some (realRoot b) := by
  rw [Expr.sqrt, value_power, h, value_half, Option.bind_some, Option.bind_some, hroot]

theorem value_sqrt (hI : I.Principal) {x : Expr ν} {b : ℝ} (h : I.value x = some (b : ℂ)) :
    I.value (.sqrt x) = some (realRoot b) := value_sqrt_of_power h (hI.power_sqrt b)

theorem value_root (hI : I.Rooted) (h : List.Forall₂ (Denotes I) rs ps) (hexact : MergesExactly rs)
    (hroot : I.power ((ps.map HalfPower.squared).prod : ℝ) (1 / 2) =
      some (realRoot (ps.map HalfPower.squared).prod)) :
    I.value (root rs) = some (realRoot (ps.map HalfPower.squared).prod) := by
  have hv := value_radicand hI h hexact
  unfold root
  split
  · next h1 =>
    rw [I.value_of_isOne h1] at hv
    have hp : (ps.map HalfPower.squared).prod = 1 := by exact_mod_cast (Option.some.inj hv).symm
    rw [I.value_of_isOne h1, hp]
    simp [realRoot]
  · exact value_sqrt_of_power hv hroot

end Roots

theorem exists_denotes [RationalNumber ν] (hI : I.Rooted) (signs : Expr ν → Sign)
    {fs : List (Expr ν)} {v : ℂ} (hs : ∀ r ∈ fs.filterMap ofExpr?, signs r.base ≠ .unknown)
    (hr : ∀ r ∈ fs.filterMap ofExpr?, ∀ w, I.value r.base = some w → (signs r.base).Holds w)
    (h : I.product fs = some v) :
    ∃ w ps, I.product (fs.filter fun f => (ofExpr? f).isNone) = some w ∧
      List.Forall₂ (fun r p => Denotes I r p ∧ (signs r.base = .negative ↔ p.base < 0))
        (fs.filterMap ofExpr?) ps ∧
      v = w * (ps.map HalfPower.root).prod := by
  induction fs generalizing v with
  | nil => exact ⟨v, [], h, .nil, by simp⟩
  | cons f fs ih =>
      rw [product_cons] at h
      obtain ⟨a, c, ha, hc, rfl⟩ := Option.map₂_eq_some_iff.mp h
      cases hf : ofExpr? f with
      | none =>
          rw [List.filterMap_cons_none hf] at hs hr ⊢
          obtain ⟨w, ps, hw, hps, rfl⟩ := ih hs hr hc
          refine ⟨a * w, ps, ?_, hps, (mul_assoc a w _).symm⟩
          rw [List.filter_cons_of_pos (by simp [hf]), product_cons, ha, hw, Option.map₂_some_some]
      | some r =>
          rw [List.filterMap_cons_some hf] at hs hr ⊢
          obtain ⟨w, ps, hw, hps, rfl⟩ := ih (fun r' h' => hs r' (List.mem_cons_of_mem _ h'))
            (fun r' h' => hr r' (List.mem_cons_of_mem _ h')) hc
          obtain ⟨u, hu⟩ : ∃ u, I.value r.base = some u := by
            obtain ⟨m, -, rfl, -⟩ := eq_power_of_ofExpr? hf
            rw [value_power] at ha
            obtain ⟨u, hu, -⟩ := Option.bind_eq_some_iff.mp ha
            exact ⟨u, hu⟩
          obtain ⟨b, rfl, hb⟩ := (hr r List.mem_cons_self u hu).exists_real (hs r List.mem_cons_self)
          obtain ⟨n, hd, rfl⟩ := denotes_of_value hI hf ha fun w hw =>
            Option.some.inj (hw.symm.trans hu)
          refine ⟨w, ⟨b, n⟩ :: ps, ?_, .cons ⟨hd, hb⟩ hps, ?_⟩
          · rw [List.filter_cons_of_neg (by simp [hf]), hw]
          · rw [List.map_cons, List.prod_cons]
            ring

def TurnsExactly (signs : Expr ν → Sign) (rs : List (Radical ν)) : Prop :=
  ∃ qs, SumsExactly ((rs.filter fun r => signs r.base == .negative).map turns) qs

def AddsExactly (signs : Expr ν → Sign) (rs : List (Radical ν)) : Prop :=
  MergesExactly rs ∧ TurnsExactly signs rs

theorem addsExactly_of_exact (signs : Expr Exact → Sign) {rs : List (Radical Exact)}
    (h : ∀ r ∈ rs, ∃ q, toRat? r.turns = some q) : AddsExactly signs rs := by
  have turns_value (p : Radical Exact → Bool) :
      ∀ t ∈ (rs.filter p).map turns, ∃ q, toRat? t = some q := by
    intro t ht
    obtain ⟨r, hr, rfl⟩ := List.mem_map.mp ht
    exact h r (List.mem_of_mem_filter hr)
  exact ⟨fun r _ => Exact.exists_sumsExactly (turns_value _),
    Exact.exists_sumsExactly (turns_value _)⟩

theorem sum_turns_eq {signs : Expr ν → Sign} {rs : List (Radical ν)} {ps : List HalfPower}
    {qs : List ℚ}
    (h : List.Forall₂ (fun r p => Denotes I r p ∧ (signs r.base = .negative ↔ p.base < 0)) rs ps)
    (hqs : List.Forall₂ (fun t q => toRat? t = some q)
      ((rs.filter fun r => signs r.base == .negative).map turns) qs) :
    qs.sum = ((ps.map HalfPower.quarterTurns).sum : ℤ) := by
  induction h generalizing qs with
  | nil =>
      cases hqs
      simp
  | @cons r p rs ps hp _ ih =>
      obtain ⟨hd, hn⟩ := hp
      rw [List.map_cons, List.sum_cons, Int.cast_add]
      unfold HalfPower.quarterTurns
      by_cases hb : p.base < 0
      · rw [List.filter_cons_of_pos (by simpa using hn.mpr hb), List.map_cons] at hqs
        obtain ⟨q, qs, hq, htail, rfl⟩ := List.forall₂_cons_left_iff.mp hqs
        obtain rfl : (p.turns : ℚ) = q := Option.some.inj (hd.turns.symm.trans hq)
        rw [List.sum_cons, ih htail, if_pos hb]
        rfl
      · rw [List.filter_cons_of_neg (by simpa using fun hs => hb (hn.mp hs))] at hqs
        rw [ih hqs, if_neg hb, Int.cast_zero, zero_add]
        rfl

theorem halfTurnsOdd_quarterTurns [RootNumber ν] {signs : Expr ν → Sign} {rs : List (Radical ν)}
    {ps : List HalfPower}
    (h : List.Forall₂ (fun r p => Denotes I r p ∧ (signs r.base = .negative ↔ p.base < 0)) rs ps)
    (hexact : TurnsExactly signs rs) :
    halfTurnsOdd (quarterTurns signs rs) = ((ps.map HalfPower.quarterTurns).sum / 2 % 2 == 1) := by
  obtain ⟨qs, hqs⟩ := hexact
  exact halfTurnsOdd_turnsOf hqs (sum_turns_eq h hqs.values)

end Radical

namespace Interpretation

variable {I}

theorem signed_not (negative : Bool) (v : ℂ) : signed (!negative) v = -signed negative v := by
  cases negative
  · rfl
  · exact (neg_neg v).symm

theorem signed_mul (s : Bool) (v w : ℂ) : signed s (v * w) = signed s v * w := by
  cases s
  · rfl
  · exact (neg_mul v w).symm

theorem signed_xor_mul (s t : Bool) (v w : ℂ) :
    signed (s ^^ t) (v * w) = signed s v * signed t w := by
  cases s <;> cases t <;> simp [signed]

/-- Lifting signs and nested products off keeps the value. -/
theorem value_lifted (x : Expr ν) :
    I.value x = (I.product (Lifted.ofExpr x).factors).map (signed (Lifted.ofExpr x).negated) := by
  have one (x : Expr ν) : I.value x = (I.product [x]).map (signed false) := by
    rw [product_cons, product_nil, Option.map₂_right_identity mul_one]
    exact (Option.map_id' ..).symm
  have list (xs : List (Expr ν))
      (h : ∀ x ∈ xs, I.value x =
        (I.product (Lifted.ofExpr x).factors).map (signed (Lifted.ofExpr x).negated)) :
      I.product xs = (I.product (Lifted.ofExprs xs).factors).map
          (signed (Lifted.ofExprs xs).negated) := by
    induction xs with
    | nil => simp [Lifted.ofExprs, signed]
    | cons x xs ih =>
        rw [product_cons, h x List.mem_cons_self, ih fun y hy => h y (List.mem_cons_of_mem _ hy),
          Lifted.ofExprs, Lifted.append, product_append]
        cases I.product (Lifted.ofExpr x).factors with
        | none => rfl
        | some v =>
            cases I.product (Lifted.ofExprs xs).factors with
            | none => rfl
            | some w => exact congrArg some (signed_xor_mul _ _ v w).symm
  induction x with
  | product fs ih =>
      rw [value_product]
      exact list fs ih
  | negation x ih =>
      rw [value_negation, ih, Lifted.ofExpr, Lifted.flip, Option.map_map]
      congr 1
      funext v
      exact (signed_not _ v).symm
  | _ => exact one _

end Interpretation

namespace Pass

variable {I}

open Radical

theorem combineFactors_cases (options : RadicalOptions ν) (facts : List (Fact ν))
    (fs : List (Expr ν)) : (combineFactors options (.stated facts) fs).result = .product fs ∨
      ((combineFactors options (.stated facts) fs).changed = true ∧
        (∀ r ∈ (Lifted.ofExprs fs).radicals, options.signRule r.base (.stated facts) ≠ .unknown) ∧
        (combineFactors options (.stated facts) fs).result =
          (Lifted.ofExprs fs).combined.signed ((Lifted.ofExprs fs).negated ^^
          halfTurnsOdd (quarterTurns (fun x => options.signRule x (.stated facts))
            (Lifted.ofExprs fs).radicals))) := by
  simp only [combineFactors]
  split
  · exact .inl rfl
  · split
    · next hobstacles =>
      refine .inr ⟨rfl, ?_, rfl⟩
      intro r hr hu
      rw [obstacles_eq, if_pos ⟨r, hr, hu⟩] at hobstacles
      cases hobstacles
    · exact .inl rfl

/-- A product that is combined keeps the value of its factors, if the signs of the bases are right,
the radicand has a root, and the turns add up exactly. -/
theorem value_combineFactors [RootNumber ν] (hI : I.Rooted) (options : RadicalOptions ν)
    (facts : List (Fact ν)) {fs : List (Expr ν)} {v : ℂ}
    (hexact : (combineFactors options (.stated facts) fs).changed = true →
      AddsExactly (fun x => options.signRule x (.stated facts)) (Lifted.ofExprs fs).radicals)
    (hr : ∀ r ∈ (Lifted.ofExprs fs).radicals, ∀ w, I.value r.base = some w →
      (options.signRule r.base (.stated facts)).Holds w)
    (hroot : ∀ ps, List.Forall₂ (Denotes I) (Lifted.ofExprs fs).radicals ps →
      I.power ((ps.map HalfPower.squared).prod : ℝ)
      (1 / 2) = some (realRoot (ps.map HalfPower.squared).prod))
    (h : I.product fs = some v) :
    I.value (combineFactors options (.stated facts) fs).result = some v := by
  have hl : I.value (.product fs) = _ := I.value_lifted (.product fs)
  rw [value_product, h] at hl
  obtain ⟨u, hu, hv⟩ := Option.map_eq_some_iff.mp hl.symm
  obtain hp | ⟨hchanged, hs, hp⟩ := combineFactors_cases options facts fs
  · rw [hp, value_product, h]
  · obtain ⟨hmerges, hturns⟩ := hexact hchanged
    obtain ⟨w, ps, hw, hps, rfl⟩ :=
      exists_denotes hI (fun x => options.signRule x (.stated facts)) hs hr hu
    have hd : List.Forall₂ (Denotes I) (Lifted.ofExprs fs).radicals ps := hps.imp fun _ _ h => h.1
    have hc : I.value (Lifted.ofExprs fs).combined =
        some (w * realRoot (ps.map HalfPower.squared).prod) := by
      have ho : I.product (Lifted.ofExprs fs).others = some w := hw
      rw [Lifted.combined, value_mul, product_append, ho, product_cons, product_nil,
        value_root hI hd hmerges (hroot ps hd), Option.map₂_some_some, Option.map₂_some_some, mul_one]
    have hq : halfTurnsOdd (quarterTurns (fun x => options.signRule x (.stated facts))
        (Lifted.ofExprs fs).radicals) = _ :=
      halfTurnsOdd_quarterTurns hps hturns
    rw [hp, value_signed, hc, hq, Option.map_some, ← hv, HalfPower.prod_root, signed_xor_mul]
    exact congrArg some (signed_mul _ w _).symm

end Pass

end Formulary
