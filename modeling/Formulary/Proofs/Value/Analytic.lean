import Formulary.Proofs.Radical.Turns
import Mathlib

section

open Complex (sin cos sinh cosh exp log)

namespace Formulary.Interpretation

open Classical

/-- Integer powers are the usual ones, and half-integer powers of real numbers are powers of the
principal root. -/
structure Principal (I : Interpretation ℂ) : Prop where
  power_int : ∀ (b : ℂ) (n : ℤ), I.power b n = if b = 0 ∧ n < 0 then none else some (b ^ n)
  power_half : ∀ (b : ℝ) (n : ℤ), I.power b (n / 2) = if b = 0 ∧ n < 0 then none
    else some (realRoot b ^ n)

noncomputable def quotient (z w : ℂ) : Option ℂ := if w = 0 then none else some (z / w)

noncomputable def logarithm (z : ℂ) : Option ℂ := if z = 0 then none else some (log z)

/-- The principal power. Of zero there are the powers with exponent zero and with positive real
part. -/
noncomputable def principalPower (b e : ℂ) : Option ℂ :=
  if b = 0 then if e = 0 then some 1 else if 0 < e.re then some 0 else none else some (b ^ e)

noncomputable def realWhere (condition : ℝ → Prop) (f : ℝ → ℝ) (z : ℂ) : Option ℂ :=
  if z.im = 0 ∧ condition z.re then some (f z.re : ℝ) else none

noncomputable def applyOne (head : String) (z : ℂ) : Option ℂ :=
  match head with
  | "Sin" => some (sin z)
  | "Cos" => some (cos z)
  | "Tan" => quotient (sin z) (cos z)
  | "Exp" => some (exp z)
  | "Log" => logarithm z
  | "Sqrt" => principalPower z (1 / 2)
  | "Sinh" => some (sinh z)
  | "Cosh" => some (cosh z)
  | "Tanh" => quotient (sinh z) (cosh z)
  | "Abs" => some (‖z‖ : ℝ)
  | "ArcSin" => realWhere (fun x => |x| ≤ 1) Real.arcsin z
  | "ArcCos" => realWhere (fun x => |x| ≤ 1) Real.arccos z
  | "ArcTan" => realWhere (fun _ => True) Real.arctan z
  | "ArcSinh" => realWhere (fun _ => True) Real.arsinh z
  | "ArcCosh" => realWhere (fun x => 1 ≤ x) Real.arcosh z
  | "ArcTanh" => realWhere (fun x => |x| < 1) Real.artanh z
  | "Sign" => realWhere (fun _ => True) Real.sign z
  | "Floor" => realWhere (fun _ => True) (fun x => ⌊x⌋) z
  | "Ceiling" => realWhere (fun _ => True) (fun x => ⌈x⌉) z
  | "Round" => realWhere (fun _ => True) (fun x => round x) z
  | "Min" | "Max" => realWhere (fun _ => True) id z
  | _ => none

noncomputable def apply (head : String) (args : List ℂ) : Option ℂ :=
  match args with
  | [] => none
  | [z] => applyOne head z
  | first :: rest =>
    if head = "Min" ∨ head = "Max" then
      if ∀ z ∈ args, z.im = 0 then
        some (rest.foldl (fun x z => if head = "Min" then min x z.re else max x z.re) first.re : ℝ)
      else none
    else
      match head, rest with
      | "Log", [x] => (logarithm x).bind fun n => (logarithm first).bind fun d => quotient n d
      | "ArcTan", [y] =>
        if first.im = 0 ∧ y.im = 0 then some (Complex.arg ⟨first.re, y.re⟩ : ℝ) else none
      | _, _ => none

noncomputable def nameValue (ρ : String → ℝ) (name : String) : ℂ :=
  match name with
  | "Pi" => (Real.pi : ℝ)
  | "E" => (Real.exp 1 : ℝ)
  | "I" => Complex.I
  | "Degree" => (Real.pi / 180 : ℝ)
  | "GoldenRatio" => (Real.goldenRatio : ℝ)
  | _ => (ρ name : ℝ)

/-- The exact meaning of the operations that can be evaluated, for real values of the free names. -/
noncomputable def analytic (ρ : String → ℝ) : Interpretation ℂ where
  symbol name := some (nameValue ρ name)
  pattern name _ := some (nameValue ρ name)
  call := apply
  list _ := none
  power := principalPower

theorem principalPower_int (b : ℂ) (n : ℤ) :
    principalPower b n = if b = 0 ∧ n < 0 then none else some (b ^ n) := by
  unfold principalPower
  by_cases hb : b = 0
  · rw [if_pos hb]
    obtain hn | hn | hn := lt_trichotomy n 0
    · have hz : (n : ℂ) ≠ 0 := by exact_mod_cast hn.ne
      rw [if_neg hz, if_neg (by simpa using hn.le), if_pos ⟨hb, hn⟩]
    · subst hn
      rw [if_pos Int.cast_zero, if_neg (fun h => absurd h.2 (lt_irrefl 0)), zpow_zero]
    · have hz : (n : ℂ) ≠ 0 := by exact_mod_cast hn.ne'
      rw [if_neg hz, if_pos (by simpa using hn), if_neg (fun h => absurd h.2 hn.not_gt), hb,
        zero_zpow n hn.ne']
  · rw [if_neg hb, if_neg (fun h => hb h.1), Complex.cpow_intCast]

/-- The principal square root of a real number is its power with exponent one half. -/
theorem cpow_half (b : ℝ) : (b : ℂ) ^ (1 / 2 : ℂ) = realRoot b := by
  have hp (c : ℝ) (hc : 0 ≤ c) : (c : ℂ) ^ (1 / 2 : ℂ) = (√c : ℝ) := by
    rw [Real.sqrt_eq_rpow, Complex.ofReal_cpow hc]
    norm_num
  unfold realRoot
  by_cases hb : 0 ≤ b
  · rw [if_pos hb, hp b hb]
  · have hn : b ≤ 0 := le_of_not_ge hb
    have hi : exp (Real.pi * Complex.I * (1 / 2)) = Complex.I := by
      rw [mul_one_div, mul_div_right_comm, Complex.exp_pi_div_two_mul_I]
    rw [if_neg hb, Complex.ofReal_cpow_of_nonpos hn, hi, ← Complex.ofReal_neg,
      hp (-b) (neg_nonneg.mpr hn), mul_comm]

theorem principalPower_half (b : ℝ) (n : ℤ) :
    principalPower b (n / 2) = if b = 0 ∧ n < 0 then none else some (realRoot b ^ n) := by
  by_cases hb : b = 0
  · have hz : realRoot 0 = 0 := by simp [realRoot]
    have hr : ((n : ℂ) / 2).re = n / 2 := by norm_num
    unfold principalPower
    rw [if_pos (by exact_mod_cast hb)]
    obtain hn | hn | hn := lt_trichotomy n 0
    · have hc : (n : ℝ) < 0 := by exact_mod_cast hn
      have h2 : (n : ℂ) / 2 ≠ 0 := div_ne_zero (by exact_mod_cast hn.ne) two_ne_zero
      rw [if_neg h2, hr, if_neg (by linarith), if_pos ⟨hb, hn⟩]
    · subst hn
      rw [if_pos (by norm_num), if_neg (fun h => absurd h.2 (lt_irrefl 0)), zpow_zero]
    · have hc : (0 : ℝ) < n := by exact_mod_cast hn
      have h2 : (n : ℂ) / 2 ≠ 0 := div_ne_zero (by exact_mod_cast hn.ne') two_ne_zero
      rw [if_neg h2, hr, if_pos (by linarith), if_neg (fun h => absurd h.2 hn.not_gt), hb, hz,
        zero_zpow n hn.ne']
  · have hc : (b : ℂ) ≠ 0 := by exact_mod_cast hb
    unfold principalPower
    rw [if_neg hc, if_neg (fun h => hb h.1), ← cpow_half, ← Complex.cpow_int_mul]
    congr 2
    ring

theorem principalPower_sqrt (b : ℝ) : principalPower b (1 / 2) = some (realRoot b) := by
  have h := principalPower_half b 1
  rw [if_neg (by omega), zpow_one, Int.cast_one] at h
  exact h

theorem applyOne_tanh (x : ℝ) : applyOne "Tanh" x = some (Real.tanh x : ℂ) := by
  have hc : cosh (x : ℂ) ≠ 0 := by
    rw [← Complex.ofReal_cosh]
    exact_mod_cast (Real.cosh_pos x).ne'
  have hq : applyOne "Tanh" x = some (sinh (x : ℂ) / cosh x) := if_neg hc
  rw [hq, Complex.ofReal_tanh, Complex.tanh_eq_sinh_div_cosh]

theorem analytic_principal (ρ : String → ℝ) : (analytic ρ).Principal where
  power_int := principalPower_int
  power_half := principalPower_half

end Formulary.Interpretation

end
