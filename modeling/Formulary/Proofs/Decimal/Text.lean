import Formulary.Decimal.Layout
import Formulary.Decimal.Shortest
import Formulary.Proofs.Decimal.Numeral

namespace Formulary.Decimal

structure Exponent.Signed (e : Exponent) : Prop where
  mark : e.mark = 'e'
  sign : e.sign = some '+' ∨ e.sign = some '-'
  digits : ∀ c ∈ e.digits, c.isDigit = true
  nonempty : e.digits ≠ []

theorem Exponent.Signed.wellFormed {e : Exponent} (he : e.Signed) : e.WellFormed :=
  ⟨.inl he.mark, .inr he.sign, he.digits, he.nonempty⟩

/-- The numerals of the layouts: digits, then perhaps a point with digits, then perhaps an
exponent. -/
structure Literal.Plain (l : Literal) : Prop where
  whole : ∀ c ∈ l.whole, c.isDigit = true
  nonempty : l.whole ≠ []
  fraction : ∀ ds ∈ l.fraction, ∀ c ∈ ds, c.isDigit = true
  exponent : ∀ e ∈ l.exponent, e.Signed

theorem Literal.plain_one : Literal.Plain ⟨['1'], none, none⟩ :=
  ⟨by simp, by simp, by simp, by simp⟩

theorem Literal.Plain.exists_cons {l : Literal} (hl : l.Plain) :
    ∃ c cs, l.chars = c :: cs ∧ c.isDigit = true := by
  obtain ⟨whole, fraction, exponent⟩ := l
  cases whole with
  | nil => exact absurd rfl hl.nonempty
  | cons c cs => exact ⟨c, _, rfl, hl.whole c List.mem_cons_self⟩

theorem Literal.Plain.wellFormed {l : Literal} (hl : l.Plain) : l.WellFormed :=
  ⟨hl.whole, hl.fraction, fun h => hl.nonempty h.1, fun e he => (hl.exponent e he).wellFormed⟩

theorem isDigit_of_mem_toDigits {n : ℕ} : ∀ c ∈ Nat.toDigits 10 n, c.isDigit = true :=
  fun _ hc => Nat.isDigit_of_mem_toDigits (by decide) (by decide) hc

theorem isDigit_of_mem_zeroChars {n : ℕ} : ∀ c ∈ zeroChars n, c.isDigit = true := by
  intro c hc
  rw [List.eq_of_mem_replicate hc]
  decide

def ofInt (e : ℤ) : Exponent := ⟨'e', some (if e < 0 then '-' else '+'), Nat.toDigits 10 e.natAbs⟩

theorem signed_ofInt (e : ℤ) : (ofInt e).Signed where
  mark := rfl
  sign := by
    by_cases h : e < 0 <;> simp [ofInt, h]
  digits := isDigit_of_mem_toDigits
  nonempty := Nat.toDigits_ne_nil

theorem value_ofInt (e : ℤ) : (ofInt e).value = e := by
  rw [Exponent.value, ofInt, Nat.ofDigitChars_ten_toDigits]
  by_cases h : e < 0
  · simp [h, abs_of_neg h]
  · simp [h, abs_of_nonneg (not_lt.mp h)]

theorem exists_literal_whole {digits : List Char} (hdigits : ∀ c ∈ digits, c.isDigit = true)
    (hne : digits ≠ []) :
    ∃ l : Literal, l.Plain ∧ l.chars = digits ∧ l.value = ⟨Nat.ofDigitChars 10 digits 0, 0⟩ := by
  refine ⟨⟨digits, none, none⟩, ⟨hdigits, hne, by simp, by simp⟩, ?_, ?_⟩
  · simp [Literal.chars, Literal.fractionChars, Literal.exponentChars]
  · simp [Literal.value]

theorem exists_literal_fraction {whole fraction : List Char} (hwhole : ∀ c ∈ whole, c.isDigit = true)
    (hfraction : ∀ c ∈ fraction, c.isDigit = true) (hne : whole ≠ []) :
    ∃ l : Literal, l.Plain ∧ l.chars = whole ++ '.' :: fraction ∧
      l.value = ⟨Nat.ofDigitChars 10 (whole ++ fraction) 0, -(fraction.length : ℤ)⟩ := by
  refine ⟨⟨whole, some fraction, none⟩, ⟨hwhole, hne, ?_, by simp⟩, ?_, ?_⟩
  · rintro _ ⟨⟩
    exact hfraction
  · simp [Literal.chars, Literal.fractionChars, Literal.exponentChars]
  · simp [Literal.value]

theorem exists_literal_scientific {digits : List Char} (hdigits : ∀ c ∈ digits, c.isDigit = true)
    (hne : digits ≠ []) (e : ℤ) : ∃ l : Literal, l.Plain ∧ l.chars = scientificChars digits e ∧
      l.value = ⟨Nat.ofDigitChars 10 digits 0, e - (digits.length - 1 : ℕ)⟩ := by
  have hexponent : ∀ x ∈ some (ofInt e), x.Signed := by
    rintro _ ⟨⟩
    exact signed_ofInt e
  match digits with
  | [] => exact absurd rfl hne
  | [c] =>
      refine ⟨⟨[c], none, some (ofInt e)⟩, ⟨hdigits, hne, by simp, hexponent⟩, rfl, ?_⟩
      simp [Literal.value, value_ofInt]
  | c :: c' :: cs =>
      refine ⟨⟨[c], some (c' :: cs), some (ofInt e)⟩, ⟨?_, by simp, ?_, hexponent⟩, rfl, ?_⟩
      · intro x hx
        exact hdigits x (List.mem_cons.mpr (.inl (List.mem_singleton.mp hx)))
      · rintro _ ⟨⟩ x hx
        exact hdigits x (List.mem_cons_of_mem c hx)
      · simp [Literal.value, value_ofInt]

/-- The written form of a decimal is one numeral with its value. -/
theorem Layout.exists_literal (layout : Layout) (d : Decimal) :
    ∃ l : Literal, l.Plain ∧ l.chars = layout.chars d ∧ l.value.toRat = d.toRat := by
  have hdigits := isDigit_of_mem_toDigits (n := d.coefficient)
  have hvalue : Nat.ofDigitChars 10 (Nat.toDigits 10 d.coefficient) 0 = d.coefficient :=
    Nat.ofDigitChars_ten_toDigits
  have hne : Nat.toDigits 10 d.coefficient ≠ [] := Nat.toDigits_ne_nil
  rw [Layout.chars]
  generalize Nat.toDigits 10 d.coefficient = digits at hdigits hvalue hne
  have hlength : 0 < digits.length := List.length_pos_of_ne_nil hne
  split
  · next hin =>
    split
    · next hlong =>
      obtain ⟨k, hk⟩ := Int.eq_ofNat_of_zero_le (show 0 ≤ d.exponent by omega)
      have hzeros : ((digits.length : ℤ) + d.exponent).toNat - digits.length = k := by omega
      have hall : ∀ c ∈ digits ++ zeroChars k, c.isDigit = true :=
        fun c hc => (List.mem_append.mp hc).elim (hdigits c) (isDigit_of_mem_zeroChars c)
      obtain ⟨l, hl, hchars, hl'⟩ := exists_literal_whole hall (by simp [hne])
      refine ⟨l, hl, by rw [hchars, hzeros], ?_⟩
      simp [hl', toRat, Nat.ofDigitChars_append, zeroChars, hvalue, hk, mul_comm]
    · next hshort =>
      generalize hn : ((digits.length : ℤ) + d.exponent).toNat = n
      have hexponent : -((digits.drop n).length : ℤ) = d.exponent := by
        rw [List.length_drop]
        omega
      have hwhole : digits.take n ≠ [] := by
        rw [ne_eq, List.take_eq_nil_iff, not_or]
        exact ⟨by omega, hne⟩
      obtain ⟨l, hl, hchars, hl'⟩ :=
        exists_literal_fraction (fun c hc => hdigits c (List.mem_of_mem_take hc))
        (fun c hc => hdigits c (List.mem_of_mem_drop hc)) hwhole
      refine ⟨l, hl, hchars, ?_⟩
      rw [hl', hexponent, List.take_append_drop, hvalue]
  · split
    · next hsmall =>
      generalize hk : (-((digits.length : ℤ) + d.exponent)).toNat = k
      have hexponent : -((zeroChars k ++ digits).length : ℤ) = d.exponent := by
        rw [List.length_append, zeroChars, List.length_replicate]
        omega
      obtain ⟨l, hl, hchars, hl'⟩ := @exists_literal_fraction ['0'] (zeroChars k ++ digits) (by simp)
        (fun c hc => (List.mem_append.mp hc).elim (isDigit_of_mem_zeroChars c) (hdigits c))
          (by decide)
      refine ⟨l, hl, hchars, ?_⟩
      have hzero : Nat.ofDigitChars 10 (['0'] ++ (zeroChars k ++ digits)) 0 = d.coefficient := by
        rw [Nat.ofDigitChars_append, Nat.ofDigitChars_append, zeroChars,
          Nat.ofDigitChars_replicate_zero, ← hvalue]
        rfl
      rw [hl', hexponent, hzero]
    · obtain ⟨l, hl, hchars, hl'⟩ :=
        exists_literal_scientific hdigits hne ((digits.length : ℤ) + d.exponent - 1)
      refine ⟨l, hl, hchars, ?_⟩
      rw [hl', hvalue, show (digits.length : ℤ) + d.exponent - 1 - (digits.length - 1 : ℕ) =
        d.exponent by omega]

theorem ten_pow_trailingZeros_dvd (n : ℕ) : 10 ^ trailingZeros n ∣ n := by
  have hvalue : Nat.ofDigitChars 10 (Nat.toDigits 10 n) 0 = n := Nat.ofDigitChars_ten_toDigits
  have hsplit :
      Nat.toDigits 10 n = ((Nat.toDigits 10 n).reverse.dropWhile (· == '0')).reverse ++
          List.replicate (trailingZeros n) '0' := by
    have hzeros :
        (Nat.toDigits 10 n).reverse.takeWhile (· == '0') = List.replicate (trailingZeros n) '0' :=
      List.eq_replicate_of_mem fun c hc => by simpa using List.mem_takeWhile_imp hc
    rw [← List.reverse_replicate, ← hzeros, ← List.reverse_append, List.takeWhile_append_dropWhile,
      List.reverse_reverse]
  rw [hsplit, Nat.ofDigitChars_append, Nat.ofDigitChars_replicate_zero] at hvalue
  exact ⟨_, hvalue.symm⟩

theorem toRat_normal (d : Decimal) : d.normal.toRat = d.toRat := by
  rw [normal]
  split
  · next h => simp [toRat, h]
  · rw [toRat, toRat, Nat.pow_eq, Nat.cast_div (ten_pow_trailingZeros_dvd _) (by positivity),
      zpow_add₀ (by norm_num), zpow_natCast]
    push_cast
    field_simp

/-- A fraction whose denominator is a power of two is written out in full. -/
theorem toRat_expansion (num n : ℕ) : (expansion num (2 ^ n)).toRat = (num : ℚ) / (2 ^ n : ℕ) := by
  have hdvd : 2 ^ n ∣ num * 10 ^ n := Dvd.dvd.mul_left (pow_dvd_pow_of_dvd (by norm_num) n) num
  rw [expansion, toRat_normal, toRat, Nat.log2_two_pow, Nat.pow_eq,
    Nat.cast_div hdvd (by positivity), zpow_neg, zpow_natCast]
  push_cast
  field_simp

end Formulary.Decimal
