import Formulary.Proofs.Code.Piece

namespace Formulary

open Number Interpretation

noncomputable def Interpretation.ofPowers (symbol : String → Option ℚ) (g : ℚ → ℚ → Option ℚ) :
    Interpretation ℚ where
  symbol := symbol
  pattern _ _ := none
  call
    | "Sqrt", [v] => g v (1 / 2)
    | _, _ => none
  list _ := none
  power v w := if 0 ≤ w then g v w else (g v (-w)).bind reciprocal

theorem Interpretation.ofPowers_lawful {ν : Type} [Number ν] {symbol : String → Option ℚ}
    {g : ℚ → ℚ → Option ℚ} (hg : ∀ v, g v 1 = some v) (t : Target) :
    (ofPowers symbol g).Lawful ν t where
  power_minusOne v := by
    simp [ofPowers, hg]
  power_neg v n r _ hr := by
    simp [ofPowers, hr.le, hr.not_ge]
  sqrt v := by
    simp [ofPowers]
  log b v := rfl
  nested h _ u v w ws := by
    simp [ofPowers]

namespace Target

theorem read_text {ν : Type} [Number ν] (t : Target) {c : Code} (h : Code.Readable .sum c) :
    (t.read c.text : Except CodeError (Expr ν)) = .ok (t.treeOfCode c) := by
  rw [read, h.parse]
  rfl

/-- Emitted code is read as a tree that has a value exactly where the emitted tree has one, and the
same. -/
theorem read_emit {t : Target} (ht : t.IsPreset) {x : Expr Float} (hx : x.Every t.Emits)
    (he : x.Every Expr.ReducibleExponent) :
    ∃ y : Expr Float, t.read (t.emit x).code = .ok y ∧
      ∀ (K : Type) [Field K] [CharZero K] (I : Interpretation K), I.Lawful Float t →
        ∀ symbol : String → Option K,
        (∀ s ∈ x.symbolOccurrences, symbol (t.readName s) = I.symbol s) →
          ({ I with symbol := symbol } : Interpretation K).value y = I.value x := by
  have hmeans {K : Type} [Field K] [CharZero K] {I : Interpretation K} (hI : I.Lawful Float t)
      (symbol : String → Option K)
      (hsymbol : ∀ s ∈ x.symbolOccurrences, symbol (t.readName s) = I.symbol s) :
      (t.piece x).Means (⟨t, { I with symbol := symbol }⟩ : Reading Float K) (I.value x) := by
    refine piece_means (R := ⟨t, { I with symbol := symbol }⟩) ht.invertible ?_ ⟨rfl, rfl, rfl,
      hsymbol, hx, he⟩
    exact ⟨hI.power_minusOne, hI.power_neg, hI.sqrt, hI.log, hI.nested⟩
  -- Whether code is read has nothing to do with values, so that any lawful interpretation shows it.
  have hreadable : Code.Readable .sum (t.code x) := by
    have hlawful : (Interpretation.ofPowers (fun _ => none) fun v _ => some v).Lawful Float t :=
      Interpretation.ofPowers_lawful (fun _ => rfl) t
    exact (hmeans hlawful (fun _ => none) fun _ _ => rfl).rendering.element
  refine ⟨t.treeOfCode (t.code x), read_text t hreadable, ?_⟩
  intro K _ _ I hI symbol hsymbol
  exact (hmeans hI symbol hsymbol).rendering.value

def negatedFraction : Expr Float :=
  .negation (.product [.number ⟨3, 4⟩, .power (.symbol "a") (.number ⟨-2, 1⟩)])

noncomputable def squares : Interpretation ℚ :=
  .ofPowers (fun _ => some 2) fun v w => if w = 2 then some (v ^ 2) else some v

theorem read_emit_negatedFraction :
    ∃ y : Expr Float, numpy.read (numpy.emit negatedFraction).code = .ok y ∧
      squares.value y = some (-3 / 16) := by
  have hthree : toRat? (3 : Float) = some 3 := Double.toRat?_ofNat (by norm_num)
  have hfour : toRat? (4 : Float) = some 4 := Double.toRat?_ofNat (by norm_num)
  have htwo : toRat? (-2 : Float) = some (-2) := Double.toRat?_neg_ofNat (by norm_num)
  have hone : toRat? (1 : Float) = some 1 := RationalNumber.toRat?_one
  have hparts (P : Expr Float → Prop) (hnegation : P negatedFraction)
      (hproduct : P (.product [.number ⟨3, 4⟩, .power (.symbol "a") (.number ⟨-2, 1⟩)]))
      (hnumber : P (.number ⟨3, 4⟩)) (hpower : P (.power (.symbol "a") (.number ⟨-2, 1⟩)))
      (hsymbol : P (.symbol "a")) (hexponent : P (.number ⟨-2, 1⟩)) : negatedFraction.Every P := by
    have hbelow : (Expr.power (.symbol "a") (.number ⟨-2, 1⟩) : Expr Float).Every P :=
      .intro hpower (List.forall_mem_cons.mpr ⟨.leaf hsymbol rfl,
        List.forall_mem_singleton.mpr (.leaf hexponent rfl)⟩)
    exact .intro hnegation (List.forall_mem_singleton.mpr
      (.intro hproduct (List.forall_mem_cons.mpr ⟨.leaf hnumber rfl,
        List.forall_mem_singleton.mpr hbelow⟩)))
  have hemits : negatedFraction.Every numpy.Emits :=
    hparts _ trivial trivial ⟨3, 4, hthree, hfour, by norm_num⟩ trivial
      (by decide : Table.isInherited "a" = false) ⟨-2, 1, htwo, hone, one_pos⟩
  have hexponents : negatedFraction.Every Expr.ReducibleExponent :=
    hparts _ trivial trivial trivial (fun _ => .inl (by decide +kernel)) trivial trivial
  have hlawful : squares.Lawful Float numpy := ofPowers_lawful (fun v => by norm_num) numpy
  obtain ⟨y, hread, hvalue⟩ := read_emit ⟨numpy, by decide, rfl⟩ hemits hexponents
  refine ⟨y, hread, ?_⟩
  have hsame : squares.value y = squares.value negatedFraction :=
    hvalue ℚ squares hlawful (fun _ => some 2) fun _ _ => rfl
  have hquotient : (⟨3, 4⟩ : Numeral Float).toRat? = some (3 / 4) :=
    Numeral.toRat?_of_parts hthree hfour (by norm_num)
  have hexponent : (⟨-2, 1⟩ : Numeral Float).toRat? = some (-2 / 1) :=
    Numeral.toRat?_of_parts htwo hone one_ne_zero
  have hbelow : Interpretation.reciprocal (4 : ℚ) = some (1 / 4) := by
    rw [reciprocal_of_ne_zero four_ne_zero]
    norm_num
  rw [hsame, negatedFraction, value, value_product, product_cons, product_cons, product_nil, value,
    value, value, value, hquotient, hexponent]
  norm_num [squares, ofPowers, hbelow]

def sixthRoot : Expr Float := .power (.symbol "x") (.number ⟨-0.5, 3⟩)

noncomputable def sixthRoots : Interpretation ℚ :=
  .ofPowers (fun _ => some 1) fun v w => if w = 1 / 6 then some 2 else some v

/-- The exponent is rounded where it is reduced, and what is read back has another value. -/
theorem read_emit_sixthRoot :
    sixthRoot.Every numpy.Emits ∧ sixthRoots.Lawful Float numpy ∧
      sixthRoots.value sixthRoot = some (1 / 2) ∧
      ∃ y : Expr Float, numpy.read (numpy.emit sixthRoot).code = .ok y ∧
        sixthRoots.value y = some 1 := by
  have hhalf : toRat? (-0.5 : Float) = some (-1 / 2) := by decide +kernel
  have hthree : toRat? (3 : Float) = some 3 := Double.toRat?_ofNat (by norm_num)
  have hsixth : toRat? (-(-0.5) / 3 : Float) = some (6004799503160661 / 2 ^ 55) := by decide +kernel
  have hlawful : sixthRoots.Lawful Float numpy := ofPowers_lawful (fun v => by norm_num) numpy
  have ht : numpy.Invertible := IsPreset.invertible ⟨numpy, by decide, rfl⟩
  have hexponent : (⟨-0.5, 3⟩ : Numeral Float).toRat? = some (-1 / 2 / 3) :=
    Numeral.toRat?_of_parts hhalf hthree three_ne_zero
  have hrounded : (Numeral.ofNumber (-(-0.5) / 3) : Numeral Float).toRat? =
      some (6004799503160661 / 2 ^ 55) := by
    rw [toRat?_ofNumber, hsixth]
  refine ⟨?_, hlawful, ?_, ?_⟩
  · exact .intro trivial (List.forall_mem_cons.mpr
      ⟨.leaf (by decide : Table.isInherited "x" = false) rfl,
        List.forall_mem_singleton.mpr (.leaf ⟨-1 / 2, 3, hhalf, hthree, three_pos⟩ rfl)⟩)
  · have hbelow : Interpretation.reciprocal (2 : ℚ) = some (1 / 2) := by
      rw [reciprocal_of_ne_zero two_ne_zero]
      norm_num
    rw [sixthRoot, value, value, value, hexponent]
    norm_num [sixthRoots, ofPowers, hbelow]
  · obtain ⟨hname, hnameValue⟩ :=
      Reading.symbolCode_readable (R := (⟨numpy, sixthRoots⟩ : Reading Float ℚ)) ht
      (by decide : Table.isInherited "x" = false) .atom
    have hproper : (Numeral.ofNumber (-(-0.5) / 3) : Numeral Float).Proper :=
      ⟨_, 1, hsixth, RationalNumber.toRat?_one, one_pos⟩
    have hvalue : ((some (1 : ℚ)).bind fun x =>
        (Option.map Rat.cast (some (6004799503160661 / 2 ^ 55 : ℚ))).bind fun y =>
        sixthRoots.power x y) = some 1 := by
      norm_num [sixthRoots, ofPowers]
    have hpower : (numpy.numeralPower (.atom (numpy.symbolCode "x"))
        (Numeral.ofNumber (-(-0.5) / 3) : Numeral Float)).Means
        (⟨numpy, sixthRoots⟩ : Reading Float ℚ) (some 1) := by
      rw [← hvalue, ← hrounded]
      exact numeralPower_means hlawful ht (.of_code hname hnameValue) hproper
    have hbelow : numpy.reciprocal (.atom (numpy.symbolCode "x")) (⟨-0.5, 3⟩ : Numeral Float) =
        numpy.numeralPower (.atom (numpy.symbolCode "x"))
            (Numeral.ofNumber (-(-0.5) / 3) : Numeral Float) := by
      have hminusOne : (⟨-0.5, 3⟩ : Numeral Float).isMinusOne = false := by decide +kernel
      have hzero : isZero (3 : Float) = false := isZero_eq_false hthree three_ne_zero
      have hint : toInt? (-(-0.5) : Float) = none := by decide +kernel
      have hnegative : (Numeral.ofNumber (-(-0.5) / 3) : Numeral Float).isNegative = false := by
        decide +kernel
      have hratio : Numeral.ratio (-(-0.5) : Float) 3 = Numeral.ofNumber (-(-0.5) / 3) := by
        rw [Numeral.ratio, hzero, if_neg Bool.false_ne_true, hint]
      simp only [Target.reciprocal]
      rw [hminusOne, hratio, hnegative, Bool.and_false, if_neg Bool.false_ne_true,
        if_neg Bool.false_ne_true]
    have hcode : (numpy.piece sixthRoot).Means (⟨numpy, sixthRoots⟩ : Reading Float ℚ) (some 1) := by
      have hnegative : (⟨-0.5, 3⟩ : Numeral Float).isNegative = true := by decide +kernel
      have hfraction := Fraction.means_below hpower
      rw [← hbelow, Option.bind_some, reciprocal_one] at hfraction
      rw [sixthRoot, piece, if_pos hnegative, piece]
      exact Piece.means_ofFraction hlawful hfraction
    exact ⟨_, read_text numpy hcode.rendering.element, hcode.rendering.value⟩

end Target

end Formulary
