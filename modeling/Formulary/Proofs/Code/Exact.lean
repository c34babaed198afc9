import Formulary.Proofs.Code.Decoding
import Formulary.Proofs.Code.Form

namespace Formulary

open Number

namespace Expr

def IsMinusProduct (x : Expr Float) : Prop := ∃ fs, x = .negation (.product fs)

def IsPlainFactor (x : Expr Float) : Prop :=
  x.IsFactor ∧ (∀ y, x ≠ .negation y) ∧ ∀ n, x = .number n → n.isNegative = false ∧
    (n.denominator == one) = true

/-- The parts that are rendered on their own: those of a sum, its first term apart, are added or
subtracted. -/
def exposed : Expr Float → List (Expr Float)
  | .sum ts => ts.take 1
  | x => x.children

end Expr

namespace Target

def ExactForm (t : Target) : Expr Float → Prop
  | .number n => n.Plain
  | .symbol s =>
    Table.isInherited s = false ∧
      (t.constants.contains s = true ∨ Lexeme.isIdentifier s = true ∧ s ∉ t.takenNames)
  | .sum ts => 2 ≤ ts.length ∧ ∀ x ∈ ts, x.IsTerm
  | .product fs => 2 ≤ fs.length ∧ ∀ f ∈ fs, f.IsPlainFactor
  | .power _ e => ∀ n, e = .number n → n.isNegative = false
  | .negation x => (∀ n, x ≠ .number n) ∧ ∀ y, x ≠ .negation y
  | .list _ => True
  | .call h args =>
    t.IsHead h ∧ ¬ (h = "Sqrt" ∧ args.length = 1) ∧ ¬ (h = "Log" ∧ args.length = 2) ∧
      ¬ (t.Nests h ∧ 2 < args.length)
  | .pattern _ _ => False

structure ExactNode (t : Target) (x : Expr Float) : Prop where
  form : t.ExactForm x
  exposed : ∀ c ∈ x.exposed, ¬ c.IsMinusProduct

structure Exact (t : Target) (x : Expr Float) : Prop where
  nodes : x.Every t.ExactNode
  root : ¬ x.IsMinusProduct

/-- What becomes of a tree that is rendered and read, on its own, as an element of a list, as a
further term and as a factor. -/
structure Returns (t : Target) (x : Expr Float) : Prop where
  code : ¬ x.IsMinusProduct → t.treeOfCode (t.piece x).rendering.code = x
  element : ¬ x.IsMinusProduct → t.treeOfCode (t.piece x).element = x
  further : t.Adds (t.piece x).rendering x
  factor : x.IsPlainFactor → ∃ r, (t.piece x).fraction = .ofRendering r ∧ t.treeOfCode r.code = x
  unsigned : ∀ fs, x = .product fs → (t.piece x).fraction.negated = false

variable {t : Target} {x : Expr Float}

theorem returns_of_rendering {r : Rendering} (hpiece : t.piece x = .ofRendering r)
    (hunsigned : r.magnitude = none) (hcode : t.treeOfCode r.code = x) : t.Returns x := by
  refine ⟨fun _ => ?_, fun _ => ?_, ?_, fun _ => ⟨r, ?_, hcode⟩, fun _ _ => ?_⟩ <;> rw [hpiece]
  · exact hcode
  · exact hcode
  · exact adds_of_unsigned hunsigned hcode
  · rfl
  · rfl

theorem magnitude_unsignedNumeral (n : Numeral Float) : (t.unsignedNumeral n).magnitude = none := by
  rw [unsignedNumeral]
  split
  · rfl
  · split <;> rfl

theorem fraction_of_plainFactor {n : Numeral Float} (hn : n.Plain)
    (hplain : (.number n : Expr Float).IsPlainFactor) :
    signBit n.numerator = false ∧ t.numeralFraction n = .ofRendering (t.unsignedNumeral n) := by
  obtain ⟨⟨hfactor, -⟩, -, hnumber⟩ := hplain
  obtain ⟨hnonneg, hone⟩ := hnumber n rfl
  have hsign : signBit n.numerator = false := by
    cases hsign : signBit n.numerator with
    | false => rfl
    | true =>
        obtain ⟨q, hq, hlt⟩ := neg_of_signBit hn hsign
        rw [Numeral.isNegative, (Number.isNegative_iff hq).mpr hlt] at hnonneg
        cases hnonneg
  have hnumerator : ¬ (n.numerator == one) = true := by
    intro h
    have hisOne : n.isOne = false := hfactor
    rw [Numeral.isOne, h, hone] at hisOne
    cases hisOne
  have hwhole : (⟨n.numerator, one⟩ : Numeral Float) = n := by
    rw [← Double.eq_of_beq hone RationalNumber.toRat?_one one_ne_zero]
  obtain ⟨q, hq⟩ := Option.isSome_iff_exists.mp hn.finite
  refine ⟨hsign, ?_⟩
  rw [numeralFraction, Numeral.isNaN_eq_false hq, if_neg Bool.false_ne_true, if_pos hone,
    Number.abs, hsign, if_neg Bool.false_ne_true, if_neg hnumerator, hwhole]
  rfl

theorem returns_number {n : Numeral Float} (hn : n.Plain) : t.Returns (.number n) := by
  have hcode := t.treeOfCode_numeral hn
  have hadds : t.Adds (t.numeral n) (.number n) := by
    rw [t.numeral_of_finite hn.finite] at hcode ⊢
    split
    · next hsign =>
      have h := adds_negative (t.treeOfCode_opposite hn hsign).1
      rwa [Expr.neg, Numeral.neg_neg] at h
    · next hsign =>
      rw [if_neg hsign] at hcode
      exact adds_of_unsigned (magnitude_unsignedNumeral n) hcode
  refine ⟨fun _ => ?_, fun _ => ?_, ?_, fun hplain => ?_, by rintro fs ⟨⟩⟩ <;> rw [piece]
  · exact hcode
  · exact hcode
  · exact hadds
  · obtain ⟨hsign, hfraction⟩ := fraction_of_plainFactor hn hplain
    exact ⟨t.unsignedNumeral n, hfraction, (t.treeOfCode_unsignedNumeral hn.normal hn.finite hsign).1⟩

theorem returns_symbol (ht : t.Invertible) {s : String} (hs : t.ExactForm (.symbol s)) :
    t.Returns (.symbol s) := by
  have hname : t.readName s = s := by
    rw [readName]
    split
    · rfl
    · next hconstant =>
      obtain ⟨hidentifier, hfree⟩ := hs.2.resolve_left hconstant
      exact Identifier.ofName_eq_self hidentifier hfree
  refine returns_of_rendering (by rw [piece]) rfl ?_
  have hcode := (symbolCode_spec ht Float hs.1 .atom).2
  rwa [hname] at hcode

section Parts

variable {xs fs : List (Expr Float)}

theorem renderings_adds (h : ∀ x ∈ xs, t.Returns x) : List.Forall₂ t.Adds (t.renderings xs) xs := by
  rw [renderings_eq_map, List.forall₂_map_left_iff]
  exact List.forall₂_same.mpr fun x hx => (h x hx).further

theorem renderings_return (h : ∀ x ∈ xs, t.Returns x) (hroot : ∀ x ∈ xs, ¬ x.IsMinusProduct) :
    ((t.renderings xs).map Rendering.code).map t.treeOfCode = xs := by
  rw [renderings_eq_map, List.map_map, List.map_map]
  exact (List.map_congr_left fun x hx => (h x hx).code (hroot x hx)).trans (List.map_id' xs)

theorem elements_return (h : ∀ x ∈ xs, t.Returns x) (hroot : ∀ x ∈ xs, ¬ x.IsMinusProduct) :
    (t.elements xs).map t.treeOfCode = xs := by
  rw [elements_eq_map, List.map_map]
  exact (List.map_congr_left fun x hx => (h x hx).element (hroot x hx)).trans (List.map_id' xs)

/-- Plain factors stay above the line, each one on its own. -/
theorem fractions_return (h : ∀ f ∈ fs, t.Returns f) (hplain : ∀ f ∈ fs, f.IsPlainFactor) :
    ∃ rs, t.fractions fs = ⟨false, rs, []⟩ ∧ rs.map (fun r => t.treeOfCode r.code) = fs := by
  induction fs with
  | nil => exact ⟨[], by rw [fractions]; rfl, rfl⟩
  | cons f fs ih =>
      obtain ⟨rs, hfractions, hcodes⟩ := ih (fun g hg => h g (List.mem_cons_of_mem _ hg))
        fun g hg => hplain g (List.mem_cons_of_mem _ hg)
      obtain ⟨r, hfraction, hcode⟩ := (h f List.mem_cons_self).factor (hplain f List.mem_cons_self)
      refine ⟨r :: rs, ?_, ?_⟩
      · rw [fractions, hfractions, hfraction]
        rfl
      · rw [List.map_cons, hcode, hcodes]

/-- A product of plain factors has no sign in front, and is read back without one. -/
theorem fractions_product (h : ∀ f ∈ fs, t.Returns f) (hlength : 2 ≤ fs.length)
    (hplain : ∀ f ∈ fs, f.IsPlainFactor) :
    (t.fractions fs).negated = false ∧ (t.fractions fs).body.magnitude = none ∧
      t.treeOfCode (t.fractions fs).body.code = .product fs := by
  obtain ⟨rs, hfractions, hcodes⟩ := fractions_return h hplain
  have hfactors : ∀ f ∈ fs, f.IsFactor := fun f hf => (hplain f hf).1
  rw [hfractions]
  match rs, hcodes with
  | [], hcodes | [r], hcodes =>
      rw [← hcodes] at hlength
      exact absurd hlength (by simp)
  | r :: s :: rs, hcodes =>
      refine ⟨rfl, rfl, ?_⟩
      have hfirst : (t.treeOfCode r.code).IsFactor := hfactors _ (by simp [← hcodes])
      have hmul : t.treeOfCode (r.within .power) = (.mul [t.treeOfCode r.code] : Expr Float) := by
        rw [treeOfCode_within, Expr.mul_of_factors (List.forall_mem_singleton.mpr hfirst)]
        rfl
      have hrest : ((s :: rs).map (·.within .power)).map t.treeOfCode =
          (s :: rs).map fun r => (t.treeOfCode r.code : Expr Float) := by
        rw [List.map_map]
        exact List.map_congr_left fun r _ => t.treeOfCode_within r .power
      have hall : [t.treeOfCode r.code] ++ ((s :: rs).map (·.within .power)).map t.treeOfCode =
          fs := by rw [hrest, ← hcodes]; rfl
      have hchain := treeOfCode_chain (List.cons_ne_nil _ _) hmul (hall ▸ hfactors)
      rwa [hall, Expr.mul_of_factors hfactors, Expr.ofFactors_of_two_le hlength] at hchain

theorem sum_return {y : Expr Float} (h : ∀ x ∈ y :: xs, t.Returns x) (hroot : ¬ y.IsMinusProduct)
    (hne : xs ≠ []) (hterms : ∀ x ∈ y :: xs, x.IsTerm) :
    t.treeOfCode (Rendering.sum (t.renderings (y :: xs))).code = .sum (y :: xs) := by
  have hfirst : t.treeOfCode (t.piece y).rendering.code = .add [y] := by
    rw [(h y List.mem_cons_self).code hroot,
      Expr.add_of_terms (List.forall_mem_singleton.mpr (hterms y List.mem_cons_self))]
    rfl
  have hadds := renderings_adds fun x hx => h x (List.mem_cons_of_mem y hx)
  have hsum := treeOfCode_foldl_addTo hadds (List.cons_ne_nil y []) hfirst hterms
  have hlength : 2 ≤ (y :: xs).length := by
    have := List.length_pos_iff.mpr hne
    rw [List.length_cons]
    omega
  rw [renderings]
  rwa [List.singleton_append, Expr.add_of_terms hterms, Expr.ofTerms_of_two_le hlength] at hsum

end Parts

theorem returns_product {fs : List (Expr Float)} (h : ∀ f ∈ fs, t.Returns f) (hlength : 2 ≤ fs.length)
    (hplain : ∀ f ∈ fs, f.IsPlainFactor) : t.Returns (.product fs) := by
  obtain ⟨hpositive, hunsigned, hcode⟩ := fractions_product h hlength hplain
  have hrendering : (t.fractions fs).rendering = (t.fractions fs).body := by
    rw [Fraction.rendering, hpositive, if_neg Bool.false_ne_true]
  refine ⟨fun _ => ?_, fun _ => ?_, ?_, fun hfactor => absurd rfl (hfactor.1.2 fs), fun _ _ => ?_⟩
    <;> rw [piece, Piece.ofFraction]
  · rwa [hrendering]
  · rwa [hrendering]
  · rw [hrendering]
    exact adds_of_unsigned hunsigned hcode
  · exact hpositive

/-- A product is subtracted as a whole. -/
theorem returns_minusProduct {fs : List (Expr Float)} (h : t.Returns (.product fs)) :
    t.Returns (.negation (.product fs)) := by
  have hroot : ¬ (.product fs : Expr Float).IsMinusProduct := by
    rintro ⟨gs, ⟨⟩⟩
  have hpositive : (t.fractions fs).negated = false := by
    have hnegated := h.unsigned fs rfl
    rwa [piece] at hnegated
  have hcode := h.code hroot
  have hrendering : (t.fractions fs).flip.rendering = (t.fractions fs).rendering.negative := by
    rw [Fraction.rendering, Fraction.rendering, Fraction.flip, hpositive]
    rfl
  rw [piece] at hcode
  refine ⟨fun h => absurd ⟨fs, rfl⟩ h, fun h => absurd ⟨fs, rfl⟩ h, ?_,
    fun h => absurd rfl (h.2.1 _), by rintro gs ⟨⟩⟩
  rw [piece, Piece.ofFraction, hrendering]
  exact adds_negative hcode

theorem returns_negation (hlegible : (t.piece x).Legible) (h : t.Returns x)
    (hnumber : ∀ n, x ≠ .number n) (hnegation : ∀ y, x ≠ .negation y)
    (hproduct : ∀ fs, x ≠ .product fs) :
    t.Returns (.negation x) := by
  have hroot : ¬ x.IsMinusProduct := fun ⟨fs, hfs⟩ => hnegation _ hfs
  have hneg : x.neg = .negation x := by
    cases x with
    | number n => exact absurd rfl (hnumber n)
    | negation y => exact absurd rfl (hnegation y)
    | _ => rfl
  have hwithin : t.treeOfCode ((t.piece x).rendering.within .power) = x := by
    rw [treeOfCode_within, h.code hroot]
  have hcode : t.treeOfCode (Rendering.negative ⟨(t.piece x).rendering.within .power, .power,
      none⟩).code = .negation x := by
    have hpower : Binding.product ≤ .power := by decide
    rw [Rendering.code_negative (r := ⟨_, .power, none⟩) hpower]
    simp only [(hlegible.rendering.within .power).negated_eq, treeOfCode_negative, hwithin, hneg]
  refine ⟨fun _ => ?_, fun _ => ?_, ?_, fun h => absurd rfl (h.2.1 x), by rintro fs ⟨⟩⟩
    <;> rw [piece_negation t hproduct]
  · exact hcode
  · exact hcode
  · rw [← hneg]
    exact adds_negative (r := ⟨(t.piece x).rendering.within .power, .power, none⟩) hwithin

theorem returns_power {b e : Expr Float} {r s : Rendering} {half : Bool}
    (hpiece : t.piece (.power b e) = .ofRendering (t.power r s half)) (hb : t.treeOfCode r.code = b)
    (he : t.treeOfCode s.code = e)
    (hhalf : half = true → t.treeOfCode s.code = (.number .half : Expr Float)) :
    t.Returns (.power b e) := by
  refine returns_of_rendering hpiece ?_ (by rw [t.treeOfCode_code_power hhalf, hb, he])
  rw [power]
  split <;> rfl

theorem treeOfHead_eq_call {h : String} {args : List (Expr Float)} (ht : t.Invertible)
    (hsqrt : ¬ (h = "Sqrt" ∧ args.length = 1)) (hlog : ¬ (h = "Log" ∧ args.length = 2))
    (hnested : ¬ (t.Nests h ∧ 2 < args.length)) : t.treeOfHead h args = .call h args := by
  match args with
  | [] => rfl
  | [x] =>
      rw [treeOfHead, if_neg]
      intro hget
      exact hsqrt ⟨ht.eq_sqrt hget, rfl⟩
  | [base, x] =>
      rw [treeOfHead, if_neg]
      rintro ⟨rfl, -⟩
      exact hlog ⟨rfl, rfl⟩
  | first :: second :: third :: rest =>
      rw [treeOfHead, if_neg]
      intro hnests
      exact hnested ⟨hnests, by simp⟩

theorem ExactForm.writes (h : t.ExactForm x) : t.Writes x := by
  cases x with
  | sum ts =>
      obtain ⟨hlength, -⟩ := h
      rintro rfl
      cases hlength
  | symbol s => exact h.1
  | call head args => exact h.1
  | pattern s head => exact h.elim
  | _ => trivial

/-- Every tree of which all nodes are exact is read back, minus a product where it is subtracted. -/
theorem returns_of_exact (ht : t.Conventional) (hx : x.Every t.ExactNode) : t.Returns x := by
  induction x using Expr.induct_forms with
  | number n => exact returns_number hx.here.form
  | symbol s => exact returns_symbol ht.toInvertible hx.here.form
  | pattern s h => exact hx.here.form.elim
  | sum ts ih =>
      obtain ⟨hlength, hterms⟩ := hx.here.form
      have hall : ∀ x ∈ ts, t.Returns x := fun y hy => ih y hy (hx.parts y hy)
      match ts, hlength with
      | y :: z :: us, _ =>
          refine returns_of_rendering (r := .sum (t.renderings (y :: z :: us))) (by rw [piece])
            (by rw [renderings]; rfl) ?_
          exact sum_return hall (hx.here.exposed y List.mem_cons_self) (List.cons_ne_nil z us) hterms
  | product fs ih =>
      obtain ⟨hlength, hplain⟩ := hx.here.form
      exact returns_product (fun f hf => ih f hf (hx.parts f hf)) hlength hplain
  | call head args ih =>
      obtain ⟨hhead, hsqrt, hlog, hnested⟩ := hx.here.form
      have hargs := renderings_return (fun a ha => ih a ha (hx.parts a ha)) hx.here.exposed
      refine returns_of_rendering (by rw [piece]) rfl ?_
      rw [Rendering.ofCode, treeOfCode_callCode ht.toInvertible hhead, hargs,
        treeOfHead_eq_call ht.toInvertible hsqrt hlog hnested]
  | list items ih =>
      have hitems := elements_return (fun i hi => ih i hi (hx.parts i hi)) hx.here.exposed
      have hlist : t.treeOfCode (.list (t.elements items)) = .list items := by
        rw [treeOfCode_list, hitems]
      have hcode : t.treeOfCode (t.listPiece (t.elements items)).rendering.code = .list items :=
        (treeOfCode_listPiece ht.toInvertible _).trans hlist
      refine ⟨fun _ => ?_, fun _ => ?_, ?_, fun _ => ⟨_, ?_, hcode⟩, by rintro fs ⟨⟩⟩ <;> rw [piece]
      · exact hcode
      · exact hlist
      · exact adds_of_unsigned rfl hcode
      · rfl
  | minusProduct fs ih => exact returns_minusProduct (ih (hx.parts (.product fs) List.mem_cons_self))
  | negation x hproduct ih =>
      obtain ⟨hnumber, hnegation⟩ := hx.here.form
      have hinner := hx.parts x List.mem_cons_self
      have hlegible := piece_legible ht (hinner.imp fun y hy => hy.form.writes)
      exact returns_negation hlegible (ih hinner) hnumber hnegation hproduct
  | numeralPower b n ih =>
      have hbase := (ih (hx.parts b Expr.base_mem_children)).code
        (hx.here.exposed b Expr.base_mem_children)
      have hn : n.Plain := (hx.parts (.number n) Expr.exponent_mem_children).here.form
      refine returns_power ?_ hbase (t.treeOfCode_numeral hn) fun hhalf => t.treeOfCode_half hhalf
      rw [piece, hx.here.form n rfl, if_neg Bool.false_ne_true, numeralPower]
  | power b e hnumber ihb ihe =>
      have hbase := (ihb (hx.parts b Expr.base_mem_children)).code
        (hx.here.exposed b Expr.base_mem_children)
      have he := ihe (hx.parts e Expr.exponent_mem_children)
      have hexponent := he.code (hx.here.exposed e Expr.exponent_mem_children)
      exact returns_power (piece_power t b hnumber) hbase hexponent fun hhalf =>
        absurd hhalf Bool.false_ne_true

/-- The code of an exact tree is read back as the tree itself, so that no other exact tree has that
code. -/
theorem read_emit_exact (ht : t.IsPreset) (hx : t.Exact x) :
    t.read (t.emit x).code = .ok x ∧ ∀ y, t.Exact y → (t.emit y).code = (t.emit x).code → y = x := by
  have hread {y : Expr Float} (hy : t.Exact y) : t.read (t.emit y).code = .ok y := by
    rw [read, parse_emit ht (hy.nodes.imp fun z hz => hz.form.writes)]
    exact congrArg Except.ok ((returns_of_exact ht.conventional hy.nodes).code hy.root)
  refine ⟨hread hx, fun y hy hcode => ?_⟩
  have hsame := hread hy
  rw [hcode, hread hx] at hsame
  exact (Except.ok.inj hsame).symm

def productSubtracted : Expr Float :=
  .sum [.power (.number ⟨-1, 2⟩) (.symbol "n"), .negation (.product [.symbol "Pi", .symbol "x"])]

theorem read_emit_exact_productSubtracted :
    numpy.Exact productSubtracted ∧
      numpy.read (numpy.emit productSubtracted).code = .ok productSubtracted := by
  have leaf {y : Expr Float} (hy : y.children = []) (hexposed : y.exposed = [])
      (hform : numpy.ExactForm y) : y.Every numpy.ExactNode := by
    refine .leaf ⟨hform, ?_⟩ hy
    rw [hexposed]
    rintro c ⟨⟩
  have hplain : (⟨-1, 2⟩ : Numeral Float).Plain := by
    have hminus : toRat? (-1 : Float) = some ((-1 : ℤ) : ℚ) := by decide +kernel
    have htwo : toRat? (2 : Float) = some 2 := by decide +kernel
    refine ⟨⟨2, htwo, one_le_two, fun _ => ⟨-1, 2, hminus, rfl, by decide⟩⟩,
      by rw [isFinite, hminus, Option.isSome_some], ?_⟩
    intro hzero
    rw [isZero_eq_false hminus (by norm_num)] at hzero
    cases hzero
  have hn : (.symbol "n" : Expr Float).Every numpy.ExactNode :=
    leaf rfl rfl ⟨by decide, .inr (by decide)⟩
  have hx : (.symbol "x" : Expr Float).Every numpy.ExactNode :=
    leaf rfl rfl ⟨by decide, .inr (by decide)⟩
  have hpi : (.symbol "Pi" : Expr Float).Every numpy.ExactNode :=
    leaf rfl rfl ⟨by decide, .inl (by decide)⟩
  have hpower : (.power (.number ⟨-1, 2⟩) (.symbol "n") : Expr Float).Every numpy.ExactNode := by
    refine .intro ⟨by rintro n ⟨⟩, ?_⟩
      (List.forall_mem_cons.mpr ⟨leaf rfl rfl hplain, List.forall_mem_singleton.mpr hn⟩)
    simp [Expr.exposed, Expr.children, Expr.IsMinusProduct]
  have hproduct : (.product [.symbol "Pi", .symbol "x"] : Expr Float).Every numpy.ExactNode := by
    have hfactor (s : String) : (.symbol s : Expr Float).IsPlainFactor :=
      ⟨⟨rfl, by rintro _ ⟨⟩⟩, by rintro _ ⟨⟩, by rintro _ ⟨⟩⟩
    refine .intro ⟨⟨by decide, ?_⟩, ?_⟩
      (List.forall_mem_cons.mpr ⟨hpi, List.forall_mem_singleton.mpr hx⟩)
    · exact List.forall_mem_cons.mpr ⟨hfactor "Pi", List.forall_mem_singleton.mpr (hfactor "x")⟩
    · simp [Expr.exposed, Expr.children, Expr.IsMinusProduct]
  have hminus : (.negation (.product [.symbol "Pi", .symbol "x"]) : Expr Float).Every
      numpy.ExactNode := by
    refine .intro ⟨⟨by rintro n ⟨⟩, by rintro y ⟨⟩⟩, ?_⟩ (List.forall_mem_singleton.mpr hproduct)
    simp [Expr.exposed, Expr.children, Expr.IsMinusProduct]
  have hexact : numpy.Exact productSubtracted := by
    refine ⟨.intro ⟨⟨by decide, ?_⟩, ?_⟩
      (List.forall_mem_cons.mpr ⟨hpower, List.forall_mem_singleton.mpr hminus⟩), ?_⟩
    · simp [Expr.IsTerm]
    · simp [productSubtracted, Expr.exposed, Expr.IsMinusProduct]
    · simp [productSubtracted, Expr.IsMinusProduct]
  exact ⟨hexact, (read_emit_exact ⟨numpy, by decide, rfl⟩ hexact).1⟩

end Target

end Formulary
