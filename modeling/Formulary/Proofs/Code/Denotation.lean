import Formulary.Proofs.Code.Foresight
import Formulary.Proofs.Code.Value
import Mathlib

namespace Formulary

open Number Interpretation

/-- Induction over code, with a hypothesis for every part of a list. -/
@[elab_as_elim]
theorem Code.induct {motive : Code → Prop} (number : ∀ s, motive (.number s))
    (imaginary : ∀ s, motive (.imaginary s)) (name : ∀ s, motive (.name s))
    (call : ∀ f cs, (∀ c ∈ cs, motive c) → motive (.call f cs))
    (list : ∀ cs, (∀ c ∈ cs, motive c) → motive (.list cs))
    (paren : ∀ c, motive c → motive (.paren c))
    (power : ∀ b e, motive b → motive e → motive (.power b e))
    (negative : ∀ c, motive c → motive (.negative c))
    (positive : ∀ c, motive c → motive (.positive c))
    (mul : ∀ l r, motive l → motive r → motive (.mul l r))
    (div : ∀ l r, motive l → motive r → motive (.div l r))
    (add : ∀ l r, motive l → motive r → motive (.add l r))
    (sub : ∀ l r, motive l → motive r → motive (.sub l r)) (c : Code) : motive c :=
  @Code.rec motive (fun cs => ∀ c ∈ cs, motive c) number imaginary name call list paren power
    negative positive mul div add sub
    (fun _ h => nomatch h)
      (fun _ _ hc hcs d hd => (List.mem_cons.mp hd).elim (fun h => h ▸ hc) (hcs d)) c

namespace Reading

variable {K : Type} [Field K] (R : Reading Float K)

def ofName (name : String) : Option K :=
  if name = R.target.nan then none
  else
    match R.target.constants.keyOf? name with
    | some host => R.meaning.symbol host
    | none => if name = R.target.infinity then none else R.meaning.symbol name

/-- Square roots are powers, the arguments of an arctangent change places, and an array of a list is
the list. -/
def ofCall (callee : String) (listed : Bool) (vs : List K) : Option K :=
  let plain := R.meaning.call ((R.target.functions.keyOf? callee).getD callee) vs
  match vs with
  | [v] =>
    if callee = R.target.rootCall then R.meaning.power v (1 / 2 : ℚ)
    else if some callee = R.target.arrayCall ∧ listed = true then some v
    else plain
  | [w, v] => if callee = R.target.arctangentCall then R.meaning.call "ArcTan" [v, w] else plain
  | _ => plain

def isList (c : Code) : Bool := Target.isList (R.target.treeOfCode c : Expr Float)

mutual

/-- The value of code in the output language. A literal has none where it is beyond the range of
doubles. -/
noncomputable def denote : Code → Option K
  | .number s => (toRat? (Target.numberOf s : Float)).map Rat.cast
  | .imaginary s =>
    Option.map₂ (· * ·) ((toRat? (Target.numberOf s : Float)).map Rat.cast) (R.meaning.symbol "I")
  | .name s => R.ofName s
  | .call f cs => (denotes cs).bind (R.ofCall f (cs.any R.isList))
  | .list cs => (denotes cs).bind R.meaning.list
  | .paren c => denote c
  | .power b e => (denote b).bind fun v => (denote e).bind fun w => R.meaning.power v w
  | .negative c => (denote c).map Neg.neg
  | .positive c => denote c
  | .mul l r => Option.map₂ (· * ·) (denote l) (denote r)
  | .div l r => divide (denote l) (denote r)
  | .add l r => Option.map₂ (· + ·) (denote l) (denote r)
  | .sub l r => Option.map₂ (· - ·) (denote l) (denote r)

noncomputable def denotes : List Code → Option (List K)
  | [] => some []
  | c :: cs => Option.map₂ List.cons (denote c) (denotes cs)

end

theorem value_number (s : String) :
    R.value (.number s) = (toRat? (Target.numberOf s : Float)).map Rat.cast := by
  rw [value, Target.treeOfCode_number, Expr.ofNumber, Interpretation.value_number, toRat?_ofNumber]

theorem value_imaginary (s : String) :
    R.value (.imaginary s) = Option.map₂ (· * ·) ((toRat? (Target.numberOf s : Float)).map Rat.cast)
      (R.meaning.symbol "I") := by
  rw [value, Target.treeOfCode_imaginary, Target.treeOfImaginary]
  split
  · next hone =>
    rw [Interpretation.value_symbol, RationalNumber.toRat?_eq_of_beq hone,
      RationalNumber.toRat?_one, Option.map_some, Rat.cast_one, Option.map₂_left_identity one_mul]
  · rw [Interpretation.value_mul, Interpretation.product_cons, Interpretation.product_cons,
      Interpretation.product_nil, Option.map₂_right_identity mul_one, Expr.ofNumber,
      Interpretation.value_number, toRat?_ofNumber, Interpretation.value_symbol]

theorem value_eq_ofName (s : String) : R.value (.name s) = R.ofName s := by
  have hnan : toRat? (nan : Float) = none := by decide +kernel
  have hinfinity : toRat? (infinity : Float) = none := by decide +kernel
  rw [value, Target.treeOfCode_name, Target.treeOfName, ofName]
  split
  · rw [Expr.ofNumber, Interpretation.value_number, toRat?_ofNumber, hnan, Option.map_none]
  · cases R.target.constants.keyOf? s with
    | some host => rw [Interpretation.value_symbol]
    | none =>
      simp only
      split
      · rw [Expr.ofNumber, Interpretation.value_number, toRat?_ofNumber, hinfinity, Option.map_none]
      · rw [Interpretation.value_symbol]

variable [CharZero K]

theorem value_eq_ofCall (f : String) (cs : List Code) :
    R.value (.call f cs) = (R.values cs).bind (R.ofCall f (cs.any R.isList)) := by
  have hplain : R.meaning.value
      (.call ((R.target.functions.keyOf? f).getD f) (cs.map R.target.treeOfCode) : Expr Float) =
      (R.values cs).bind (R.meaning.call ((R.target.functions.keyOf? f).getD f)) :=
        Interpretation.value_call ..
  have hvalue (c : Code) : R.meaning.value (R.target.treeOfCode c : Expr Float) = R.value c := rfl
  rw [value, Target.treeOfCode_call, Target.treeOfCall.eq_def]
  rcases cs with _ | ⟨c, _ | ⟨d, _ | ⟨e, es⟩⟩⟩
  · exact hplain
  · have hhalf : ((1 / 2 : ℚ) : K) = 1 / 2 := by norm_num
    have hlisted : [c].any R.isList = Target.isList (R.target.treeOfCode c : Expr Float) :=
      Bool.or_false _
    simp only [List.map_cons, List.map_nil] at hplain ⊢
    rw [hlisted]
    by_cases hroot : f = R.target.rootCall
    · rw [if_pos hroot, value_sqrt, hvalue, values_cons, values_nil, ← hhalf]
      cases R.value c with
      | none => rfl
      | some v => exact (if_pos hroot).symm
    · by_cases harray : some f = R.target.arrayCall ∧
        Target.isList (R.target.treeOfCode c : Expr Float) = true
      · rw [if_neg hroot, if_pos harray, hvalue, values_cons, values_nil]
        cases R.value c with
        | none => rfl
        | some v => exact ((if_neg hroot).trans (if_pos harray)).symm
      · rw [if_neg hroot, if_neg harray, hplain, values_cons, values_nil]
        cases R.value c with
        | none => rfl
        | some v => exact ((if_neg hroot).trans (if_neg harray)).symm
  · simp only [List.map_cons, List.map_nil] at hplain ⊢
    by_cases harctangent : f = R.target.arctangentCall
    · rw [if_pos harctangent, Interpretation.value_call, Interpretation.values_cons,
        Interpretation.values_cons, Interpretation.values_nil, hvalue, hvalue, values_cons,
        values_cons, values_nil]
      cases R.value c with
      | none => cases R.value d <;> rfl
      | some w => cases R.value d with
        | none => rfl
        | some v => exact (if_pos harctangent).symm
    · rw [if_neg harctangent, hplain, values_cons, values_cons, values_nil]
      cases R.value c with
      | none => rfl
      | some w => cases R.value d with
        | none => rfl
        | some v => exact (if_neg harctangent).symm
  · simp only [List.map_cons] at hplain ⊢
    rw [hplain, values_cons, values_cons, values_cons]
    cases R.value c <;> cases R.value d <;> cases R.value e <;> cases R.values es <;> rfl

variable {R} (hpower : ∀ v, R.meaning.power v (-1) = reciprocal v)

include hpower

/-- The tree that code is read as has the value of the code. -/
theorem value_eq_denote (c : Code) : R.value c = R.denote c := by
  have list (cs : List Code) (ih : ∀ c ∈ cs, R.value c = R.denote c) :
      R.values cs = R.denotes cs := by
    induction cs with
    | nil => rfl
    | cons c cs ihs =>
        rw [values_cons, ih c List.mem_cons_self, ihs fun d hd => ih d (List.mem_cons_of_mem _ hd)]
        rfl
  induction c using Code.induct with
  | number s => exact R.value_number s
  | imaginary s => exact R.value_imaginary s
  | name s => exact R.value_eq_ofName s
  | call f cs ih => rw [value_eq_ofCall, list cs ih, denote]
  | list cs ih => rw [value_list, list cs ih, denote]
  | paren c ih => rw [value_paren, ih, denote]
  | power b e ihb ihe => rw [value_power, ihb, ihe, denote]
  | negative c ih => rw [value_negative, ih, denote]
  | positive c ih => exact ih
  | mul l r ihl ihr => rw [value_mul, ihl, ihr, denote]
  | div l r ihl ihr =>
      rw [denote, ← ihl, ← ihr]
      exact value_treeOfQuotient hpower _ _
  | add l r ihl ihr => rw [value_add, ihl, ihr, denote]
  | sub l r ihl ihr =>
      rw [value_sub, ihl, ihr, denote, Option.map₂_map_right]
      simp only [sub_eq_add_neg]

end Reading

namespace Target

open Code (Derives Spelled)

/-- A text is read exactly if its tokens derive from a sum. They then spell one tree of the output
language, and the tree that is read has the value of that one. -/
theorem read_iff (t : Target) (text : String) :
    match Tokens.ofText text with
    | .error e => (t.read text : Except CodeError (Expr Float)) = .error e
    | .ok ts =>
      ((∃ x : Expr Float, t.read text = .ok x) ↔ Derives .sum ts.tokens) ∧
        ∀ x : Expr Float, t.read text = .ok x → ∃ c, Spelled (.code .sum c) ts.tokens ∧
          (∀ d, Spelled (.code .sum d) ts.tokens → d = c) ∧
          ∀ (K : Type) [Field K] [CharZero K] (I : Interpretation K),
            (∀ v, I.power v (-1) = Interpretation.reciprocal v) →
            I.value x = (⟨t, I⟩ : Reading Float K).denote c := by
  cases htokens : Tokens.ofText text with
  | error e =>
      rw [read, Code.parse, htokens]
      rfl
  | ok ts =>
      have hread :
          (t.read text : Except CodeError (Expr Float)) = (Code.ofTokens ts).map t.treeOfCode := by
        rw [read, Code.parse, htokens]
      obtain ⟨haccepts, hspells⟩ := Code.ofTokens_iff ts
      simp only
      rw [hread]
      refine ⟨⟨?_, ?_⟩, ?_⟩
      · rintro ⟨x, hx⟩
        obtain ⟨c, hc, -⟩ := Code.Grammar.map_eq_ok hx
        exact haccepts.mp ⟨c, hc⟩
      · intro hderives
        obtain ⟨c, hc⟩ := haccepts.mpr hderives
        exact ⟨t.treeOfCode c, by rw [hc]; rfl⟩
      · intro x hx
        obtain ⟨c, hc, rfl⟩ := Code.Grammar.map_eq_ok hx
        refine ⟨c, (hspells c).mp hc, ?_, ?_⟩
        · intro d hd
          exact Except.ok.inj (((hspells d).mpr hd).symm.trans hc)
        · intro K _ _ I hpower
          exact Reading.value_eq_denote (R := (⟨t, I⟩ : Reading Float K)) hpower c

noncomputable def threes : Interpretation ℚ where
  symbol _ := some 3
  pattern _ _ := none
  call _ _ := none
  list _ := none
  power v w := if w = 2 then some (v * v) else if w = -1 then Interpretation.reciprocal v else none

/-- The sign applies to the square, and the quotient to what stands left of it. -/
theorem read_iff_negatedSquare :
    ∃ x : Expr Float, numpy.read "-x**2/6" = .ok x ∧ threes.value x = some (-(3 * 3) / 6) := by
  let marks : List Token :=
    [⟨.minus, "-", 0⟩, ⟨.identifier, "x", 1⟩, ⟨.power, "**", 2⟩, ⟨.number, "2", 4⟩]
  have htokens : Tokens.ofText "-x**2/6" = .ok ⟨marks ++ [⟨.slash, "/", 5⟩, ⟨.number, "6", 6⟩],
      7⟩ := by decide +kernel
  have hread := read_iff numpy "-x**2/6"
  rw [htokens] at hread
  obtain ⟨haccepts, hvalue⟩ := hread
  have hspelled : Spelled
      (.code .sum (.div (.negative (.power (.name "x") (.number "2"))) (.number "6")))
      (marks ++ [⟨.slash, "/", 5⟩, ⟨.number, "6", 6⟩]) := by
    have hsquare := Spelled.power (b := .unary) (t := ⟨.power, "**", 2⟩) (by decide)
      (.name (t := ⟨.identifier, "x", 1⟩) rfl) rfl (.number (t := ⟨.number, "2", 4⟩) rfl)
    exact .div (by decide) (.negative (by decide) rfl hsquare) rfl
      (.number (t := ⟨.number, "6", 6⟩) rfl)
  obtain ⟨x, hx⟩ := haccepts.mpr
    ((Code.ofTokens_iff ⟨_, 7⟩).1.mp ⟨_, Code.ofTokens_of_spelled hspelled⟩)
  obtain ⟨c, -, hunique, hvalue⟩ := hvalue x hx
  obtain rfl := hunique _ hspelled
  have htwo : toRat? (numberOf "2" : Float) = some 2 := by decide +kernel
  have hsix : toRat? (numberOf "6" : Float) = some 6 := by decide +kernel
  have hname : (⟨numpy, threes⟩ : Reading Float ℚ).ofName "x" = some 3 := by
    have hkey : numpy.constants.keyOf? "x" = none := by decide
    rw [Reading.ofName, if_neg (by decide), hkey]
    exact if_neg (by decide)
  refine ⟨x, hx, ?_⟩
  rw [hvalue ℚ threes fun v => by norm_num [threes]]
  simp only [Reading.denote, htwo, hsix, hname]
  rw [Option.map_some, Option.map_some, Option.bind_some, Option.bind_some]
  norm_num [threes, divide_some]

end Target

end Formulary
