import Formulary.Proofs.Display.Respelling
import Formulary.Proofs.Expr.Normal
import Mathlib

namespace Formulary

open Number Interpretation

namespace Expr

variable {K : Type} [Field K]

section Lists

variable {I : Interpretation K} {xs : List (Expr Float)}

theorem exists_codes (h : ∀ x ∈ xs, (display x).Means I (I.value x)) :
    ∃ cs, (∀ c ∈ cs, Code.Readable .sum c) ∧ (", ".intercalate (Code.texts cs)).toList =
      respelled (displayList (displayAll xs)) ∧ (plainReading I).denotes cs = I.values xs := by
  have each : ∃ cs, (∀ c ∈ cs, Code.Readable .sum c) ∧
      List.Forall₂ (fun s u : String => u.toList = respelled s) ((displayAll xs).map Display.text)
        (Code.texts cs) ∧
      (plainReading I).denotes cs = I.values xs := by
    induction xs with
    | nil => exact ⟨[], nofun, .nil, rfl⟩
    | cons x xs ih =>
        obtain ⟨⟨t, ts, hx⟩, hxs⟩ := List.forall_mem_cons.mp h
        obtain ⟨cs, hcs, htexts, hvalues⟩ := ih hxs
        refine ⟨Signed.sum t ts :: cs, List.forall_mem_cons.mpr ⟨hx.writes.readable, hcs⟩,
          .cons hx.writes.chars htexts, ?_⟩
        rw [Reading.denotes, hx.writes.value, hvalues, Interpretation.values_cons]
  obtain ⟨cs, hcs, htexts, hvalues⟩ := each
  exact ⟨cs, hcs, respelled_intercalate htexts, hvalues⟩

theorem exists_factors (h : ∀ x ∈ xs, (display x).Means I (I.value x)) :
    ∃ cs, (∀ c ∈ cs, Code.Readable .unary c) ∧
      (cs.flatMap fun c => '*' :: c.text.toList) =
        respelled (String.join ((displayAll xs).map fun d => "*" ++ d.within .power)) ∧
      (plainReading I).denotes cs = I.values xs := by
  induction xs with
  | nil => exact ⟨[], nofun, rfl, rfl⟩
  | cons x xs ih =>
      obtain ⟨hx, hxs⟩ := List.forall_mem_cons.mp h
      obtain ⟨c, hc, -⟩ := hx.within (b := .power) (by decide)
      obtain ⟨cs, hcs, htexts, hvalues⟩ := ih hxs
      refine ⟨c :: cs, List.forall_mem_cons.mpr ⟨hc.readable.mono (by decide), hcs⟩, ?_, ?_⟩
      · rw [List.flatMap_cons, htexts, hc.chars, displayAll, List.map_cons, String.join_cons,
          respelled_append, respelled_append]
        rfl
      · rw [Reading.denotes, hc.value, hvalues, Interpretation.values_cons]

end Lists

section Constructors

variable {I : Interpretation K} {text s : String} {v : Option K} {b : Binding} {c : Code}
    {x y : Expr Float} {xs : List (Expr Float)}

theorem means_of_code (h : Display.Writes I b text v c) (hb : .product ≤ b)
    (hunmarked : Unmarked c.text.toList) : Display.Means I ⟨text, b⟩ v := by
  refine Display.means_term (t := ⟨false, c⟩) h.chars.symm ?_ (h.readable.mono hb)
    (fun _ => hunmarked) fun _ => ⟨rfl, h.readable⟩
  rw [Signed.value, map_signed_false, h.value]

theorem means_symbol (h : IsWord s) : (display (.symbol s : Expr Float)).Means I (I.symbol s) := by
  rw [display]
  refine means_of_code (c := .name s) ⟨Code.readable_name h.isName, ?_, denote_name I h⟩
    (by decide) h.unmarked
  rw [Code.text, h.respelled]

theorem means_call (hs : IsWord s) (h : ∀ x ∈ xs, (display x).Means I (I.value x)) :
    Display.Means I ⟨s ++ "[" ++ displayList (displayAll xs) ++ "]", .atom⟩
      ((I.values xs).bind (I.call s)) := by
  obtain ⟨cs, hcs, hchars, hvalues⟩ := exists_codes h
  refine means_of_code (c := .call s cs) ⟨Code.readable_call hs.isName hcs, ?_, ?_⟩ (by decide) ?_
  · simp only [Code.text, String.toList_append, respelled_append, hchars, hs.respelled]
    rfl
  · rw [denote_call I hs, hvalues]
  · simp only [Code.text, String.toList_append, List.append_assoc]
    exact hs.unmarked.append _

theorem means_list (h : ∀ x ∈ xs, (display x).Means I (I.value x)) :
    (display (.list xs)).Means I (I.value (.list xs)) := by
  obtain ⟨cs, hcs, hchars, hvalues⟩ := exists_codes h
  rw [display]
  refine means_of_code (c := .list cs) ⟨Code.readable_list hcs, ?_, ?_⟩ (by decide) ?_
  · simp only [Code.text, String.toList_append, respelled_append, hchars]
    rfl
  · rw [Reading.denote, hvalues, Interpretation.value_list]
    rfl
  · rw [Code.text, String.toList_append, String.toList_append]
    exact (Unmarked.append ⟨'[', [], rfl, by decide⟩ _).append _

theorem means_power (hx : (display x).Means I (I.value x)) (hy : (display y).Means I (I.value y)) :
    Display.Means I ⟨(display x).within .atom ++ "^" ++ (display y).within .atom, .power⟩
      (I.value (.power x y)) := by
  obtain ⟨c, hc, hunmarked⟩ := hx.within (b := .atom) (by decide)
  obtain ⟨d, hd, -⟩ := hy.within (b := .atom) (by decide)
  refine means_of_code (c := .power c d) ⟨hc.readable.power (hd.readable.mono (by decide)), ?_, ?_⟩
    (by decide) ?_
  · simp only [Code.text, String.toList_append, respelled_append, hc.chars, hd.chars]
    rfl
  · rw [Reading.denote, hc.value, hd.value]
    rfl
  · simp only [Code.text, String.toList_append, List.append_assoc]
    exact hunmarked.append _

theorem means_negation (h : (display x).Means I v) :
    (display (.negation x)).Means I (v.map Neg.neg) := by
  obtain ⟨c, hc, -⟩ := h.within (b := .power) (by decide)
  rw [display]
  refine Display.means_term (t := ⟨true, c⟩) ?_ ?_ (hc.readable.mono (by decide)) nofun (nomatch ·)
  · rw [respelled_append, ← hc.chars]
    rfl
  · rw [Signed.value, hc.value]
    rfl

theorem meansLater_negation (h : (display x).Means I v) :
    Display.MeansLater I (" - " ++ (display x).within .product) (v.map Neg.neg) := by
  obtain ⟨c, hc⟩ := h.within_product
  refine ⟨[⟨true, c⟩], ?_, ?_, List.forall_mem_singleton.mpr hc.readable⟩
  · rw [respelled_append, ← hc.chars, List.flatMap_singleton]
    rfl
  · rw [Signed.total_singleton, Signed.value, hc.value]
    rfl

theorem means_product (hx : (display x).Means I (I.value x))
    (hxs : ∀ f ∈ xs, (display f).Means I (I.value f)) :
    (display (.product (x :: xs))).Means I (I.product (x :: xs)) := by
  obtain ⟨t, hchars, hvalue, hreadable, hunmarked⟩ := hx.lead
  obtain ⟨cs, hcs, hfactors, hvalues⟩ := exists_factors hxs
  have htext := Code.toList_text_chain t.magnitude cs
  rw [display, displayAll, displayProduct]
  refine Display.means_term (t := ⟨t.negative, Code.chain t.magnitude cs⟩) ?_ ?_
    (hreadable.chain hcs) ?_ (nomatch ·)
  · rw [respelled_append, hchars, ← hfactors, Signed.chars, Signed.chars, htext, List.append_assoc]
  · rw [Signed.value, Reading.denote_chain, hvalues, Interpretation.product_cons, ← hvalue,
      Signed.value]
    exact Option.map_map₂_distrib_left (Signed.signed_mul_left (K := K) t.negative)
  · intro hsign
    rw [htext]
    exact (hunmarked hsign).append _

theorem displayTerms_cons (x : Expr Float) (xs : List (Expr Float)) :
    displayTerms (x :: xs) = displayTerms [x] ++ displayTerms xs := by
  cases x <;> simp [displayTerms]

theorem displayTerms_singleton (h : ∀ y, x ≠ .negation y) :
    displayTerms [x] = laterTerm (display x).text := by
  cases x with
  | negation y => exact absurd rfl (h y)
  | _ => simp [displayTerms]

theorem meansLater_terms (h : ∀ x ∈ xs, Display.MeansLater I (displayTerms [x]) (I.value x)) :
    Display.MeansLater I (displayTerms xs) (I.sum xs) := by
  induction xs with
  | nil => exact ⟨[], rfl, I.sum_nil.symm, nofun⟩
  | cons x xs ih =>
      obtain ⟨⟨ts, hchars, hvalue, hts⟩, hxs⟩ := List.forall_mem_cons.mp h
      obtain ⟨us, hchars', hvalue', hus⟩ := ih hxs
      refine ⟨ts ++ us, ?_, ?_, List.forall_mem_append.mpr ⟨hts, hus⟩⟩
      · rw [displayTerms_cons, respelled_append, hchars, hchars', List.flatMap_append]
      · rw [Signed.total_append, hvalue, hvalue', I.sum_cons]

theorem means_sum (hx : (display x).Means I (I.value x))
    (hxs : ∀ y ∈ xs, Display.MeansLater I (displayTerms [y]) (I.value y)) :
    (display (.sum (x :: xs))).Means I (I.sum (x :: xs)) := by
  obtain ⟨t, ts, h⟩ := hx
  obtain ⟨us, hchars, hvalue, hus⟩ := meansLater_terms hxs
  rw [display]
  refine ⟨t, ts ++ us, ?_, ?_, ?_, h.unmarked, (nomatch ·), (nomatch ·)⟩
  · rw [respelled_append, h.chars, hchars, List.flatMap_append, List.append_assoc]
  · rw [← List.cons_append, Signed.total_append, h.value, hvalue, I.sum_cons]
  · rw [← List.cons_append]
    exact List.forall_mem_append.mpr ⟨h.readable, hus⟩

end Constructors

section Numerals

variable (I : Interpretation K) {n : Numeral Float} {p q : ℚ}

theorem exists_literal_of_finite {x : Float} (hx : toRat? x = some q) :
    ∃ l : Decimal.Literal, l.Plain ∧
    respelled (Number.text x) = (if q < 0 then ['-'] else []) ++ l.text.toList ∧
    (plainReading I).denote (.number l.text) = some ((|q| : ℚ) : K) := by
  obtain ⟨l, hl, hchars, hvalue⟩ := Decimal.Layout.plain.exists_literal (decimal x)
  have htext : l.text.toList = l.chars := String.toList_ofList
  refine ⟨l, hl, ?_, ?_⟩
  · have hplain : ∀ c ∈ (if q < 0 then ['-'] else []) ++ l.chars, respell c = [c] := by
      refine List.forall_mem_append.mpr ⟨?_, ?_⟩
      · split <;> simp [respell]
      · refine hl.wellFormed.forall_chars ?_ (by simp [respell])
        intro c hc
        exact respell_of_isAlphanum (by rw [Char.isAlphanum, hc, Bool.or_true])
    have hwritten : (Number.text x).toList = (if q < 0 then ['-'] else []) ++ l.chars := by
      rw [toList_text hx, ← hchars]
    rw [← hwritten] at hplain
    rw [htext, ← hwritten, respelled_of_forall hplain]
  · have hread : Decimal.Literal.value? l.text.toList = some l.value :=
      Decimal.Literal.value?_eq_some_iff.mpr ⟨l, hl.wellFormed, htext.symm, rfl⟩
    rw [Reading.denote, Target.numberOf, hread]
    exact congrArg (Option.map Rat.cast) (Double.toRat?_ofDecimal_of_eq hx hvalue)

theorem means_signed {text : String} {b : Binding} {m : Code} (hreadable : Code.Readable .product m)
    (hunmarked : Unmarked m.text.toList)
    (hchars : respelled text = (if q < 0 then ['-'] else []) ++ m.text.toList)
    (hvalue : (plainReading I).denote m = some ((|q| : ℚ) : K))
    (htight : .power ≤ b → 0 ≤ q ∧ Code.Readable b m) :
    Display.Means I ⟨text, b⟩ (some (q : K)) := by
  refine Display.means_term (t := ⟨decide (q < 0), m⟩) ?_ ?_ hreadable (fun _ => hunmarked) ?_
  · rw [hchars, Signed.chars]
    simp
  · rw [Signed.value, hvalue, Option.map_some, Interpretation.signed]
    split
    · next h => rw [abs_of_neg (of_decide_eq_true h), Rat.cast_neg, neg_neg]
    · next h => rw [abs_of_nonneg (not_lt.mp (of_decide_eq_false (Bool.eq_false_iff.mpr h)))]
  · intro hle
    obtain ⟨hq, hm⟩ := htight hle
    exact ⟨decide_eq_false hq.not_gt, hm⟩

theorem means_number [CharZero K] (hp : toRat? n.numerator = some p)
    (hq : toRat? n.denominator = some q) (hq0 : 0 < q) :
    (display (.number n)).Means I (I.value (.number n)) := by
  obtain ⟨l, hl, hchars, hvalue⟩ := exists_literal_of_finite I hp
  have hunmarked : Unmarked l.text.toList := by
    obtain ⟨d, ds, hstart, hdigit⟩ := hl.exists_cons
    refine ⟨d, ds, String.toList_ofList.trans hstart, ?_⟩
    rintro rfl
    exact absurd hdigit (by decide)
  rw [Interpretation.value_number, Numeral.toRat?_of_parts hp hq hq0.ne', Option.map_some, display,
    displayNumeral]
  split
  · next hone =>
    have hq1 : q = 1 :=
      Option.some.inj
      (hq.symm.trans ((RationalNumber.toRat?_eq_of_beq hone).trans RationalNumber.toRat?_one))
    have hnan : isNaN n.numerator = false := by
      rw [isNaN, WrittenNumber.beq_self hp]
      rfl
    rw [hq1, div_one, hnan, if_neg Bool.false_ne_true]
    refine means_signed I (m := .number l.text) (Code.readable_number hl)
        hunmarked hchars hvalue fun hle =>
      ⟨?_, Code.readable_number hl⟩
    refine not_lt.mp fun hp0 => ?_
    have hunary : (n.isNegative || isZero n.numerator && signBit n.numerator) = true := by
      rw [Numeral.isNegative, (WrittenNumber.isNegative_iff hp).mpr hp0, Bool.true_or]
    rw [if_pos hunary] at hle
    exact absurd hle (by decide)
  · obtain ⟨l', hl', hchars', hvalue'⟩ := exists_literal_of_finite I hq
    rw [if_neg hq0.not_gt, List.nil_append] at hchars'
    have hpq : p / q < 0 ↔ p < 0 := by rw [div_lt_iff₀ hq0, zero_mul]
    refine means_signed I (m := .div (.number l.text) (.number l'.text))
      ((Code.readable_number hl).div (Code.readable_number hl')) ?_ ?_ ?_ ?_
    · simp only [Code.text, String.toList_append, List.append_assoc]
      exact hunmarked.append _
    · simp only [respelled_append, hchars, hchars', hpq, Code.text, String.toList_append,
        List.append_assoc]
      rfl
    · have hq : ((|q| : ℚ) : K) ≠ 0 := by exact_mod_cast (abs_pos.mpr hq0.ne').ne'
      rw [Reading.denote, hvalue, hvalue', divide_some _ hq, abs_div, Rat.cast_div]
    · intro hle
      split at hle <;> exact absurd hle (by decide)

end Numerals

/-- Finite numerals over positive denominators, sums and products of one or more parts, and words
for names. -/
def PlainNode : Expr Float → Prop
  | .number n => ∃ p q, toRat? n.numerator = some p ∧ toRat? n.denominator = some q ∧ 0 < q
  | .symbol s => IsWord s
  | .sum ts => ts ≠ []
  | .product fs => fs ≠ []
  | .call head _ => IsWord head
  | .pattern _ _ => False
  | .power _ _ | .negation _ | .list _ => True

def WordedNode : Expr Float → Prop
  | .number n => isFinite n.numerator = true
  | .symbol s | .call s _ => IsWord s
  | .pattern _ _ => False
  | .sum _ | .product _ | .power _ _ | .negation _ | .list _ => True

theorem PlainNode.of_normal {x : Expr Float} (hx : x.NormalNode) (hw : x.WordedNode) :
    x.PlainNode := by
  cases x with
  | number n =>
      obtain ⟨p, hp⟩ := Option.isSome_iff_exists.mp hw
      obtain ⟨q, hq, hone, -⟩ := hx
      exact ⟨p, q, hp, hq, zero_lt_one.trans_le hone⟩
  | symbol s => exact hw
  | sum ts => exact List.ne_nil_of_length_pos (Nat.zero_lt_of_lt hx.1)
  | product fs => exact List.ne_nil_of_length_pos (Nat.zero_lt_of_lt hx.1)
  | call head args => exact hw
  | pattern s h => exact hw
  | power | negation | list => trivial

/-- The normal form of the smart constructors is plain when its names are words and its numbers are
finite. -/
theorem plain_of_normal {x : Expr Float} (hx : x.Normal) (hw : x.Every WordedNode) :
    x.Every PlainNode := by
  induction hx with
  | intro here _ ih => exact .intro (.of_normal here hw.here) fun c hc => ih c hc (hw.parts c hc)

section Trees

variable [CharZero K] {I : Interpretation K} {x y : Expr Float}

theorem value_of_isHalf (h : x.isHalf = true) : I.value x = some (1 / 2) := by
  cases x with
  | number n =>
      obtain ⟨hone, htwo⟩ := Bool.and_eq_true_iff.mp h
      have hp := (RationalNumber.toRat?_eq_of_beq hone).trans RationalNumber.toRat?_one
      have hq := (RationalNumber.toRat?_eq_of_beq htwo).trans RationalNumber.toRat?_two
      rw [Interpretation.value_number, Numeral.toRat?_of_parts hp hq two_ne_zero, Option.map_some,
        Rat.cast_div, Rat.cast_one, Rat.cast_ofNat]
  | _ => cases h

variable (hsqrt : ∀ v, I.call "Sqrt" [v] = I.power v (1 / 2))

include hsqrt

/-- Square roots are displayed as calls. -/
theorem means_root {b e : Expr Float} (hb : (display b).Means I (I.value b)) (he : e.isHalf = true) :
    Display.Means I ⟨"Sqrt[" ++ (display b).text ++ "]", .atom⟩ (I.value (.power b e)) := by
  have htext : "Sqrt[" ++ (display b).text ++ "]" = "Sqrt" ++ "[" ++
      displayList (displayAll [b]) ++ "]" := by
    rw [displayList, displayAll, displayAll, List.map_cons, List.map_nil,
      String.intercalate_singleton]
    rfl
  have hvalue : I.value (.power b e) = (I.values [b]).bind (I.call "Sqrt") := by
    rw [Interpretation.value_power, value_of_isHalf he, Interpretation.values_cons,
      Interpretation.values_nil]
    cases I.value b with
    | none => rfl
    | some v => exact (hsqrt v).symm
  rw [htext, hvalue]
  exact means_call isWord_sqrt (List.forall_mem_singleton.mpr hb)

/-- A tree is displayed as what has its value, and as a further term of a sum it is terms with its
value. -/
theorem means_of_plain (hx : x.Every PlainNode) :
    (display x).Means I (I.value x) ∧ Display.MeansLater I (displayTerms [x]) (I.value x) := by
  have later {x : Expr Float} (hne : ∀ y, x ≠ .negation y) (h : (display x).Means I (I.value x)) :
      (display x).Means I (I.value x) ∧ Display.MeansLater I (displayTerms [x]) (I.value x) :=
    ⟨h, displayTerms_singleton hne ▸ h.later⟩
  -- the display of a negation is not enough for the sum around it, where only its operand is
  -- displayed
  induction x with
  | number n =>
      obtain ⟨p, q, hp, hq, hq0⟩ := hx.here
      exact later nofun (means_number I hp hq hq0)
  | symbol s => exact later nofun (means_symbol hx.here)
  | sum ts ih =>
      have hts := fun t ht => ih t ht (hx.parts t ht)
      cases ts with
      | nil => exact absurd rfl hx.here
      | cons t ts =>
          obtain ⟨ht, hrest⟩ := List.forall_mem_cons.mp hts
          exact later nofun (means_sum ht.1 fun u hu => (hrest u hu).2)
  | product fs ih =>
      have hfs := fun f hf => (ih f hf (hx.parts f hf)).1
      cases fs with
      | nil => exact absurd rfl hx.here
      | cons f fs =>
          obtain ⟨hf, hrest⟩ := List.forall_mem_cons.mp hfs
          exact later nofun (means_product hf hrest)
  | power b e ihb ihe =>
      obtain ⟨hb, he⟩ := List.forall_mem_cons.mp hx.parts
      have hbase := (ihb hb).1
      have hexponent := (ihe (List.forall_mem_singleton.mp he)).1
      refine later nofun ?_
      rw [display]
      split
      · next hhalf => exact means_root hsqrt hbase hhalf
      · exact means_power hbase hexponent
  | call head args ih =>
      refine later nofun ?_
      rw [display]
      exact means_call hx.here fun a ha => (ih a ha (hx.parts a ha)).1
  | negation y ih =>
      have hy := (ih (hx.parts y (List.mem_singleton.mpr rfl))).1
      refine ⟨means_negation hy, ?_⟩
      have hterms : displayTerms [.negation y] = " - " ++ (display y).within .product := by
        simp [displayTerms]
      rw [hterms]
      exact meansLater_negation hy
  | list items ih => exact later nofun (means_list fun i hi => (ih i hi (hx.parts i hi)).1)
  | pattern s h => exact absurd hx.here id

/-- Host notation is unambiguous in value: trees that are displayed alike have the same value, or
both none. -/
theorem value_eq_of_text_eq (hx : x.Every PlainNode) (hy : y.Every PlainNode)
    (h : x.text = y.text) : I.value x = I.value y := by
  obtain ⟨t, ts, hxs⟩ := (means_of_plain hsqrt hx).1
  obtain ⟨u, us, hys⟩ := (means_of_plain hsqrt hy).1
  have htext : (Signed.sum t ts).text = (Signed.sum u us).text := by
    rw [← String.toList_inj, hxs.writes.chars, hys.writes.chars]
    exact congrArg respelled h
  have hcode : Signed.sum t ts = Signed.sum u us := by
    have hparse := hxs.writes.readable.parse
    rw [htext, hys.writes.readable.parse] at hparse
    exact (Except.ok.inj hparse).symm
  rw [← hxs.writes.value, hcode, hys.writes.value]

end Trees

def rootMinusProduct : Expr Float :=
  .sum [.power (.symbol "a") (.number .half), .negation (.product [.symbol "b", .symbol "c"])]

def rootPlusNegated : Expr Float :=
  .sum [.call "Sqrt" [.symbol "a"], .product [.negation (.symbol "b"), .symbol "c"]]

def twos : Interpretation ℚ where
  symbol _ := some 3
  pattern _ _ := none
  call _ _ := some 2
  list _ := none
  power _ _ := some 2

theorem value_eq_of_text_eq_rootMinusProduct :
    rootMinusProduct.text = "Sqrt[a] - b*c" ∧ rootPlusNegated.text = "Sqrt[a] - b*c" ∧
      twos.value rootMinusProduct = twos.value rootPlusNegated := by
  have htext : rootMinusProduct.text = "Sqrt[a] - b*c" := by decide +kernel
  have htext' : rootPlusNegated.text = "Sqrt[a] - b*c" := by decide +kernel
  have ha : (.symbol "a" : Expr Float).Every PlainNode := .leaf ⟨'a', [], rfl, rfl, nofun⟩ rfl
  have hb : (.symbol "b" : Expr Float).Every PlainNode := .leaf ⟨'b', [], rfl, rfl, nofun⟩ rfl
  have hc : (.symbol "c" : Expr Float).Every PlainNode := .leaf ⟨'c', [], rfl, rfl, nofun⟩ rfl
  have hhalf : (.number .half : Expr Float).Every PlainNode :=
    .leaf ⟨1, 2, RationalNumber.toRat?_one, RationalNumber.toRat?_two, two_pos⟩ rfl
  have hpair {P : Expr Float → Prop} {x y : Expr Float} (hx : P x) (hy : P y) : ∀ c ∈ [x, y], P c :=
    List.forall_mem_cons.mpr ⟨hx, List.forall_mem_singleton.mpr hy⟩
  refine ⟨htext, htext', value_eq_of_text_eq (fun _ => rfl) ?_ ?_ (htext.trans htext'.symm)⟩
  · have hroot : (.power (.symbol "a") (.number .half) : Expr Float).Every PlainNode :=
      .intro trivial (hpair ha hhalf)
    have hproduct : (.product [.symbol "b", .symbol "c"] : Expr Float).Every PlainNode :=
      .intro (List.cons_ne_nil _ _) (hpair hb hc)
    exact .intro (List.cons_ne_nil _ _)
      (hpair hroot (.intro trivial (List.forall_mem_singleton.mpr hproduct)))
  · have hroot : (.call "Sqrt" [.symbol "a"] : Expr Float).Every PlainNode :=
      .intro isWord_sqrt (List.forall_mem_singleton.mpr ha)
    have hnegated : (.negation (.symbol "b") : Expr Float).Every PlainNode :=
      .intro trivial (List.forall_mem_singleton.mpr hb)
    exact .intro (List.cons_ne_nil _ _)
      (hpair hroot (.intro (List.cons_ne_nil _ _) (hpair hnegated hc)))

end Expr

end Formulary
