import Formulary.Proofs.Code.Grammar
import Formulary.Proofs.Decimal.Text
import Formulary.Proofs.Text.Blank
import Mathlib

namespace Formulary

/-- No character in front that a numeral or a name could go on with. -/
def Boundary (rest : List Char) : Prop := ∀ c ∈ rest.head?, Lexeme.isNameChar c = false ∧ c ≠ '.'

theorem boundary_nil : Boundary [] := by
  intro c hc
  cases hc

theorem boundary_cons {c : Char} (h : Lexeme.isNameChar c = false ∧ c ≠ '.') (rest : List Char) :
    Boundary (c :: rest) := by
  rintro _ ⟨⟩
  exact h

theorem isDigit_eq_false {c : Char} (h : Lexeme.isNameChar c = false) : c.isDigit = false := by
  rw [Lexeme.isNameChar, Bool.or_eq_false_iff, Char.isAlphanum, Bool.or_eq_false_iff] at h
  exact h.1.2

theorem Boundary.ends {rest : List Char} (h : Boundary rest) : Decimal.Literal.Ends rest := by
  intro c hc
  obtain ⟨hname, hpoint⟩ := h c hc
  refine ⟨isDigit_eq_false hname, hpoint, ?_, ?_⟩ <;> rintro rfl <;> exact absurd hname (by decide)

namespace Tokens

def prepend (ts : List Token) (rest : Tokens) : Tokens := { rest with tokens := ts ++ rest.tokens }

theorem map_prepend (ts us : List Token) (r : Except CodeError Tokens) :
    (r.map (prepend us)).map (prepend ts) = r.map (prepend (ts ++ us)) := by
  cases r with
  | error e => rfl
  | ok rest => simp [Except.map, prepend, List.append_assoc]

theorem scan_blank {c : Char} (hc : Text.isBlank c = true) (position : Nat) (cs : List Char) :
    scan position (c :: cs) = scan (position + 1) cs := by
  rw [scan.eq_def]
  exact if_pos hc

theorem scan_none {c : Char} {cs : List Char} (hc : Text.isBlank c = false)
    (h : Lexeme.scan c cs = none) (position : Nat) :
    scan position (c :: cs) = .error (.character c position) := by
  rw [scan.eq_def]
  simp only
  rw [if_neg (by rw [hc]; decide)]
  split
  · rfl
  · next hsome => rw [h] at hsome; cases hsome

theorem scan_some {c : Char} {cs : List Char} {l : Lexeme} (hc : Text.isBlank c = false)
    (h : Lexeme.scan c cs = some l) (position : Nat) :
      scan position (c :: cs) = (scan (position + ((cs.length + 1) - l.rest.length)) l.rest).map
      (prepend [⟨l.kind, l.text, position⟩]) := by
  rw [scan.eq_def]
  simp only
  rw [if_neg (by rw [hc]; decide)]
  split
  · next hnone => rw [h] at hnone; cases hnone
  · next l' hsome =>
    rw [h] at hsome
    cases hsome
    cases scan (position + (cs.length + 1 - l.rest.length)) l.rest <;> rfl

theorem scan_lexeme {c : Char} {cs : List Char} {l : Lexeme} (hc : Text.isBlank c = false)
    (h : Lexeme.scan c cs = some l) (position : Nat) :
    ∃ position', scan position (c :: cs) =
    (scan position' l.rest).map (prepend [⟨l.kind, l.text, position⟩]) :=
  ⟨_, scan_some hc h position⟩

end Tokens

namespace Lexeme

theorem literal_scan_eq_none {c : Char} (cs : List Char) (hdigit : c.isDigit = false)
    (hpoint : c ≠ '.') : Decimal.Literal.scan (c :: cs) = none := by
  have hneg : ¬ c.isDigit = true := by
    rw [hdigit]
    decide
  have hfraction : Decimal.Literal.scanFraction (c :: cs) = (none, c :: cs) := by
    rw [Decimal.Literal.scanFraction]
    rintro _ ⟨rfl, -⟩
    exact hpoint rfl
  rw [Decimal.Literal.scan, List.takeWhile_cons_of_neg hneg, List.dropWhile_cons_of_neg hneg,
    hfraction]
  rfl

theorem scan_of_not_literal {c : Char} (cs : List Char) (hdigit : c.isDigit = false)
    (hpoint : c ≠ '.') :
    scan c cs = if isNameStart c then some ⟨.identifier, String.ofList (c :: (nameRest cs).1),
      (nameRest cs).2⟩ else ofMark c cs := by
  rw [scan, literal_scan_eq_none cs hdigit hpoint]

theorem scan_mark {c : Char} (hc : c ∈ ['(', ')', '[', ']', '+', '-', '/', ',']) (cs : List Char) :
    scan c cs = ofMark c cs := by
  have hall : ∀ c ∈ ['(', ')', '[', ']', '+', '-', '/', ','], c.isDigit = false ∧ c ≠ '.' ∧
      isNameStart c = false := by
    rw [← List.all_iff_forall_prop]
    decide
  obtain ⟨hdigit, hpoint, hstart⟩ := hall c hc
  rw [scan_of_not_literal cs hdigit hpoint, hstart, if_neg Bool.false_ne_true]

theorem scan_star {c : Char} (hc : c ≠ '*') (cs : List Char) :
    scan '*' (c :: cs) = some ⟨.star, "*", c :: cs⟩ := by
  rw [scan_of_not_literal _ (by decide) (by decide), if_neg (by decide), ofMark]
  rintro _ ⟨rfl, -⟩
  exact hc rfl

theorem scan_power (cs : List Char) : scan '*' ('*' :: cs) = some ⟨.power, "**", cs⟩ := by
  rw [scan_of_not_literal _ (by decide) (by decide), if_neg (by decide), ofMark]

theorem nameRest_append_of_boundary {cs rest : List Char} (h : nameRest cs = (cs, []))
    (hrest : Boundary rest) : nameRest (cs ++ rest) = (cs, rest) := by
  induction cs using nameRest.induct with
  | case1 =>
      cases rest with
      | nil => rfl
      | cons c rest =>
          obtain ⟨hname, hpoint⟩ := hrest c rfl
          rw [List.nil_append, nameRest]
          · rw [hname, if_neg Bool.false_ne_true]
          · rintro _ _ rfl
            exact absurd rfl hpoint
  | case2 c cs hc ih =>
      rw [nameRest, if_pos hc] at h
      have hcs : nameRest cs = (cs, []) := by
        simp only [Prod.mk.injEq, List.cons.injEq, true_and] at h
        exact Prod.ext h.1 h.2
      rw [List.cons_append, List.cons_append, nameRest, if_pos hc, ih hcs]
  | case3 c cs hc =>
      rw [nameRest, if_neg hc] at h
      cases h
  | case4 c cs hd hc ih =>
      rw [nameRest, if_pos hc] at h
      · have hcs : nameRest cs = (cs, []) := by
          simp only [Prod.mk.injEq, List.cons.injEq, true_and] at h
          exact Prod.ext h.1 h.2
        rw [List.cons_append, nameRest, if_pos hc, ih hcs]
        rintro _ _ rfl
        exact absurd hc (by decide)
      · exact hd
  | case5 c cs hd hc =>
      rw [nameRest, if_neg hc] at h
      · cases h
      · exact hd

def isName (s : String) : Bool :=
  match s.toList with
  | c :: cs => isNameStart c && (nameRest cs).2.isEmpty
  | [] => false

def isIdentifier (s : String) : Bool := isName s && !s.toList.contains '.'

theorem exists_cons_of_isName {s : String} (hs : isName s = true) :
    ∃ c cs, s.toList = c :: cs ∧ isNameStart c = true ∧ nameRest cs = (cs, []) := by
  rw [isName] at hs
  split at hs
  · next c cs hchars =>
    obtain ⟨hstart, hrest⟩ := Bool.and_eq_true_iff.mp hs
    have happend := nameRest_append cs
    rw [List.isEmpty_iff] at hrest
    rw [hrest, List.append_nil] at happend
    exact ⟨c, cs, hchars, hstart, Prod.ext happend hrest⟩
  · cases hs

theorem nameRest_of_all {cs : List Char} (h : ∀ c ∈ cs, isNameChar c = true) :
    nameRest cs = (cs, []) := by
  induction cs with
  | nil => rfl
  | cons c cs ih =>
      have hc := h c List.mem_cons_self
      rw [nameRest, if_pos hc, ih fun d hd => h d (List.mem_cons_of_mem _ hd)]
      rintro _ _ rfl
      exact absurd hc (by decide)

theorem isIdentifier_ofList {c : Char} {cs : List Char} (hstart : isNameStart c = true)
    (h : ∀ d ∈ c :: cs, isNameChar d = true) : isIdentifier (String.ofList (c :: cs)) = true := by
  have hpoint : '.' ∉ c :: cs := fun hmem => absurd (h '.' hmem) (by decide)
  rw [isIdentifier, isName, String.toList_ofList]
  simp only [hstart, nameRest_of_all fun d hd => h d (List.mem_cons_of_mem _ hd), List.isEmpty_nil,
    Bool.and_true, Bool.true_and, Bool.not_eq_true', List.contains_eq_mem, hpoint, decide_false]

end Lexeme

namespace Tokens

variable {c : Char} {cs rest : List Char}

theorem isGraphic_of_isNameChar (h : Lexeme.isNameChar c = true) : Text.IsGraphic c := by
  rcases Bool.or_eq_true_iff.mp h with h | h
  · exact Text.isGraphic_of_isAlphanum h
  · rw [beq_iff_eq.mp h]
    decide

theorem isBlank_eq_false (h : Lexeme.isNameChar c = true) : Text.isBlank c = false :=
  Text.isBlank_of_isGraphic (isGraphic_of_isNameChar h)

theorem isDigit_of_isNameStart (h : Lexeme.isNameStart c = true) :
    c.isDigit = false ∧ c ≠ '.' ∧ Lexeme.isNameChar c = true := by
  rcases Bool.or_eq_true_iff.mp h with halpha | hunderscore
  · refine ⟨Text.isDigit_of_isAlpha halpha, ?_, ?_⟩
    · rintro rfl
      exact absurd halpha (by decide)
    · rw [Lexeme.isNameChar, Char.isAlphanum, halpha, Bool.true_or, Bool.true_or]
  · rw [beq_iff_eq.mp hunderscore]
    decide

theorem scan_name {s : String} (hs : Lexeme.isName s = true) (hrest : Boundary rest)
    (position : Nat) :
    ∃ position', scan position (s.toList ++ rest) =
      (scan position' rest).map (prepend [⟨.identifier, s, position⟩]) := by
  obtain ⟨c, cs, hchars, hstart, hname⟩ := Lexeme.exists_cons_of_isName hs
  obtain ⟨hdigit, hpoint, hchar⟩ := isDigit_of_isNameStart hstart
  have hs : String.ofList (c :: cs) = s := by
    rw [← hchars, String.ofList_toList]
  have hlexeme : Lexeme.scan c (cs ++ rest) = some ⟨.identifier, s, rest⟩ := by
    rw [Lexeme.scan_of_not_literal _ hdigit hpoint, if_pos hstart,
      Lexeme.nameRest_append_of_boundary hname hrest, hs]
  rw [hchars]
  exact scan_lexeme (isBlank_eq_false hchar) hlexeme position

theorem isNameChar_of_isDigit (h : c.isDigit = true) : Lexeme.isNameChar c = true := by
  rw [Lexeme.isNameChar, Char.isAlphanum, h, Bool.or_true, Bool.true_or]

theorem scan_number {l : Decimal.Literal} (hl : l.Plain) (hrest : Boundary rest) (position : Nat) :
    ∃ position', scan position (l.chars ++ rest) =
      (scan position' rest).map (prepend [⟨.number, l.text, position⟩]) := by
  obtain ⟨c, cs, hchars, hdigit⟩ := hl.exists_cons
  have hscan := Decimal.Literal.scan_append hl.wellFormed hrest.ends
  rw [hchars] at hscan ⊢
  have hlexeme : Lexeme.scan c (cs ++ rest) = some ⟨.number, l.text, rest⟩ := by
    rw [List.cons_append] at hscan
    rw [Lexeme.scan, hscan]
    split
    · next h =>
      cases h
      exact absurd (hrest 'j' rfl).1 (by decide)
    · next h => cases h; rfl
    · next h => cases h
  exact scan_lexeme (isBlank_eq_false (isNameChar_of_isDigit hdigit)) hlexeme position

theorem scan_imaginary {l : Decimal.Literal} (hl : l.Plain) (rest : List Char) (position : Nat) :
    ∃ position', scan position (l.chars ++ 'j' :: rest) =
      (scan position' rest).map (prepend [⟨.imaginary, l.text, position⟩]) := by
  obtain ⟨c, cs, hchars, hdigit⟩ := hl.exists_cons
  have hends : Decimal.Literal.Ends ('j' :: rest) := by
    rintro _ ⟨⟩
    decide
  have hscan := Decimal.Literal.scan_append hl.wellFormed hends
  rw [hchars] at hscan ⊢
  have hlexeme : Lexeme.scan c (cs ++ 'j' :: rest) = some ⟨.imaginary, l.text, rest⟩ := by
    rw [List.cons_append] at hscan
    rw [Lexeme.scan, hscan]
    rfl
  exact scan_lexeme (isBlank_eq_false (isNameChar_of_isDigit hdigit)) hlexeme position

end Tokens

namespace Lexeme

theorem isNameChar_or_dot_of_mem_nameRest {c : Char} {cs : List Char} (h : c ∈ (nameRest cs).1) :
    isNameChar c = true ∨ c = '.' := by
  induction cs using nameRest.induct with
  | case1 => cases h
  | case2 d cs hd ih =>
      rw [nameRest, if_pos hd] at h
      rcases List.mem_cons.mp h with rfl | h
      · exact .inr rfl
      · rcases List.mem_cons.mp h with rfl | h
        · exact .inl (Tokens.isDigit_of_isNameStart hd).2.2
        · exact ih h
  | case3 d cs hd =>
      rw [nameRest, if_neg hd] at h
      cases h
  | case4 d cs hdot hd ih =>
      rw [nameRest, if_pos hd] at h
      · rcases List.mem_cons.mp h with rfl | h
        · exact .inl hd
        · exact ih h
      · exact hdot
  | case5 d cs hdot hd =>
      rw [nameRest, if_neg hd] at h
      · cases h
      · exact hdot

theorem isNameChar_of_isIdentifier {s : String} (h : isIdentifier s = true) :
    ∀ c ∈ s.toList, isNameChar c = true := by
  obtain ⟨hname, hdot⟩ := Bool.and_eq_true_iff.mp h
  obtain ⟨d, ds, hchars, hstart, hrest⟩ := exists_cons_of_isName hname
  rw [hchars] at hdot ⊢
  intro c hc
  rcases List.mem_cons.mp hc with rfl | hds
  · exact (Tokens.isDigit_of_isNameStart hstart).2.2
  · have hmem : c ∈ (nameRest ds).1 := by rwa [hrest]
    refine (isNameChar_or_dot_of_mem_nameRest hmem).resolve_right ?_
    rintro rfl
    simp [hc] at hdot

end Lexeme

end Formulary
