import Formulary.Proofs.Code.Token

namespace Formulary

def TokenKind.source (k : TokenKind) (text : String) : List Char :=
  if k = .imaginary then text.toList ++ ['j'] else text.toList

theorem TokenKind.source_eq_toList {k : TokenKind} (hk : k ≠ .imaginary) (text : String) :
    k.source text = text.toList := if_neg hk

namespace Lexeme

def IsPart (cs : List Char) : Prop :=
  ∃ c ds, cs = c :: ds ∧ isNameStart c = true ∧ ∀ d ∈ ds, isNameChar d = true

def marks : List (TokenKind × String) :=
  [(.leftParen, "("), (.rightParen, ")"), (.leftBracket, "["), (.rightBracket, "]"), (.plus, "+"),
    (.minus, "-"), (.star, "*"), (.power, "**"), (.slash, "/"), (.comma, ",")]

inductive Written : TokenKind → List Char → Prop where
  | number {l : Decimal.Literal} (hl : l.WellFormed) : Written .number l.chars
  | imaginary {l : Decimal.Literal} (hl : l.WellFormed) : Written .imaginary (l.chars ++ ['j'])
  | identifier {p : List Char} {ps : List (List Char)} (hp : IsPart p) (hps : ∀ q ∈ ps, IsPart q) :
      Written .identifier (p ++ ps.flatMap ('.' :: ·))
  | mark {k : TokenKind} {s : String} (h : (k, s) ∈ marks) : Written k s.toList

variable {k : TokenKind} {s cs rest : List Char} {c : Char} {l : Lexeme}

theorem exists_parts_nameRest (cs : List Char) :
    ∃ (ds : List Char) (ps : List (List Char)), (nameRest cs).1 = ds ++ ps.flatMap ('.' :: ·) ∧
      (∀ d ∈ ds, isNameChar d = true) ∧ ∀ p ∈ ps, IsPart p := by
  induction cs using nameRest.induct with
  | case1 => exact ⟨[], [], rfl, List.forall_mem_nil _, List.forall_mem_nil _⟩
  | case2 d cs hd ih =>
      obtain ⟨ds, ps, heq, hds, hps⟩ := ih
      refine ⟨[], (d :: ds) :: ps, ?_, List.forall_mem_nil _,
        List.forall_mem_cons.mpr ⟨⟨d, ds, rfl, hd, hds⟩, hps⟩⟩
      rw [nameRest, if_pos hd, heq]
      rfl
  | case3 d cs hd =>
      refine ⟨[], [], ?_, List.forall_mem_nil _, List.forall_mem_nil _⟩
      rw [nameRest, if_neg hd]
      rfl
  | case4 d cs hdot hd ih =>
      obtain ⟨ds, ps, heq, hds, hps⟩ := ih
      refine ⟨d :: ds, ps, ?_, List.forall_mem_cons.mpr ⟨hd, hds⟩, hps⟩
      rw [nameRest, if_pos hd, heq]
      · rfl
      · exact hdot
  | case5 d cs hdot hd =>
      refine ⟨[], [], ?_, List.forall_mem_nil _, List.forall_mem_nil _⟩
      rw [nameRest, if_neg hd]
      · rfl
      · exact hdot

theorem nameRest_cons (h : isNameChar c = true) (cs : List Char) :
    nameRest (c :: cs) = (c :: (nameRest cs).1, (nameRest cs).2) := by
  rw [nameRest, if_pos h]
  rintro _ _ rfl
  exact absurd h (by decide)

/-- Name characters and further parts are taken, whatever follows. -/
theorem nameRest_rest {ds : List Char} {ps : List (List Char)} (hds : ∀ d ∈ ds, isNameChar d = true)
    (hps : ∀ p ∈ ps, IsPart p) (rest : List Char) :
    (nameRest (ds ++ (ps.flatMap ('.' :: ·) ++ rest))).2 = (nameRest rest).2 := by
  have hchars (ds : List Char) (hds : ∀ d ∈ ds, isNameChar d = true) (cs : List Char) :
      (nameRest (ds ++ cs)).2 = (nameRest cs).2 := by
    induction ds with
    | nil => rfl
    | cons d ds ih =>
        rw [List.cons_append, nameRest_cons (hds d List.mem_cons_self)]
        exact ih fun e he => hds e (List.mem_cons_of_mem d he)
  rw [hchars ds hds]
  induction ps with
  | nil => rfl
  | cons p ps ih =>
      obtain ⟨c, es, rfl, hc, hes⟩ := hps p List.mem_cons_self
      rw [List.flatMap_cons, List.append_assoc, List.cons_append, List.cons_append, nameRest,
        if_pos hc]
      exact (hchars es hes _).trans (ih fun q hq => hps q (List.mem_cons_of_mem _ hq))

theorem ne_imaginary_of_mark {k : TokenKind} {s : String} (h : (k, s) ∈ marks) : k ≠ .imaginary := by
  have hall : ∀ p ∈ marks, p.1 ≠ .imaginary := by decide
  exact hall (k, s) h

theorem written_mark {s : String} (h : (k, s) ∈ marks) : Written k (k.source s) := by
  rw [TokenKind.source_eq_toList (ne_imaginary_of_mark h)]
  exact .mark h

theorem ofMark_mem (h : ofMark c cs = some l) :
    (l.kind, l.text) ∈ marks ∧ l.text.toList ++ l.rest = c :: cs := by
  unfold ofMark at h
  split at h
  all_goals cases h
  all_goals exact ⟨by simp [marks], by simp⟩

theorem scan_written (h : scan c cs = some l) :
    Written l.kind (l.kind.source l.text) ∧ l.kind.source l.text ++ l.rest = c :: cs := by
  have htext (l : Decimal.Literal) : l.text.toList = l.chars := String.toList_ofList
  unfold scan at h
  split at h
  · next l' rest hscan =>
    cases h
    have hchars := Decimal.Literal.scan_chars hscan
    have hl := Decimal.Literal.scan_wellFormed hscan
    simp only [TokenKind.source, if_true, htext]
    exact ⟨.imaginary hl, by rw [List.append_assoc]; exact hchars⟩
  · next l' rest hscan =>
    cases h
    simp only [TokenKind.source_eq_toList (k := .number) nofun, htext]
    exact ⟨.number (Decimal.Literal.scan_wellFormed hscan), Decimal.Literal.scan_chars hscan⟩
  · split at h
    · next hstart =>
      cases h
      obtain ⟨ds, ps, heq, hds, hps⟩ := exists_parts_nameRest cs
      simp only [TokenKind.source_eq_toList (k := .identifier) nofun, String.toList_ofList]
      refine ⟨?_, congrArg (c :: ·) (nameRest_append cs)⟩
      rw [heq]
      exact .identifier (p := c :: ds) ⟨c, ds, rfl, hstart, hds⟩ hps
    · obtain ⟨hmark, hchars⟩ := ofMark_mem h
      exact ⟨written_mark hmark, by rwa [TokenKind.source_eq_toList (ne_imaginary_of_mark hmark)]⟩

theorem scan_identifier {p : List Char} {ps : List (List Char)} (hp : IsPart p)
    (hps : ∀ q ∈ ps, IsPart q) (h : p ++ (ps.flatMap ('.' :: ·) ++ rest) = c :: cs) :
    ∃ l, scan c cs = some l ∧ l.kind = .identifier ∧ l.rest = (nameRest rest).2 := by
  obtain ⟨d, ds, rfl, hstart, hds⟩ := hp
  cases h
  obtain ⟨hdigit, hpoint, -⟩ := Tokens.isDigit_of_isNameStart hstart
  refine ⟨_, by rw [scan_of_not_literal _ hdigit hpoint, if_pos hstart], rfl, ?_⟩
  exact nameRest_rest hds hps rest

theorem scan_mark_longest {s : String} (h : (k, s) ∈ marks) (hs : s.toList ++ rest = c :: cs) :
    ∃ l, scan c cs = some l ∧ (l.rest.length < rest.length ∨ l.kind = k ∧ l.rest = rest) := by
  have single {d : Char} (hd : d ∈ ['(', ')', '[', ']', '+', '-', '/', ',']) {k : TokenKind}
      {s : String} (hmark : ofMark d rest = some ⟨k, s, rest⟩) :
      ∃ l, scan d rest = some l ∧ (l.rest.length < rest.length ∨ l.kind = k ∧ l.rest = rest) :=
    ⟨_, (scan_mark hd rest).trans hmark, .inr ⟨rfl, rfl⟩⟩
  simp only [marks, List.mem_cons, List.not_mem_nil, or_false, Prod.mk.injEq] at h
  rcases h with ⟨rfl, rfl⟩ | ⟨rfl, rfl⟩ | ⟨rfl, rfl⟩ | ⟨rfl, rfl⟩ | ⟨rfl, rfl⟩ | ⟨rfl, rfl⟩
    | ⟨rfl, rfl⟩ | ⟨rfl, rfl⟩ | ⟨rfl, rfl⟩ | ⟨rfl, rfl⟩
  case inr.inr.inr.inr.inr.inr.inl =>
    cases hs
    by_cases hpower : ∃ rest', rest = '*' :: rest'
    · obtain ⟨rest', rfl⟩ := hpower
      exact ⟨_, scan_power rest', .inl (Nat.lt_succ_self _)⟩
    · refine ⟨⟨.star, "*", rest⟩, ?_, .inr ⟨rfl, rfl⟩⟩
      cases rest with
      | nil => rfl
      | cons d rest =>
          apply scan_star
          rintro rfl
          exact hpower ⟨rest, rfl⟩
  case inr.inr.inr.inr.inr.inr.inr.inl =>
    cases hs
    exact ⟨_, scan_power rest, .inr ⟨rfl, rfl⟩⟩
  all_goals
    cases hs
    exact single (by decide) rfl

/-- Where the text of a token stands in front, a token is found, and one that takes no more than
this is this one. -/
theorem scan_longest (hs : Written k s) (h : s ++ rest = c :: cs) :
    ∃ l, scan c cs = some l ∧ (l.rest.length < rest.length ∨ l.kind = k ∧ l.rest = rest) := by
  cases hs with
  | mark hmark => exact scan_mark_longest hmark h
  | @identifier p ps hp hps =>
      rw [List.append_assoc] at h
      obtain ⟨l, hscan, hkind, hrest⟩ := scan_identifier hp hps h
      refine ⟨l, hscan, ?_⟩
      rw [hrest]
      by_cases hlt : (nameRest rest).2.length < rest.length
      · exact .inl hlt
      · have happend := nameRest_append rest
        have hlength := congrArg List.length happend
        rw [List.length_append] at hlength
        have hnil : (nameRest rest).1 = [] := List.length_eq_zero_iff.mp (by omega)
        rw [hnil] at happend
        exact .inr ⟨hkind, happend⟩
  | @imaginary l hl =>
      have hends : Decimal.Literal.Ends ('j' :: rest) := by
        rintro _ ⟨⟩
        decide
      have hscan := Decimal.Literal.scan_append hl hends
      rw [List.append_assoc] at h
      change l.chars ++ 'j' :: rest = c :: cs at h
      rw [h] at hscan
      exact ⟨⟨.imaginary, l.text, rest⟩, by rw [scan, hscan]; rfl, .inr ⟨rfl, rfl⟩⟩
  | @number l hl =>
      obtain ⟨l', rest', hscan, hle⟩ := Decimal.Literal.scan_longest hl rest
      have hchars := Decimal.Literal.scan_chars hscan
      rw [h] at hscan
      rw [scan, hscan]
      split
      · next hsome =>
        cases hsome
        exact ⟨_, rfl, .inl hle⟩
      · next hsome =>
        cases hsome
        refine ⟨_, rfl, ?_⟩
        by_cases hlt : rest'.length < rest.length
        · exact .inl hlt
        · exact .inr ⟨rfl, (List.append_inj' hchars (by omega)).2⟩
      · next hnone => cases hnone

theorem Written.ne_nil (h : Written k s) : s ≠ [] := by
  cases h with
  | number hl =>
      obtain ⟨c, cs, hchars, -⟩ := hl.exists_cons
      rw [hchars]
      exact List.cons_ne_nil c cs
  | imaginary => exact List.append_ne_nil_of_right_ne_nil _ (List.cons_ne_nil _ _)
  | identifier hp =>
      obtain ⟨c, ds, rfl, -⟩ := hp
      exact List.cons_ne_nil _ _
  | @mark k s h =>
      have hall : ∀ p ∈ marks, p.2.toList ≠ [] := by simp [marks]
      exact hall (k, s) h

theorem IsPart.graphic {p : List Char} (hp : IsPart p) : ∀ c ∈ p, Text.IsGraphic c := by
  obtain ⟨c, ds, rfl, hc, hds⟩ := hp
  exact List.forall_mem_cons.mpr
    ⟨Tokens.isGraphic_of_isNameChar (Tokens.isDigit_of_isNameStart hc).2.2,
    fun d hd => Tokens.isGraphic_of_isNameChar (hds d hd)⟩

theorem graphic_chars {l : Decimal.Literal} (hl : l.WellFormed) :
    ∀ c ∈ l.chars, Text.IsGraphic c := by
  refine hl.forall_chars
    (fun c hc => Tokens.isGraphic_of_isNameChar (Tokens.isNameChar_of_isDigit hc)) ?_
  rw [← List.all_iff_forall_prop]
  decide

theorem Written.graphic (h : Written k s) : ∀ c ∈ s, Text.IsGraphic c := by
  cases h with
  | number hl => exact graphic_chars hl
  | imaginary hl =>
    exact List.forall_mem_append.mpr ⟨graphic_chars hl, List.forall_mem_singleton.mpr (by decide)⟩
  | identifier hp hps =>
      refine List.forall_mem_append.mpr ⟨hp.graphic, ?_⟩
      intro c hc
      obtain ⟨q, hq, hc⟩ := List.mem_flatMap.mp hc
      rcases List.mem_cons.mp hc with rfl | hc
      · decide
      · exact (hps q hq).graphic c hc
  | @mark k s h =>
      have hall : ∀ p ∈ marks, ∀ c ∈ p.2.toList, Text.IsGraphic c := by simp [marks, Text.IsGraphic]
      exact hall (k, s) h

end Lexeme

end Formulary
