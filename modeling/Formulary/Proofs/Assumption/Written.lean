import Formulary.Proofs.Assumption.Read
import Formulary.Proofs.Number.Identity
import Mathlib

namespace Formulary

open Assumptions

/-- A symbol with a name that is read as one, and a number with a text of its own: not the zero
whose sign is left out. -/
structure Fact.Writable (f : Fact Float) : Prop where
  subject : ∃ name : String, f.subject = .symbol name ∧ IsName name.toList
  finite : Number.isFinite f.bound = true
  signed : f.bound ≠ -0

namespace Assumptions

inductive Writable : Assumptions Float → Prop where
  | unstated : Writable .unstated
  | stated {facts : List (Fact Float)} (hne : facts ≠ []) (h : ∀ f ∈ facts, f.Writable) :
      Writable (.stated facts)

def joints : List Char := ['&', ',']

structure IsPiece (p : List Char) : Prop where
  nonempty : p ≠ []
  trimmed : Text.Trimmed p
  whole : ∀ c ∈ p, c ∉ joints

section Pieces

variable {c : Char} {cs p : List Char} {ps : List (List Char)}

theorem not_mem_joints (kind : Char → Bool) (hpair : kind '&' = false) (hcomma : kind ',' = false)
    (h : kind c = true) : c ∉ joints := by
  intro hmem
  obtain rfl | rfl : c = '&' ∨ c = ',' := by simpa [joints] using hmem
  · rw [hpair] at h
    cases h
  · rw [hcomma] at h
    cases h

theorem IsName.not_mem_joints (h : IsName cs) : ∀ c ∈ cs, c ∉ joints :=
  h.forall_chars (fun _ => Assumptions.not_mem_joints Char.isAlphanum rfl rfl) (by simp [joints])

theorem SignedNumeral.WellFormed.not_mem_joints {n : SignedNumeral} (h : n.WellFormed) :
    ∀ c ∈ n.chars, c ∉ joints :=
  h.forall_chars (fun _ => Assumptions.not_mem_joints Char.isDigit rfl rfl) (by simp [joints])

theorem Clause.WellFormed.isPiece {c : Clause} (hc : c.WellFormed) : IsPiece c.chars := by
  have hname : c.name ≠ [] := by
    obtain ⟨d, ds, h, -⟩ := hc.name.exists_cons
    exact h ▸ List.cons_ne_nil d ds
  have hnumeral : c.numeral.chars ≠ [] := by
    obtain ⟨d, ds, h, -⟩ := hc.numeral.exists_cons
    exact h ▸ List.cons_ne_nil d ds
  have hleft : c.left ≠ [] ∧ ∀ d ∈ c.left, d ∉ joints := by
    rw [Clause.left]
    split
    · exact ⟨hnumeral, hc.numeral.not_mem_joints⟩
    · exact ⟨hname, hc.name.not_mem_joints⟩
  have hright : c.right ≠ [] ∧ ∀ d ∈ c.right, d ∉ joints := by
    rw [Clause.right]
    split
    · exact ⟨hname, hc.name.not_mem_joints⟩
    · exact ⟨hnumeral, hc.numeral.not_mem_joints⟩
  have hblank {w : List Char} (hw : Text.IsBlank w) : ∀ d ∈ w, d ∉ joints :=
    fun d hd => not_mem_joints Text.isBlank rfl rfl (hw d hd)
  have htoken : ∀ t ∈ tokens, ∀ d ∈ t, d ∉ joints := by simp [tokens, joints]
  refine ⟨?_, ?_, ?_⟩
  · rw [Clause.chars, List.append_assoc, List.append_assoc]
    exact List.append_ne_nil_of_left_ne_nil hleft.1 _
  · have h : Text.Trimmed (c.left ++ (c.before ++ c.token ++ c.after) ++ c.right) :=
      (Text.trimmed_of_forall fun d hd => (hc.left_solid d hd).1).append hleft.1
        (Text.trimmed_of_forall fun d hd => (hc.right_solid d hd).1) hright.1
    simpa only [Clause.chars, List.append_assoc] using h
  · simp only [Clause.chars, List.forall_mem_append]
    exact ⟨⟨⟨hleft.2, hblank hc.before⟩, htoken _ hc.token⟩, hblank hc.after, hright.2⟩

theorem unseparated_append (hcs : ∀ c ∈ cs, c ∉ joints) (hp : Unseparated p) :
    Unseparated (cs ++ p) := by
  induction cs with
  | nil => exact hp
  | cons c cs ih =>
      obtain ⟨hc, hcs⟩ := List.forall_mem_cons.mp hcs
      obtain ⟨hpair, hcomma⟩ : c ≠ '&' ∧ c ≠ ',' := by simpa [joints] using hc
      exact unseparated_cons.mpr ⟨⟨hcomma, fun h => hpair h.1⟩, ih hcs⟩

theorem nonblank_cons (p : List Char) (ps : List (List Char)) :
    nonblank (p :: ps) = if Text.trim p = [] then nonblank ps else Text.trim p :: nonblank ps := by
  rw [nonblank, List.map_cons, List.filter_cons]
  by_cases h : Text.trim p = []
  · simp [h, nonblank]
  · simp [h, nonblank]

theorem nonblank_pieces_blank (cs : List Char) :
    nonblank (pieces (' ' :: cs)) = nonblank (pieces cs) := by
  cases hcs : pieces cs with
  | nil =>
      have h := splits_pieces cs
      rw [hcs] at h
      cases h
  | cons p ps =>
      have htrim : Text.trim (' ' :: p) = Text.trim p := rfl
      rw [pieces_cons ⟨by decide, fun h => absurd h.1 (by decide)⟩ hcs, nonblank_cons,
        nonblank_cons, htrim]

theorem nonblank_pieces_intercalate (hne : ps ≠ []) (hps : ∀ p ∈ ps, IsPiece p) :
    nonblank (pieces ([' ', '&', '&', ' '].intercalate ps)) = ps := by
  induction ps with
  | nil => exact absurd rfl hne
  | cons p ps ih =>
      obtain ⟨hp, hps⟩ := List.forall_mem_cons.mp hps
      cases ps with
      | nil =>
          have hlast := unseparated_append (p := []) hp.whole (by decide)
          rw [List.append_nil] at hlast
          rw [List.intercalate_singleton, pieces_of_unseparated hlast, nonblank_cons,
            hp.trimmed.trim_eq, if_neg hp.nonempty]
          rfl
      | cons p' ps =>
          generalize hrest : [' ', '&', '&', ' '].intercalate (p' :: ps) = rest at ih
          -- The blank before the separator stays with this piece, and the one after it with the next.
          have hsplit : p ++ [' ', '&', '&', ' '] ++ rest = p ++ [' '] ++ ['&', '&'] ++
              ' ' :: rest := by simp
          have hfirst : Unseparated (p ++ [' '] ++ ['&', '&'].dropLast) := by
            rw [List.append_assoc]
            exact unseparated_append hp.whole (by decide)
          have htrim : Text.trim (p ++ [' ']) = p :=
            hp.trimmed.trim_append (List.forall_mem_singleton.mpr rfl)
          rw [List.intercalate_cons_cons, hrest, hsplit, pieces_append (by decide) hfirst,
            nonblank_cons, htrim, if_neg hp.nonempty, nonblank_pieces_blank,
            ih (List.cons_ne_nil _ _) hps]

theorem trimmed_intercalate (hne : ps ≠ []) (hps : ∀ p ∈ ps, IsPiece p) :
    Text.Trimmed ([' ', '&', '&', ' '].intercalate ps) ∧
    [' ', '&', '&', ' '].intercalate ps ≠ [] := by
  induction ps with
  | nil => exact absurd rfl hne
  | cons p ps ih =>
      obtain ⟨hp, hps⟩ := List.forall_mem_cons.mp hps
      cases ps with
      | nil =>
          rw [List.intercalate_singleton]
          exact ⟨hp.trimmed, hp.nonempty⟩
      | cons p' ps =>
          obtain ⟨htrimmed, hrest⟩ := ih (List.cons_ne_nil _ _) hps
          rw [List.intercalate_cons_cons]
          exact ⟨hp.trimmed.append hp.nonempty htrimmed hrest,
            List.append_ne_nil_of_right_ne_nil _ hrest⟩

end Pieces

/-- A number is written as one numeral, and that is read as the number. -/
theorem SignedNumeral.exists_text {x : Float} (hfinite : Number.isFinite x = true)
    (hsigned : x ≠ -0) :
    ∃ n : SignedNumeral, n.WellFormed ∧ n.chars = (Number.text x).toList ∧ n.bound = x := by
  obtain ⟨q, hx⟩ := Option.isSome_iff_exists.mp hfinite
  obtain ⟨l, hl, hchars, hvalue⟩ := Decimal.Layout.plain.exists_literal (Number.decimal x)
  have hmagnitude : Number.toRat? (Number.ofDecimal l.value : Float) = some |q| :=
    Double.toRat?_ofDecimal_of_eq hx hvalue
  rw [toList_text hx, ← hchars]
  by_cases hneg : q < 0
  · refine ⟨⟨some '-', l⟩, ⟨.inr (.inr rfl), hl.wellFormed⟩, by rw [if_pos hneg]; rfl, ?_⟩
    rw [bound, if_pos rfl]
    refine Double.eq_of_toRat? ?_ hx hneg.ne
    rw [RationalNumber.toRat?_neg, hmagnitude, Option.map_some, abs_of_neg hneg, neg_neg]
  · refine ⟨⟨none, l⟩, ⟨.inl rfl, hl.wellFormed⟩, by rw [if_neg hneg]; rfl, ?_⟩
    rw [bound, if_neg (Option.some_ne_none '-').symm]
    -- Both zeros have this rational, and only one of them has a text of its own.
    by_cases hzero : q = 0
    · subst hzero
      obtain rfl : x = 0 := (Double.eq_zero_or_eq_neg_zero hx).resolve_right hsigned
      have hread : Double.ofDecimal (Number.decimal (0 : Float)) = 0 := by decide +kernel
      exact (Double.ofDecimal_congr hvalue).trans hread
    · exact Double.eq_of_toRat? (hmagnitude.trans (by rw [abs_of_nonneg (not_lt.mp hneg)])) hx hzero

theorem mem_relationTokens (r : Relation) : (r.symbol.toList, r) ∈ relationTokens := by
  cases r <;> decide

end Assumptions

theorem Fact.Writable.readClause_text {f : Fact Float} (hf : f.Writable) :
    IsPiece f.text.toList ∧ readClause f.text.toList = .ok f := by
  obtain ⟨subject, r, x⟩ := f
  obtain ⟨⟨name, rfl, hname⟩, hfinite, hsigned⟩ := hf
  obtain ⟨n, hn, hchars, rfl⟩ := SignedNumeral.exists_text hfinite hsigned
  let c : Clause := ⟨name.toList, n, false, [' '], r.symbol.toList, [' ']⟩
  have hr : (c.token, r) ∈ relationTokens := mem_relationTokens r
  have hblank : Text.IsBlank [' '] := List.forall_mem_singleton.mpr rfl
  have hc : c.WellFormed :=
    ⟨hname, hn, hblank, by rw [tokens_eq]; exact List.mem_map_of_mem hr, hblank⟩
  have hfact : c.fact r = (⟨.symbol name, r, n.bound⟩ : Fact Float) := by
    simp [c, Clause.fact]
  have htext : (c.fact r : Fact Float).text.toList = c.chars := by
    simp [c, Clause.fact, Clause.chars, Clause.left, Clause.right, Fact.text, hchars, Expr.text,
      Expr.display]
  rw [← hfact, htext, hc.readClause_eq hr]
  exact ⟨hc.isPiece, rfl⟩

namespace Assumptions

/-- Assumptions that can be written are read again from their text. -/
theorem read_written {a : Assumptions Float} (ha : a.Writable) : read a.text = .ok a := by
  cases ha with
  | unstated => rfl
  | @stated facts hne h =>
      generalize hps : facts.map (·.text.toList) = ps
      have htext : (text (.stated facts)).toList = [' ', '&', '&', ' '].intercalate ps := by
        rw [← hps, text, String.toList_intercalate, List.map_map]
        rfl
      have hne' : ps ≠ [] := by
        rw [← hps, ne_eq, List.map_eq_nil_iff]
        exact hne
      have hpiece : ∀ p ∈ ps, IsPiece p := by
        rw [← hps, List.forall_mem_map]
        exact fun f hf => (h f hf).readClause_text.1
      have hfacts : ps.mapM readClause = .ok facts := by
        rw [← hps]
        exact mapM_of_forall₂ (List.forall₂_map_left_iff.mpr (List.forall₂_same.mpr fun f hf =>
          (h f hf).readClause_text.2))
      have hpieces := nonblank_pieces_intercalate hne' hpiece
      obtain ⟨htrimmed, hempty⟩ := trimmed_intercalate hne' hpiece
      have htrim := htrimmed.trim_eq
      rw [← htext] at hpieces hempty htrim
      have htrue : (text (.stated facts)).toList ≠ ['T', 'r', 'u', 'e'] := by
        intro htrue
        rw [htrue] at hpieces
        have hone : nonblank (pieces ['T', 'r', 'u', 'e']) = [['T', 'r', 'u', 'e']] := rfl
        have hnone : [['T', 'r', 'u', 'e']].mapM (readClause (ν := Float)) =
            .error (.noRelation "True") := rfl
        rw [← hpieces, hone, hnone] at hfacts
        cases hfacts
      rw [read_eq (by rwa [htrim]) (by rwa [htrim]), htrim, hpieces, hfacts]
      rfl

theorem read_written_glyph :
    let a : Assumptions Float :=
      .stated [⟨.symbol "\\[Alpha]", .ge, -1.5e-10⟩, ⟨.symbol "True$e", .ne, 0⟩]
    a.text = "\\[Alpha] >= -1.5e-10 && True$e != 0" ∧ a.Writable ∧ read a.text = .ok a := by
  intro a
  have htext : a.text = "\\[Alpha] >= -1.5e-10 && True$e != 0" := by decide +kernel
  have hname (name : String) (h : isName name.toList = true) :
      ∃ n : String, (.symbol name : Expr Float) = .symbol n ∧ IsName n.toList :=
    ⟨name, rfl, isName_iff.mp h⟩
  have hsmall : (-1.5e-10 : Float) ≠ -0 := by
    intro h
    have hzero : Number.isZero (-1.5e-10 : Float) = Number.isZero (-0 : Float) := congrArg _ h
    exact absurd hzero (by decide +kernel)
  have hunsigned : (0 : Float) ≠ -0 := by
    intro h
    have hsign : Number.signBit (0 : Float) = Number.signBit (-0 : Float) := congrArg _ h
    exact absurd hsign (by decide +kernel)
  have ha : a.Writable := by
    refine .stated (List.cons_ne_nil _ _)
      (List.forall_mem_cons.mpr ⟨?_, List.forall_mem_singleton.mpr ?_⟩)
    · exact ⟨hname "\\[Alpha]" rfl, by decide +kernel, hsmall⟩
    · exact ⟨hname "True$e" rfl, by decide +kernel, hunsigned⟩
  exact ⟨htext, ha, read_written ha⟩

end Assumptions

end Formulary
