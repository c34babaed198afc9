import Formulary.Assumption.Read
import Formulary.Proofs.Decimal.Numeral
import Formulary.Proofs.Text.Blank
import Mathlib

namespace Formulary.Assumptions

def marks : List Char := ['>', '<', '=', '!', '≥', '≤', '≠']

def IsSolid (c : Char) : Prop := Text.isBlank c = false ∧ c ∉ marks

instance : DecidablePred IsSolid :=
  fun c => inferInstanceAs (Decidable (Text.isBlank c = false ∧ c ∉ marks))

def IsGlyph (u : List Char) : Prop :=
  ∃ d ds, u = '\\' :: '[' :: (d :: ds ++ [']']) ∧ ∀ c ∈ d :: ds, c.isAlphanum = true

def IsUnit (kind : Char → Bool) (u : List Char) : Prop := IsGlyph u ∨ ∃ c, u = [c] ∧ kind c = true

/-- A letter, dollar sign, context mark or glyph, then any of these or digits. -/
def IsName (cs : List Char) : Prop :=
  ∃ (u : List Char) (us : List (List Char)), cs = u ++ us.flatten ∧ IsUnit isNameStart u ∧
    ∀ v ∈ us, IsUnit isNameChar v

variable {c : Char} {cs : List Char}

theorem isSolid_of_isAlphanum (h : c.isAlphanum = true) : IsSolid c := by
  refine ⟨Text.isBlank_of_isGraphic (Text.isGraphic_of_isAlphanum h), fun hmem => ?_⟩
  have hall : ∀ d ∈ marks, d.isAlphanum = false := by
    unfold marks
    rw [← List.all_iff_forall_prop]
    decide
  rw [hall c hmem] at h
  cases h

theorem not_mem_marks_of_isBlank (h : Text.isBlank c = true) : c ∉ marks := by
  intro hmem
  have hall : ∀ d ∈ marks, Text.isBlank d = false := by
    unfold marks
    rw [← List.all_iff_forall_prop]
    decide
  rw [hall c hmem] at h
  cases h

theorem isNameChar_cases (h : isNameChar c = true) : c.isAlphanum = true ∨ c = '$' ∨ c = '\x60' := by
  rw [isNameChar, Bool.or_eq_true, Bool.or_eq_true, beq_iff_eq, beq_iff_eq] at h
  exact or_assoc.mp h

theorem isDigit_of_isNameStart (h : isNameStart c = true) : c.isDigit = false := by
  rw [isNameStart, Bool.or_eq_true, Bool.or_eq_true, beq_iff_eq, beq_iff_eq] at h
  rcases h with (halpha | rfl) | rfl
  · exact Text.isDigit_of_isAlpha halpha
  · decide
  · decide

theorem isNameChar_of_isNameStart (h : isNameStart c = true) : isNameChar c = true := by
  rw [isNameStart, Bool.or_eq_true, Bool.or_eq_true] at h
  rw [isNameChar, Bool.or_eq_true, Bool.or_eq_true, Char.isAlphanum, Bool.or_eq_true]
  exact h.imp_left (Or.imp_left .inl)

/-- The rest of a glyph, and of the name after it. -/
theorem isGlyphRest_iff : isGlyphRest cs = true ↔
    ∃ ds rest, cs = ds ++ ']' :: rest ∧ (∀ d ∈ ds, d.isAlphanum = true) ∧ isNameRest rest = true := by
  induction cs with
  | nil =>
      refine ⟨nofun, ?_⟩
      rintro ⟨ds, rest, h, -⟩
      cases ds <;> cases h
  | cons c cs ih =>
      rw [isGlyphRest]
      by_cases hc : c = ']'
      · subst hc
        refine ⟨fun h => ⟨[], cs, rfl, nofun, h⟩, ?_⟩
        rintro ⟨ds, rest, h, hds, hrest⟩
        cases ds with
        | nil =>
            cases h
            exact hrest
        | cons d ds =>
            cases h
            exact absurd (hds _ List.mem_cons_self) (by decide)
      · have hbeq : (c == ']') = false := beq_eq_false_iff_ne.mpr hc
        rw [hbeq, if_neg Bool.false_ne_true, Bool.and_eq_true, ih]
        constructor
        · rintro ⟨halnum, ds, rest, rfl, hds, hrest⟩
          exact ⟨c :: ds, rest, rfl, List.forall_mem_cons.mpr ⟨halnum, hds⟩, hrest⟩
        · rintro ⟨ds, rest, h, hds, hrest⟩
          cases ds with
          | nil => exact absurd (List.cons.inj h).1 hc
          | cons d ds =>
              cases h
              obtain ⟨halnum, hds⟩ := List.forall_mem_cons.mp hds
              exact ⟨halnum, ds, rest, rfl, hds, hrest⟩

theorem isNameRest_cons (h : c ≠ '\\') (cs : List Char) :
    isNameRest (c :: cs) = (isNameChar c && isNameRest cs) := by
  rw [isNameRest]
  rintro _ _ rfl
  exact absurd rfl h

theorem isNameRest_iff : isNameRest cs = true ↔ ∃ us : List (List Char), cs = us.flatten ∧
    ∀ u ∈ us, IsUnit isNameChar u := by
  constructor
  · intro h
    induction hn : cs.length using Nat.strongRecOn generalizing cs with
    | ind n ih =>
        subst hn
        rw [isNameRest.eq_def] at h
        split at h
        · exact ⟨[], rfl, nofun⟩
        · next c cs =>
          obtain ⟨halnum, hglyph⟩ := Bool.and_eq_true_iff.mp h
          obtain ⟨ds, rest, rfl, hds, hrest⟩ := isGlyphRest_iff.mp hglyph
          obtain ⟨us, rfl, hus⟩ := ih rest.length (by simp; omega) hrest rfl
          refine ⟨('\\' :: '[' :: (c :: ds ++ [']'])) :: us,
            by simp, List.forall_mem_cons.mpr ⟨.inl ?_, hus⟩⟩
          exact ⟨c, ds, rfl, List.forall_mem_cons.mpr ⟨halnum, hds⟩⟩
        · next c cs _ =>
          obtain ⟨hc, hrest⟩ := Bool.and_eq_true_iff.mp h
          obtain ⟨us, rfl, hus⟩ := ih cs.length (Nat.lt_succ_self _) hrest rfl
          exact ⟨[c] :: us, rfl, List.forall_mem_cons.mpr ⟨.inr ⟨c, rfl, hc⟩, hus⟩⟩
  · rintro ⟨us, rfl, hus⟩
    induction us with
    | nil => rfl
    | cons u us ih =>
        obtain ⟨hu, hunits⟩ := List.forall_mem_cons.mp hus
        rw [List.flatten_cons]
        rcases hu with ⟨d, ds, rfl, hds⟩ | ⟨c, rfl, hc⟩
        · obtain ⟨hd, hds⟩ := List.forall_mem_cons.mp hds
          change (d.isAlphanum && isGlyphRest (ds ++ [']'] ++ us.flatten)) = true
          rw [hd, Bool.true_and, List.append_assoc]
          exact isGlyphRest_iff.mpr ⟨ds, us.flatten, rfl, hds, ih hunits⟩
        · rw [List.singleton_append, isNameRest_cons, hc, Bool.true_and]
          · exact ih hunits
          · rintro rfl
            exact absurd hc (by decide)

theorem isName_iff : isName cs = true ↔ IsName cs := by
  constructor
  · intro h
    cases cs with
    | nil => cases h
    | cons c cs =>
        obtain ⟨hstart, hrest⟩ := Bool.and_eq_true_iff.mp h
        obtain ⟨us, hus, hunits⟩ := isNameRest_iff.mp hrest
        cases us with
        | nil => cases hus
        | cons u us =>
            obtain ⟨hu, hunits⟩ := List.forall_mem_cons.mp hunits
            refine ⟨u, us, hus, ?_, hunits⟩
            rcases hu with hglyph | ⟨d, rfl, hd⟩
            · exact .inl hglyph
            · obtain rfl : c = d := (List.cons.inj hus).1
              refine .inr ⟨c, rfl, (Bool.or_eq_true_iff.mp hstart).resolve_right fun hbackslash => ?_⟩
              rw [beq_iff_eq.mp hbackslash] at hd
              exact absurd hd (by decide)
  · rintro ⟨u, us, rfl, hu, hus⟩
    have hunits : ∀ v ∈ u :: us, IsUnit isNameChar v :=
      List.forall_mem_cons.mpr ⟨hu.imp_right fun ⟨c, hc, hstart⟩ =>
        ⟨c, hc, isNameChar_of_isNameStart hstart⟩, hus⟩
    have hrest := isNameRest_iff.mpr ⟨u :: us, rfl, hunits⟩
    rw [List.flatten_cons] at hrest
    rcases hu with ⟨d, ds, rfl, -⟩ | ⟨c, rfl, hc⟩
    · exact hrest
    · rw [List.singleton_append] at hrest ⊢
      rw [isName, hc, hrest]
      rfl

theorem IsUnit.forall_chars {P : Char → Prop} {u : List Char} (h : IsUnit isNameChar u)
    (halnum : ∀ c, c.isAlphanum = true → P c) (hother : ∀ c ∈ ['\\', '[', ']', '$', '\x60'], P c) :
    ∀ c ∈ u, P c := by
  rcases h with ⟨d, ds, rfl, hds⟩ | ⟨c, rfl, hc⟩
  · refine List.forall_mem_cons.mpr ⟨hother _ (by decide),
      List.forall_mem_cons.mpr ⟨hother _ (by decide),
      List.forall_mem_append.mpr ⟨fun c hc => halnum c (hds c hc), ?_⟩⟩⟩
    exact List.forall_mem_singleton.mpr (hother _ (by decide))
  · refine List.forall_mem_singleton.mpr ?_
    rcases isNameChar_cases hc with h | rfl | rfl
    · exact halnum c h
    · exact hother _ (by decide)
    · exact hother _ (by decide)

theorem IsName.forall_chars {P : Char → Prop} (h : IsName cs)
    (halnum : ∀ c, c.isAlphanum = true → P c) (hother : ∀ c ∈ ['\\', '[', ']', '$', '\x60'], P c) :
    ∀ c ∈ cs, P c := by
  obtain ⟨u, us, rfl, hu, hus⟩ := h
  have hstart : IsUnit isNameChar u := hu.imp_right fun ⟨c, hc, hstart⟩ =>
    ⟨c, hc, isNameChar_of_isNameStart hstart⟩
  refine List.forall_mem_append.mpr ⟨hstart.forall_chars halnum hother, fun c hc => ?_⟩
  obtain ⟨v, hv, hc⟩ := List.mem_flatten.mp hc
  exact (hus v hv).forall_chars halnum hother c hc

theorem IsName.solid (h : IsName cs) : ∀ c ∈ cs, IsSolid c := by
  refine h.forall_chars (fun _ => isSolid_of_isAlphanum) ?_
  simp only [List.forall_mem_cons]
  exact ⟨by decide, by decide, by decide, by decide, by decide, List.forall_mem_nil _⟩

theorem IsName.exists_cons (h : IsName cs) :
    ∃ c ds, cs = c :: ds ∧ (isNameStart c = true ∨ c = '\\') := by
  obtain ⟨u, us, rfl, ⟨d, ds, rfl, -⟩ | ⟨c, rfl, hc⟩, -⟩ := h
  · exact ⟨'\\', _, rfl, .inr rfl⟩
  · exact ⟨c, _, rfl, .inl hc⟩

structure SignedNumeral where
  sign : Option Char
  literal : Decimal.Literal

namespace SignedNumeral

variable {ν : Type} [Number ν] {n : SignedNumeral} {x : ν}

def chars (n : SignedNumeral) : List Char := n.sign.toList ++ n.literal.chars

structure WellFormed (n : SignedNumeral) : Prop where
  sign : n.sign = none ∨ n.sign = some '+' ∨ n.sign = some '-'
  literal : n.literal.WellFormed

def value (n : SignedNumeral) : ℚ :=
  if n.sign = some '-' then -n.literal.value.toRat else n.literal.value.toRat

def bound (n : SignedNumeral) : ν :=
  if n.sign = some '-' then -Number.ofDecimal n.literal.value else Number.ofDecimal n.literal.value

theorem unsigned?_eq_some_iff : unsigned? cs = some x ↔
    ∃ l : Decimal.Literal, l.WellFormed ∧ l.chars = cs ∧ Number.ofDecimal l.value = x := by
  rw [unsigned?, Option.map_eq_some_iff]
  constructor
  · rintro ⟨d, hd, rfl⟩
    obtain ⟨l, hl, hchars, rfl⟩ := Decimal.Literal.value?_eq_some_iff.mp hd
    exact ⟨l, hl, hchars, rfl⟩
  · rintro ⟨l, hl, hchars, rfl⟩
    exact ⟨l.value, Decimal.Literal.value?_eq_some_iff.mpr ⟨l, hl, hchars, rfl⟩, rfl⟩

/-- A text is read as a number exactly if it is one numeral, and the number is that of the numeral. -/
theorem number?_eq_some_iff :
    number? cs = some x ↔ ∃ n : SignedNumeral, n.WellFormed ∧ n.chars = cs ∧ n.bound = x := by
  constructor
  · intro h
    rw [number?.eq_def] at h
    split at h
    · next cs =>
      obtain ⟨l, hl, rfl, rfl⟩ := unsigned?_eq_some_iff.mp h
      exact ⟨⟨some '+', l⟩, ⟨.inr (.inl rfl), hl⟩, rfl, rfl⟩
    · next cs =>
      obtain ⟨y, hy, rfl⟩ := Option.map_eq_some_iff.mp h
      obtain ⟨l, hl, rfl, rfl⟩ := unsigned?_eq_some_iff.mp hy
      exact ⟨⟨some '-', l⟩, ⟨.inr (.inr rfl), hl⟩, rfl, rfl⟩
    · obtain ⟨l, hl, rfl, rfl⟩ := unsigned?_eq_some_iff.mp h
      exact ⟨⟨none, l⟩, ⟨.inl rfl, hl⟩, rfl, rfl⟩
  · rintro ⟨⟨sign, l⟩, ⟨hsign, hl⟩, rfl, rfl⟩
    have hread : unsigned? l.chars = some (Number.ofDecimal l.value : ν) :=
      unsigned?_eq_some_iff.mpr ⟨l, hl, rfl, rfl⟩
    rcases hsign with rfl | rfl | rfl
    · obtain ⟨c, cs, hcs, hc⟩ := hl.exists_cons
      change number? l.chars = some (Number.ofDecimal l.value)
      rw [hcs] at hread ⊢
      rw [number?, hread]
      all_goals
        rintro _ ⟨⟩
        exact absurd hc (by decide)
    · exact hread
    · exact congrArg (Option.map (-·)) hread

theorem WellFormed.exists_cons (h : n.WellFormed) :
    ∃ c cs, n.chars = c :: cs ∧ (c.isDigit = true ∨ c = '.' ∨ c = '+' ∨ c = '-') := by
  obtain ⟨sign, l⟩ := n
  obtain ⟨c, cs, hcs, hc⟩ := h.literal.exists_cons
  rcases h.sign with hsign | hsign | hsign <;> obtain rfl : sign = _ := hsign
  · exact ⟨c, cs, hcs, hc.imp_right .inl⟩
  · exact ⟨'+', l.chars, rfl, .inr (.inr (.inl rfl))⟩
  · exact ⟨'-', l.chars, rfl, .inr (.inr (.inr rfl))⟩

theorem WellFormed.forall_chars {P : Char → Prop} (h : n.WellFormed)
    (hdigit : ∀ c, c.isDigit = true → P c) (hother : ∀ c ∈ ['.', 'e', 'E', '+', '-'], P c) :
    ∀ c ∈ n.chars, P c := by
  refine List.forall_mem_append.mpr ⟨?_, h.literal.forall_chars hdigit hother⟩
  rcases h.sign with hsign | hsign | hsign <;> rw [hsign]
  · exact List.forall_mem_nil _
  · exact List.forall_mem_singleton.mpr (hother _ (by decide))
  · exact List.forall_mem_singleton.mpr (hother _ (by decide))

theorem WellFormed.solid (h : n.WellFormed) : ∀ c ∈ n.chars, IsSolid c := by
  refine h.forall_chars
    (fun c hc => isSolid_of_isAlphanum (by rw [Char.isAlphanum, hc, Bool.or_true])) ?_
  simp only [List.forall_mem_cons]
  exact ⟨by decide, by decide, by decide, by decide, by decide, List.forall_mem_nil _⟩

end SignedNumeral

theorem IsName.number?_eq_none {ν : Type} [Number ν] (h : IsName cs) :
    (number? cs : Option ν) = none := by
  rw [Option.eq_none_iff_forall_ne_some]
  intro x hx
  obtain ⟨n, hn, rfl, -⟩ := SignedNumeral.number?_eq_some_iff.mp hx
  obtain ⟨c, ds, hcs, hc⟩ := hn.exists_cons
  obtain ⟨c', ds', hcs', hc'⟩ := h.exists_cons
  obtain rfl : c = c' := (List.cons.inj (hcs.symm.trans hcs')).1
  rcases hc with hdigit | rfl | rfl | rfl
  · have hnot : c.isDigit = false := by
      rcases hc' with hstart | rfl
      · exact isDigit_of_isNameStart hstart
      · decide
    rw [hnot] at hdigit
    cases hdigit
  all_goals exact absurd hc' (by decide)

end Formulary.Assumptions
