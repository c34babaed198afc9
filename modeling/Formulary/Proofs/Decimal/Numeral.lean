import Formulary.Decimal.Literal
import Mathlib

namespace Formulary.Decimal

theorem takeWhile_append {p : Char → Bool} {ds rest : List Char} (hds : ∀ c ∈ ds, p c = true)
    (hrest : ∀ c ∈ rest.head?, p c = false) :
    (ds ++ rest).takeWhile p = ds ∧ (ds ++ rest).dropWhile p = rest := by
  rw [List.takeWhile_append_of_pos hds, List.dropWhile_append_of_pos hds]
  cases rest with
  | nil => exact ⟨List.append_nil ds, rfl⟩
  | cons c cs =>
      have hc := hrest c rfl
      rw [List.takeWhile_cons_of_neg (by rw [hc]; decide),
        List.dropWhile_cons_of_neg (by rw [hc]; decide), List.append_nil]
      exact ⟨rfl, rfl⟩

structure Exponent.WellFormed (e : Exponent) : Prop where
  mark : e.mark = 'e' ∨ e.mark = 'E'
  sign : e.sign = none ∨ e.sign = some '+' ∨ e.sign = some '-'
  digits : ∀ c ∈ e.digits, c.isDigit = true
  nonempty : e.digits ≠ []

structure Literal.WellFormed (l : Literal) : Prop where
  whole : ∀ c ∈ l.whole, c.isDigit = true
  fraction : ∀ ds ∈ l.fraction, ∀ c ∈ ds, c.isDigit = true
  nonempty : ¬ (l.whole = [] ∧ l.fraction.getD [] = [])
  exponent : ∀ e ∈ l.exponent, e.WellFormed

/-- No character that could belong to a numeral stands in front. -/
def Literal.Ends (rest : List Char) : Prop :=
  ∀ c ∈ rest.head?, c.isDigit = false ∧ c ≠ '.' ∧ c ≠ 'e' ∧ c ≠ 'E'

namespace Exponent

variable {e : Exponent} {cs rest : List Char}

theorem WellFormed.head (he : e.WellFormed) (rest : List Char) :
    ∀ c ∈ (e.chars ++ rest).head?, c.isDigit = false ∧ c ≠ '.' := by
  intro c hc
  obtain rfl : e.mark = c := Option.some.inj hc
  rcases he.mark with h | h <;> rw [h] <;> decide

/-- The mark and the sign are read off, whatever follows the digits. -/
theorem WellFormed.scan_eq (he : e.WellFormed) (rest : List Char) :
    scan (e.chars ++ rest) = scanDigits e.mark e.sign (e.digits ++ rest) := by
  obtain ⟨mark, sign, digits⟩ := e
  obtain ⟨hmark, hsign, hdigits, hne⟩ := he
  obtain ⟨d, ds, rfl⟩ := List.exists_cons_of_ne_nil hne
  have hd : d.isDigit = true := hdigits d List.mem_cons_self
  have hunsigned : scan (mark :: (d :: ds ++ rest)) = scanDigits mark none (d :: ds ++ rest) := by
    rw [scan, if_pos hmark]
    all_goals
      rintro _ ⟨⟩
      exact absurd hd (by decide)
  rcases hsign with rfl | rfl | rfl
  · exact hunsigned
  · exact if_pos hmark
  · exact if_pos hmark

theorem scan_append (he : e.WellFormed) (hrest : ∀ c ∈ rest.head?, c.isDigit = false) :
    scan (e.chars ++ rest) = some (e, rest) := by
  obtain ⟨htake, hdrop⟩ := takeWhile_append he.digits hrest
  rw [he.scan_eq, scanDigits, htake, hdrop, if_neg (by simpa using he.nonempty)]

theorem scan_of_ends (hrest : Literal.Ends rest) : scan rest = none := by
  cases rest with
  | nil => rfl
  | cons c cs =>
      have hc := hrest c rfl
      simp [scan, hc.2.2]

theorem scanDigits_wellFormed {mark : Char} {sign : Option Char} (hmark : mark = 'e' ∨ mark = 'E')
    (hsign : sign = none ∨ sign = some '+' ∨ sign = some '-')
    (h : scanDigits mark sign cs = some (e, rest)) : e.WellFormed := by
  unfold scanDigits at h
  split at h
  · cases h
  · next hne =>
    cases h
    exact ⟨hmark, hsign, fun _ hc => List.mem_takeWhile_imp hc, by simpa using hne⟩

theorem scan_wellFormed (h : scan cs = some (e, rest)) : e.WellFormed := by
  unfold scan at h
  split at h
  · cases h
  · split at h
    · next hmark =>
      split at h
      · exact scanDigits_wellFormed hmark (.inr (.inl rfl)) h
      · exact scanDigits_wellFormed hmark (.inr (.inr rfl)) h
      · exact scanDigits_wellFormed hmark (.inl rfl) h
    · cases h

end Exponent

namespace Literal

variable {l : Literal} {cs rest : List Char}

theorem ends_nil : Ends [] := by
  intro c hc
  cases hc

theorem WellFormed.forall_chars {P : Char → Prop} (hl : l.WellFormed)
    (hdigit : ∀ c, c.isDigit = true → P c) (hother : ∀ c ∈ ['.', 'e', 'E', '+', '-'], P c) :
    ∀ c ∈ l.chars, P c := by
  obtain ⟨whole, fraction, exponent⟩ := l
  obtain ⟨hwhole, hfraction, -, hexponent⟩ := hl
  refine List.forall_mem_append.mpr
    ⟨List.forall_mem_append.mpr ⟨fun c hc => hdigit c (hwhole c hc), ?_⟩, ?_⟩
  · cases fraction with
    | none => exact nofun
    | some ds =>
      exact List.forall_mem_cons.mpr ⟨hother '.' (by decide),
        fun c hc => hdigit c (hfraction ds rfl c hc)⟩
  · cases exponent with
    | none => exact nofun
    | some e =>
        obtain ⟨hmark, hsign, hdigits, -⟩ := hexponent e rfl
        refine List.forall_mem_cons.mpr ⟨?_,
          List.forall_mem_append.mpr ⟨?_, fun c hc => hdigit c (hdigits c hc)⟩⟩
        · rcases hmark with h | h <;> rw [h] <;> exact hother _ (by decide)
        · rcases hsign with h | h | h <;> rw [h]
          · exact nofun
          · exact List.forall_mem_singleton.mpr (hother '+' (by decide))
          · exact List.forall_mem_singleton.mpr (hother '-' (by decide))

theorem WellFormed.exists_cons (hl : l.WellFormed) :
    ∃ c cs, l.chars = c :: cs ∧ (c.isDigit = true ∨ c = '.') := by
  obtain ⟨whole, fraction, exponent⟩ := l
  obtain ⟨hwhole, -, hne, -⟩ := hl
  cases whole with
  | cons c cs => exact ⟨c, _, rfl, .inl (hwhole c List.mem_cons_self)⟩
  | nil =>
      cases fraction with
      | none => exact absurd ⟨rfl, rfl⟩ hne
      | some ds => exact ⟨'.', _, rfl, .inr rfl⟩

theorem scanFraction_append {fraction : Option (List Char)}
    (hf : ∀ ds ∈ fraction, ∀ c ∈ ds, c.isDigit = true) {tail : List Char}
    (htail : ∀ c ∈ tail.head?, c.isDigit = false ∧ c ≠ '.') :
    scanFraction (fractionChars fraction ++ tail) = (fraction, tail) := by
  cases fraction with
  | some ds =>
      obtain ⟨htake, hdrop⟩ := takeWhile_append (hf ds rfl) fun c hc => (htail c hc).1
      change scanFraction ('.' :: (ds ++ tail)) = _
      rw [scanFraction, htake, hdrop]
  | none =>
      cases tail with
      | nil => rfl
      | cons c cs =>
          rw [fractionChars, List.nil_append, scanFraction]
          rintro _ ⟨rfl, -⟩
          exact (htail '.' rfl).2 rfl

theorem fraction_head (fraction : Option (List Char)) {tail : List Char}
    (htail : ∀ c ∈ tail.head?, c.isDigit = false) :
    ∀ c ∈ (fractionChars fraction ++ tail).head?, c.isDigit = false := by
  cases fraction with
  | none => exact htail
  | some ds =>
      intro c hc
      obtain rfl : '.' = c := Option.some.inj hc
      decide

theorem scan_append (hl : l.WellFormed) (hrest : Ends rest) :
    scan (l.chars ++ rest) = some (l, rest) := by
  obtain ⟨whole, fraction, exponent⟩ := l
  obtain ⟨hwhole, hfraction, hne, hexponent⟩ := hl
  have htail : ∀ c ∈ (exponentChars exponent ++ rest).head?, c.isDigit = false ∧ c ≠ '.' := by
    cases exponent with
    | none => exact fun c hc => ⟨(hrest c hc).1, (hrest c hc).2.1⟩
    | some e => exact (hexponent e rfl).head rest
  obtain ⟨htake, hdrop⟩ := takeWhile_append hwhole (fraction_head fraction fun c hc => (htail c hc).1)
  simp only [scan, chars, List.append_assoc, htake, hdrop, scanFraction_append hfraction htail]
  rw [if_neg (by simpa using hne)]
  cases exponent with
  | none => rw [exponentChars, List.nil_append, Exponent.scan_of_ends hrest]
  | some e => rw [exponentChars, Exponent.scan_append (hexponent e rfl) fun c hc => (hrest c hc).1]

theorem scanFraction_digits (cs : List Char) :
    ∀ ds ∈ (scanFraction cs).1, ∀ c ∈ ds, c.isDigit = true := by
  fun_cases scanFraction cs with
  | case1 cs =>
      intro ds hds c hc
      obtain rfl := Option.some.inj hds
      exact List.mem_takeWhile_imp hc
  | case2 =>
      intro ds hds
      cases hds

theorem scan_wellFormed (h : scan cs = some (l, rest)) : l.WellFormed := by
  have hwhole : ∀ c ∈ cs.takeWhile Char.isDigit, c.isDigit = true := fun _ hc =>
    List.mem_takeWhile_imp hc
  have hfraction := scanFraction_digits (cs.dropWhile Char.isDigit)
  simp only [scan] at h
  split at h
  · cases h
  · next hne =>
    simp only [List.isEmpty_iff] at hne
    split at h
    · next e r he =>
      cases h
      refine ⟨hwhole, hfraction, hne, fun e' he' => ?_⟩
      obtain rfl := Option.some.inj he'
      exact Exponent.scan_wellFormed he
    · cases h
      refine ⟨hwhole, hfraction, hne, fun e' he' => ?_⟩
      cases he'

/-- What follows the digits and the point is followed by an exponent or is the rest. -/
theorem scan_rest {l' : Literal} {rest' : List Char} (h : scan cs = some (l', rest')) :
    let tail := (scanFraction (cs.dropWhile Char.isDigit)).2
    (∃ e, Exponent.scan tail = some (e, rest')) ∨ Exponent.scan tail = none ∧ rest' = tail := by
  simp only [scan] at h
  split at h
  · cases h
  · split at h
    · next e r he =>
      cases h
      exact .inl ⟨e, he⟩
    · next hnone =>
      cases h
      exact .inr ⟨hnone, rfl⟩

theorem scan_ne_none (hl : l.WellFormed) (rest : List Char) : scan (l.chars ++ rest) ≠ none := by
  obtain ⟨whole, fraction, exponent⟩ := l
  obtain ⟨hwhole, hfraction, hne, -⟩ := hl
  intro h
  simp only [scan, chars, List.append_assoc] at h
  split at h
  · next hempty =>
    rw [List.isEmpty_iff, List.isEmpty_iff, List.dropWhile_append_of_pos hwhole,
      List.takeWhile_append_of_pos hwhole] at hempty
    obtain ⟨htake, hfrac⟩ := hempty
    obtain rfl := (List.append_eq_nil_iff.mp htake).1
    cases fraction with
    | none => exact hne ⟨rfl, rfl⟩
    | some ds =>
        have htake : (ds ++ (exponentChars exponent ++ rest)).takeWhile Char.isDigit = [] := hfrac
        rw [List.takeWhile_append_of_pos (hfraction ds rfl)] at htake
        exact hne ⟨rfl, (List.append_eq_nil_iff.mp htake).1⟩
  · split at h <;> cases h

/-- No numeral in front is longer than the one that is scanned. -/
theorem scan_longest (hl : l.WellFormed) (rest : List Char) :
    ∃ l' rest', scan (l.chars ++ rest) = some (l', rest') ∧ rest'.length ≤ rest.length := by
  obtain ⟨⟨l', rest'⟩, hscan⟩ := Option.ne_none_iff_exists'.mp (scan_ne_none hl rest)
  refine ⟨l', rest', hscan, ?_⟩
  have hdrop (cs : List Char) : (cs.dropWhile Char.isDigit).length ≤ cs.length :=
    (List.dropWhile_sublist _).length_le
  have hcases := scan_rest hscan
  obtain ⟨whole, fraction, exponent⟩ := l
  obtain ⟨hwhole, hfraction, hne, hexponent⟩ := hl
  simp only [chars, List.append_assoc, List.dropWhile_append_of_pos hwhole] at hcases
  cases exponent with
  | some e =>
      have he := hexponent e rfl
      have hnone : ∀ c ∈ ([] : List Char), c.isDigit = true := List.forall_mem_nil _
      have hhead : ((fractionChars fraction ++ (e.chars ++ rest)).dropWhile Char.isDigit) =
          fractionChars fraction ++ (e.chars ++ rest) :=
        (takeWhile_append hnone (fraction_head fraction fun c hc => (he.head rest c hc).1)).2
      rw [exponentChars, hhead, scanFraction_append hfraction (he.head rest), he.scan_eq,
        Exponent.scanDigits, List.takeWhile_append_of_pos he.digits,
        List.dropWhile_append_of_pos he.digits, if_neg (by simp [he.nonempty])] at hcases
      rcases hcases with ⟨e', he'⟩ | ⟨hnone, -⟩
      · cases he'
        exact hdrop rest
      · cases hnone
  | none =>
      rw [exponentChars, List.nil_append] at hcases
      have htail : (scanFraction
          ((fractionChars fraction ++ rest).dropWhile Char.isDigit)).2.length ≤ rest.length := by
        cases fraction with
        | some ds =>
            change ((ds ++ rest).dropWhile Char.isDigit).length ≤ rest.length
            rw [List.dropWhile_append_of_pos (hfraction ds rfl)]
            exact hdrop rest
        | none =>
            have hchars := congrArg List.length (scanFraction_chars (rest.dropWhile Char.isDigit))
            rw [List.length_append] at hchars
            exact (Nat.le.intro ((Nat.add_comm _ _).trans hchars)).trans (hdrop rest)
      rcases hcases with ⟨e, he⟩ | ⟨-, rfl⟩
      · have hchars := congrArg List.length (Exponent.scan_chars he)
        rw [List.length_append] at hchars
        omega
      · exact htail

/-- A text has a value exactly if it is one numeral, and the value is that of the numeral. -/
theorem value?_eq_some_iff {d : Decimal} :
    value? cs = some d ↔ ∃ l : Literal, l.WellFormed ∧ l.chars = cs ∧ l.value = d := by
  constructor
  · intro h
    unfold value? at h
    split at h
    · next l hscan =>
      have hchars := scan_chars hscan
      rw [List.append_nil] at hchars
      exact ⟨l, scan_wellFormed hscan, hchars, Option.some.inj h⟩
    · cases h
  · rintro ⟨l, hl, rfl, rfl⟩
    have hscan := scan_append hl ends_nil
    rw [List.append_nil] at hscan
    rw [value?, hscan]

end Literal

end Formulary.Decimal
