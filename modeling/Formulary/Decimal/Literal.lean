import Formulary.Decimal.Basic

namespace Formulary.Decimal

structure Exponent where
  mark : Char
  sign : Option Char
  digits : List Char
deriving DecidableEq, Repr

structure Literal where
  whole : List Char
  fraction : Option (List Char)
  exponent : Option Exponent
deriving DecidableEq, Repr

namespace Exponent

def chars (e : Exponent) : List Char := e.mark :: (e.sign.toList ++ e.digits)

def value (e : Exponent) : Int :=
  if e.sign = some '-' then -(Nat.ofDigitChars 10 e.digits 0 : Int)
    else Nat.ofDigitChars 10 e.digits 0

/-- Digits after an optional sign; none where no digit follows. -/
def scanDigits (mark : Char) (sign : Option Char) (cs : List Char) : Option (Exponent × List Char) :=
  if (cs.takeWhile Char.isDigit).isEmpty then none
  else some (⟨mark, sign, cs.takeWhile Char.isDigit⟩, cs.dropWhile Char.isDigit)

def scan : List Char → Option (Exponent × List Char)
  | [] => none
  | c :: cs =>
    if c = 'e' ∨ c = 'E' then
      match cs with
      | '+' :: ds => scanDigits c (some '+') ds
      | '-' :: ds => scanDigits c (some '-') ds
      | ds => scanDigits c none ds
    else none

end Exponent

namespace Literal

def fractionChars : Option (List Char) → List Char
  | some ds => '.' :: ds
  | none => []

def exponentChars : Option Exponent → List Char
  | some e => e.chars
  | none => []

def chars (l : Literal) : List Char := l.whole ++ fractionChars l.fraction ++ exponentChars l.exponent

def text (l : Literal) : String := String.ofList l.chars

def value (l : Literal) : Decimal :=
  let fraction := l.fraction.getD []
  ⟨Nat.ofDigitChars 10 (l.whole ++ fraction) 0,
    (match l.exponent with | some e => e.value | none => 0) - fraction.length⟩

def scanFraction : List Char → Option (List Char) × List Char
  | '.' :: cs => (some (cs.takeWhile Char.isDigit), cs.dropWhile Char.isDigit)
  | cs => (none, cs)

def scan (cs : List Char) : Option (Literal × List Char) :=
  let whole := cs.takeWhile Char.isDigit
  let (fraction, rest) := scanFraction (cs.dropWhile Char.isDigit)
  if whole.isEmpty ∧ (fraction.getD []).isEmpty then none
  else
    match Exponent.scan rest with
    | some (e, rest) => some (⟨whole, fraction, some e⟩, rest)
    | none => some (⟨whole, fraction, none⟩, rest)

def value? (cs : List Char) : Option Decimal :=
  match scan cs with
  | some (l, []) => some l.value
  | _ => none

end Literal

theorem Exponent.scanDigits_chars {mark : Char} {sign : Option Char} {cs rest : List Char}
    {e : Exponent} (h : scanDigits mark sign cs = some (e, rest)) :
    e.chars ++ rest = mark :: (sign.toList ++ cs) := by
  unfold scanDigits at h
  split at h
  · simp at h
  · simp only [Option.some.injEq, Prod.mk.injEq] at h
    obtain ⟨rfl, rfl⟩ := h
    simp [chars, List.takeWhile_append_dropWhile]

theorem Exponent.scan_chars {cs rest : List Char} {e : Exponent} (h : scan cs = some (e, rest)) :
    e.chars ++ rest = cs := by
  unfold scan at h
  split at h
  · simp at h
  · split at h
    · split at h <;> simpa using scanDigits_chars h
    · simp at h

theorem Literal.scanFraction_chars (cs : List Char) :
    fractionChars (scanFraction cs).1 ++ (scanFraction cs).2 = cs := by
  fun_cases scanFraction cs <;> simp [fractionChars]

theorem Literal.scan_chars {cs rest : List Char} {l : Literal} (h : scan cs = some (l, rest)) :
    l.chars ++ rest = cs := by
  have hf := scanFraction_chars (cs.dropWhile Char.isDigit)
  have hw := List.takeWhile_append_dropWhile (p := Char.isDigit) (l := cs)
  simp only [scan] at h
  split at h
  · simp at h
  · split at h
    · next e r he =>
      simp only [Option.some.injEq, Prod.mk.injEq] at h
      obtain ⟨rfl, rfl⟩ := h
      simp only [chars, exponentChars, List.append_assoc, Exponent.scan_chars he, hf, hw]
    · simp only [Option.some.injEq, Prod.mk.injEq] at h
      obtain ⟨rfl, rfl⟩ := h
      simp only [chars, exponentChars, List.append_assoc, List.nil_append, hf, hw]

theorem Literal.scan_length {cs rest : List Char} {l : Literal} (h : scan cs = some (l, rest)) :
    rest.length < cs.length := by
  have hc := congrArg List.length (scan_chars h)
  have hpos : 0 < l.chars.length := by
    simp only [scan] at h
    split at h
    · simp at h
    · next hne =>
      have hl : ∃ e, l =
          ⟨cs.takeWhile Char.isDigit, (scanFraction (cs.dropWhile Char.isDigit)).1, e⟩ := by
        split at h <;> simp only [Option.some.injEq, Prod.mk.injEq] at h <;> exact ⟨_, h.1.symm⟩
      obtain ⟨e, rfl⟩ := hl
      cases hw : cs.takeWhile Char.isDigit with
      | cons d ds => simp [chars]
      | nil =>
        cases hfr : (scanFraction (cs.dropWhile Char.isDigit)).1 with
        | none => simp [hw, hfr] at hne
        | some ds => simp [chars, fractionChars]
  simp only [List.length_append] at hc
  omega

end Formulary.Decimal
