import Formulary.Expr.Display
import Formulary.Proofs.Display.Signed
import Mathlib

namespace Formulary

open Number Interpretation

namespace Expr

def respell : Char → List Char
  | '[' => ['(']
  | ']' => [')']
  | '\x7b' => ['[']
  | '\x7d' => [']']
  | '^' => ['*', '*']
  | c => [c]

def respelled (s : String) : List Char := s.toList.flatMap respell

section Respelling

variable {c : Char} {cs : List Char} {s : String}

theorem respelled_append (s u : String) : respelled (s ++ u) = respelled s ++ respelled u := by
  rw [respelled, String.toList_append, List.flatMap_append, respelled, respelled]

theorem respelled_of_forall (h : ∀ c ∈ s.toList, respell c = [c]) : respelled s = s.toList := by
  rw [respelled, List.flatMap_congr h, List.flatMap_singleton']

theorem respell_of_isAlphanum (h : c.isAlphanum = true) : respell c = [c] := by
  unfold respell
  split <;> first | rfl | exact absurd h (by decide)

theorem exists_cons_respell (c : Char) :
    ∃ d ds, respell c = d :: ds ∧ (d = '-' → c = '-' ∧ ds = []) := by
  unfold respell
  split <;> exact ⟨_, _, rfl, by simp⟩

theorem toList_of_respelled_minus (h : respelled s = '-' :: cs) :
    ∃ ds, s.toList = '-' :: ds ∧ ds.flatMap respell = cs := by
  rw [respelled] at h
  cases hs : s.toList with
  | nil =>
      rw [hs] at h
      cases h
  | cons c ds =>
      obtain ⟨d, rest, hc, hminus⟩ := exists_cons_respell c
      rw [hs, List.flatMap_cons, hc, List.cons_append, List.cons.injEq] at h
      obtain ⟨rfl, rfl⟩ := hminus h.1
      exact ⟨ds, rfl, h.2⟩

theorem respelled_intercalate {ss us : List String}
    (h : List.Forall₂ (fun s u => u.toList = respelled s) ss us) :
    (", ".intercalate us).toList = respelled (", ".intercalate ss) := by
  induction h with
  | nil => rfl
  | cons hs hrest ih =>
      cases hrest with
      | nil => rwa [String.intercalate_singleton, String.intercalate_singleton]
      | cons _ _ =>
          rw [String.intercalate_cons_cons, String.intercalate_cons_cons, respelled_append,
            respelled_append, String.toList_append, String.toList_append, ih, hs]
          rfl

end Respelling

def Unmarked (cs : List Char) : Prop := ∃ d ds, cs = d :: ds ∧ d ≠ '-'

theorem Unmarked.append {cs : List Char} (h : Unmarked cs) (ds : List Char) :
    Unmarked (cs ++ ds) := by
  obtain ⟨e, es, rfl, he⟩ := h
  exact ⟨e, es ++ ds, rfl, he⟩

def IsWord (s : String) : Prop :=
  ∃ c cs, s.toList = c :: cs ∧ c.isAlpha = true ∧ ∀ d ∈ cs, d.isAlphanum = true

section Words

variable {s : String}

theorem IsWord.isAlphanum (h : IsWord s) : ∀ c ∈ s.toList, c.isAlphanum = true := by
  obtain ⟨c, cs, hs, hc, hcs⟩ := h
  rw [hs]
  refine List.forall_mem_cons.mpr ⟨?_, hcs⟩
  rw [Char.isAlphanum, hc, Bool.true_or]

theorem IsWord.respelled (h : IsWord s) : respelled s = s.toList :=
  respelled_of_forall fun c hc => respell_of_isAlphanum (h.isAlphanum c hc)

theorem IsWord.isName (h : IsWord s) : Lexeme.isName s = true := by
  have hall := h.isAlphanum
  obtain ⟨c, cs, hs, hc, -⟩ := h
  have hidentifier : Lexeme.isIdentifier (String.ofList (c :: cs)) = true := by
    apply Lexeme.isIdentifier_ofList
    · rw [Lexeme.isNameStart, hc, Bool.true_or]
    · intro d hd
      rw [Lexeme.isNameChar, hall d (hs ▸ hd), Bool.true_or]
  rw [← hs, String.ofList_toList] at hidentifier
  exact (Bool.and_eq_true_iff.mp hidentifier).1

theorem IsWord.unmarked (h : IsWord s) : Unmarked s.toList := by
  obtain ⟨c, cs, hs, hc, -⟩ := h
  refine ⟨c, cs, hs, ?_⟩
  rintro rfl
  exact absurd hc (by decide)

theorem isWord_sqrt : IsWord "Sqrt" := ⟨'S', ['q', 'r', 't'], rfl, rfl, List.all_eq_true.mp rfl⟩

theorem IsWord.ne_empty (h : IsWord s) : s ≠ "" := by
  rintro rfl
  obtain ⟨c, cs, hs, -⟩ := h
  cases hs

end Words

def plainTarget : Target where
  name := ""
  description := ""
  functions := []
  constants := []
  reserved := []
  radical := .power
  rootCall := ""
  arctangentCall := ""
  binaryHeads := []
  arrayCall := none
  infinity := ""
  nan := ""

variable {K : Type} [Field K]

def plainReading (I : Interpretation K) : Reading Float K := ⟨plainTarget, I⟩

section Plain

variable (I : Interpretation K) {s : String}

theorem denote_name (h : IsWord s) : (plainReading I).denote (.name s) = I.symbol s := by
  rw [Reading.denote, Reading.ofName]
  exact (if_neg h.ne_empty).trans (if_neg h.ne_empty)

theorem denote_call (h : IsWord s) (cs : List Code) :
    (plainReading I).denote (.call s cs) = ((plainReading I).denotes cs).bind (I.call s) := by
  have hcall (listed : Bool) (vs : List K) : (plainReading I).ofCall s listed vs = I.call s vs := by
    unfold Reading.ofCall
    split
    · exact (if_neg h.ne_empty).trans (if_neg fun harray => nomatch harray.1)
    · exact if_neg h.ne_empty
    · rfl
  rw [Reading.denote]
  exact congrArg _ (funext (hcall _))

end Plain

namespace Display

variable {I : Interpretation K} {d : Display} {v : Option K} {t : Signed} {ts : List Signed}
    {b : Binding}

/-- Code that is written as the text, may stand where the strength is asked for, and has the value. -/
structure Writes (I : Interpretation K) (b : Binding) (s : String) (v : Option K)
    (c : Code) : Prop where
  readable : Code.Readable b c
  chars : c.text.toList = respelled s
  value : (plainReading I).denote c = v

/-- The display is that of a sum of terms, of which there is one if it binds more tightly. A numeral
below zero binds as a negation does whatever its magnitude, so that a magnitude is known to bind as
its display only where there is no sign. -/
structure Shows (I : Interpretation K) (d : Display) (v : Option K) (t : Signed)
    (ts : List Signed) : Prop where
  chars : respelled d.text = t.chars ++ ts.flatMap Signed.laterChars
  value : Signed.total (plainReading I) (t :: ts) = v
  readable : ∀ s ∈ t :: ts, Code.Readable .product s.magnitude
  unmarked : t.negative = false → Unmarked t.magnitude.text.toList
  alone : .product ≤ d.binding → ts = []
  tight : .power ≤ d.binding → t.negative = false ∧ Code.Readable d.binding t.magnitude

def Means (I : Interpretation K) (d : Display) (v : Option K) : Prop := ∃ t ts, d.Shows I v t ts

def MeansLater (I : Interpretation K) (s : String) (v : Option K) : Prop :=
  ∃ ts : List Signed, respelled s = ts.flatMap Signed.laterChars ∧
    Signed.total (plainReading I) ts = v ∧ ∀ t ∈ ts, Code.Readable .product t.magnitude

theorem Shows.writes (h : d.Shows I v t ts) : Writes I .sum d.text v (Signed.sum t ts) where
  readable := Signed.readable_sum h.readable
  chars := Signed.toList_text_sum.trans h.chars.symm
  value := ((plainReading I).denote_sum t ts).trans h.value

theorem unmarked_paren (c : Code) : Unmarked (Code.paren c).text.toList := by
  rw [Code.text, String.toList_append, String.toList_append]
  exact (Unmarked.append ⟨'(', [], rfl, by decide⟩ _).append _

theorem Shows.parenthesized (h : d.Shows I v t ts) :
    Writes I .atom ("(" ++ d.text ++ ")") v (.paren (Signed.sum t ts)) where
  readable := h.writes.readable.paren
  chars := by
    rw [respelled_append, respelled_append, ← h.writes.chars, Code.text, String.toList_append,
      String.toList_append]
    rfl
  value := by rw [Reading.denote, h.writes.value]

theorem le_atom (b : Binding) : b ≤ .atom := by cases b <;> decide

theorem Means.within (h : d.Means I v) (hb : .power ≤ b) :
    ∃ c, Writes I b (d.within b) v c ∧ Unmarked c.text.toList := by
  obtain ⟨t, ts, h⟩ := h
  unfold Display.within
  split
  · next hle =>
    have hpower : .power ≤ d.binding := Nat.le_trans (m := b.rank) hb hle
    obtain ⟨hsign, hreadable⟩ := h.tight hpower
    obtain rfl := h.alone (Nat.le_trans (m := Binding.power.rank) (by decide) hpower)
    have hcode : Signed.sum t [] = t.magnitude := by
      rw [Signed.sum, List.foldl_nil, Signed.code, hsign, if_neg Bool.false_ne_true]
    have hwrites := h.writes
    rw [hcode] at hwrites
    exact ⟨t.magnitude, ⟨hreadable.mono hle, hwrites.chars, hwrites.value⟩, h.unmarked hsign⟩
  · exact ⟨_, ⟨h.parenthesized.readable.mono (le_atom b), h.parenthesized.chars,
      h.parenthesized.value⟩, unmarked_paren _⟩

theorem Means.within_product (h : d.Means I v) : ∃ c, Writes I .product (d.within .product) v c := by
  obtain ⟨t, ts, h⟩ := h
  unfold Display.within
  split
  · next hle =>
    obtain rfl := h.alone hle
    have hreadable := Signed.readable_code (h.readable t List.mem_cons_self)
    exact ⟨_, hreadable, h.writes.chars, h.writes.value⟩
  · exact ⟨_, h.parenthesized.readable.mono (by decide), h.parenthesized.chars, h.parenthesized.value⟩

/-- The first factor of a product, which may bring a sign. -/
theorem Means.lead (h : d.Means I v) :
    ∃ t : Signed, respelled (d.within .unary) = t.chars ∧ t.value (plainReading I) = v ∧
    Code.Readable .product t.magnitude ∧ (t.negative = false → Unmarked t.magnitude.text.toList) := by
  obtain ⟨t, ts, h⟩ := h
  unfold Display.within
  split
  · next hle =>
    obtain rfl := h.alone (Nat.le_trans (m := Binding.unary.rank) (by decide) hle)
    refine ⟨t, ?_, ?_, h.readable t List.mem_cons_self, h.unmarked⟩
    · rw [h.chars, List.flatMap_nil, List.append_nil]
    · rw [← Signed.total_singleton, h.value]
  · refine ⟨⟨false, .paren (Signed.sum t ts)⟩, h.parenthesized.chars.symm, ?_,
      h.parenthesized.readable.mono (by decide), fun _ => unmarked_paren _⟩
    rw [Signed.value, map_signed_false, h.parenthesized.value]

/-- A sign taken from the text is the sign of the first term. -/
theorem Means.later (h : d.Means I v) : MeansLater I (laterTerm d.text) v := by
  obtain ⟨t, ts, h⟩ := h
  refine ⟨t :: ts, ?_, h.value, h.readable⟩
  have hchars := h.chars
  rw [Signed.chars] at hchars
  rw [List.flatMap_cons, Signed.laterChars]
  cases hsign : t.negative with
  | true =>
      rw [hsign, if_pos rfl] at hchars
      obtain ⟨ds, htext, hds⟩ := toList_of_respelled_minus hchars
      have hrest : respelled (String.ofList ds) = t.magnitude.text.toList ++
          ts.flatMap Signed.laterChars := by
        rw [respelled, String.toList_ofList, hds]
        rfl
      unfold laterTerm
      rw [htext]
      simp only
      rw [respelled_append, hrest]
      rfl
  | false =>
      rw [hsign, if_neg Bool.false_ne_true, List.nil_append] at hchars
      unfold laterTerm
      split
      · next ds htext =>
        -- the text would begin with the minus sign that its first term is without
        obtain ⟨e, es, hmagnitude, he⟩ := h.unmarked hsign
        rw [respelled, htext, List.flatMap_cons, hmagnitude] at hchars
        exact absurd (List.cons.inj hchars).1.symm he
      · rw [respelled_append, hchars]
        rfl

theorem means_term {text : String} (hchars : respelled text = t.chars)
    (hvalue : t.value (plainReading I) = v) (hreadable : Code.Readable .product t.magnitude)
    (hunmarked : t.negative = false → Unmarked t.magnitude.text.toList)
    (htight : .power ≤ b → t.negative = false ∧ Code.Readable b t.magnitude) :
    Means I ⟨text, b⟩ v := by
  refine ⟨t, [], ?_, ?_, List.forall_mem_singleton.mpr hreadable, hunmarked, fun _ => rfl, htight⟩
  · rw [List.flatMap_nil, List.append_nil]
    exact hchars
  · rw [Signed.total_singleton, hvalue]

end Display

end Expr

end Formulary
