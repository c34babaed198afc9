import Formulary.Proofs.Code.Names
import Mathlib

namespace Formulary

variable {t : Target} {name s : String}

/-- No taken name is another one with an underscore behind it. -/
def Target.Unextended (t : Target) : Prop := ∀ s ∈ t.takenNames, s ++ "_" ∉ t.takenNames

instance : DecidablePred Target.Unextended :=
  fun t => inferInstanceAs (Decidable (∀ s ∈ t.takenNames, s ++ "_" ∉ t.takenNames))

theorem Target.IsPreset.unextended (ht : t.IsPreset) : t.Unextended := by
  have hall : ∀ preset ∈ presets, preset.Unextended := by decide +kernel
  obtain ⟨preset, hmem, heq⟩ := ht
  have htaken : t.takenNames = preset.takenNames := by
    rw [heq]
    rfl
  have h := hall preset hmem
  rwa [Unextended, ← htaken] at h

namespace Identifier

structure IsPlain (s : String) : Prop where
  nonempty : s ≠ ""
  chars : ∀ c ∈ s.toList, c.isAlphanum = true ∨ c = '_'
  start : ∀ c ∈ s.toList.head?, c.isDigit = false

theorem isIdentifier_iff : Lexeme.isIdentifier s = true ↔ IsPlain s := by
  constructor
  · intro h
    obtain ⟨c, cs, hs, hstart, -⟩ := Lexeme.exists_cons_of_isName (Bool.and_eq_true_iff.mp h).1
    refine ⟨?_, fun d hd => ?_, ?_⟩
    · rintro rfl
      cases hs
    · have hchar := Lexeme.isNameChar_of_isIdentifier h d hd
      rwa [Lexeme.isNameChar, Bool.or_eq_true, beq_iff_eq] at hchar
    · rw [hs]
      rintro _ ⟨⟩
      exact (Tokens.isDigit_of_isNameStart hstart).1
  · rintro ⟨hne, hchars, hstart⟩
    have hname (c : Char) (hc : c ∈ s.toList) : Lexeme.isNameChar c = true := by
      rw [Lexeme.isNameChar, Bool.or_eq_true, beq_iff_eq]
      exact hchars c hc
    obtain ⟨c, cs, hs⟩ := List.exists_cons_of_ne_nil (mt String.toList_eq_nil_iff.mp hne)
    rw [← String.ofList_toList (s := s)]
    rw [hs] at hname hstart ⊢
    refine Lexeme.isIdentifier_ofList (isNameStart_of_isNameChar (hname c List.mem_cons_self) ?_)
      hname
    rw [hstart c rfl]
    exact Bool.false_ne_true

theorem isPlain_ofName (t : Target) (name : String) : IsPlain (ofName t name) :=
  isIdentifier_iff.mp (isIdentifier_ofName t name)

theorem ofName_not_mem_takenNames (ht : t.Unextended) (name : String) :
    ofName t name ∉ t.takenNames := by
  simp only [ofName]
  split
  · next htaken =>
    -- only here an underscore is added, behind a name that is taken
    exact ht _ (List.contains_iff_mem.mp htaken)
  · next hfree => exact fun htaken => hfree (List.contains_iff_mem.mpr htaken)

theorem ofName_eq_self_iff (ht : t.Unextended) : ofName t s = s ↔ IsPlain s ∧ s ∉ t.takenNames := by
  constructor
  · intro h
    rw [← h]
    exact ⟨isPlain_ofName t s, ofName_not_mem_takenNames ht s⟩
  · rintro ⟨hplain, hfree⟩
    exact ofName_eq_self (isIdentifier_iff.mpr hplain) hfree

/-- What a name becomes is plain and free, and stays as it is when it is taken for a name again; so
it is with all presets. -/
theorem ofName_stable :
    (∀ t : Target, t.IsPreset → t.Unextended) ∧
      ∀ t : Target, t.Unextended → ∀ name, IsPlain (ofName t name) ∧
        ofName t name ∉ t.takenNames ∧ ofName t (ofName t name) = ofName t name := by
  refine ⟨fun t ht => ht.unextended, fun t ht name => ?_⟩
  have hsafe := And.intro (isPlain_ofName t name) (ofName_not_mem_takenNames ht name)
  exact ⟨hsafe.1, hsafe.2, (ofName_eq_self_iff ht).mpr hsafe⟩

-- The glyph is spelled as a keyword.
theorem ofName_stable_lambda :
    Target.numpy.IsPreset ∧ Target.numpy.Unextended ∧ ofName .numpy "\\[Lambda]" = "lambda_" ∧
      IsPlain "lambda_" ∧ "lambda_" ∉ Target.numpy.takenNames ∧
      ofName .numpy "lambda_" = "lambda_" := by
  have hpreset : Target.numpy.IsPreset := ⟨.numpy, by decide, rfl⟩
  have hname : ofName .numpy "\\[Lambda]" = "lambda_" := by decide +kernel
  have h := ofName_stable.2 .numpy (ofName_stable.1 .numpy hpreset) "\\[Lambda]"
  rw [hname] at h
  exact ⟨hpreset, ofName_stable.1 .numpy hpreset, hname, h⟩

end Identifier

end Formulary
