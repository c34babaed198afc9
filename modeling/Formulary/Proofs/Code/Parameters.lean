import Formulary.Proofs.Code.Account
import Mathlib

namespace Formulary

variable {ν : Type} {t : Target}

namespace Target

theorem mem_names {name : String} (hname : t.constants.contains name = false)
    (place : List (Expr.Frame ν)) : name ∈ t.names (Expr.fill place (.symbol name)) :=
  mem_names_iff.mpr (.inl ⟨Expr.isNode_iff.mpr ⟨place, rfl⟩, hname⟩)

/-- Names that become the same identifier are an error. -/
theorem injective_of_emissionDiagnostics {bound : List String} {x : Expr ν}
    (h : Diagnostic.hasErrors (t.emissionDiagnostics bound x) = false) {a b : String}
    (ha : a ∈ bound ++ t.names x) (hb : b ∈ bound ++ t.names x)
    (hab : Identifier.ofName t a = Identifier.ofName t b) : a = b := by
  apply Identifier.Scope.injective_of_collisions (ν := ν) _ ha hb hab
  rw [List.eq_nil_iff_forall_not_mem]
  intro d hd
  have herror : d.isError = true := by
    obtain ⟨p, -, rfl⟩ := List.mem_map.mp hd
    rfl
  have hany : Diagnostic.hasErrors (t.emissionDiagnostics bound x) = true :=
    List.any_eq_true.mpr ⟨d, List.mem_append_right _ hd, herror⟩
  rw [h] at hany
  cases hany

theorem isIdentifier_of_constant (ht : t.IsPreset) {name constant : String}
    (h : t.constants.get? name = some constant) : Lexeme.isIdentifier constant = false := by
  rcases Option.or_eq_some_iff.mp h with hown | ⟨-, hinherited⟩
  · apply ht.invertible.foreign
    have hvalue : constant ∈ t.constants.values := List.mem_map_of_mem (Table.mem_of_own? hown)
    simp [hvalue]
  · rw [Lexeme.isIdentifier, Table.isName_inherited hinherited, Bool.false_and]

end Target

theorem Signature.params_of_ofRules [Number ν] {symbol : String} {rules : List (Rule ν)}
    {s : Signature ν} (h : ofRules t symbol rules = .ok s) :
    s.params = s.patterns.map (Identifier.ofName t) := by
  unfold ofRules at h
  split at h
  · cases h
  · simp only at h
    split at h
    · cases h
      rfl
    · cases h

namespace Target

variable [Number ν] {symbol : String} {rules : List (Rule ν)} {s : Signature ν}

/-- A constant is rendered as no parameter, also where a parameter has its name. -/
theorem symbolCode_text_not_mem_params (ht : t.IsPreset)
    (hs : Signature.ofRules t symbol rules = .ok s) {name : String}
    (hname : t.constants.contains name = true) : (t.symbolCode name).text ∉ s.params := by
  rw [Table.contains_eq, Option.isSome_iff_exists] at hname
  obtain ⟨constant, hget⟩ := hname
  rw [symbolCode, hget, Signature.params_of_ofRules hs, List.mem_map]
  rintro ⟨pattern, -, heq⟩
  simp only [Code.text_ofText] at heq
  have hforeign := isIdentifier_of_constant ht hget
  rw [← heq, Identifier.isIdentifier_ofName] at hforeign
  cases hforeign

-- so a parameter may be bound and not used
example : (numpy.symbolCode "E").text = "np.e" := by decide

/-- The parameters of a definition stand in its head in their order. A symbol of the body has a
place in the code; there it is rendered as the parameter if it is one of the pattern variables and
no constant of the target, and as no parameter if it is none of them. -/
theorem emitDefinition_binds (ht : t.IsPreset) (hs : Signature.ofRules t symbol rules = .ok s)
    (hok : Diagnostic.hasErrors (t.emitDefinition s).diagnostics = false) :
    (t.emitDefinition s).code =
        "def " ++ s.name ++ "(" ++ ", ".intercalate s.params ++ "):\n    return " ++
          (t.code s.body).text ∧
      s.params.length = s.patterns.length ∧
      ∀ (place : List (Expr.Frame ν)) (name : String), s.body = Expr.fill place (.symbol name) →
        ∃ inCode, (∀ other, t.code (Expr.fill place (.symbol other)) =
          Code.fill inCode (t.symbolCode other)) ∧
          (∀ parameter, (name, parameter) ∈ s.patterns.zip s.params →
            t.constants.contains name = false → t.symbolCode name = .name parameter) ∧
          (name ∉ s.patterns → (t.symbolCode name).text ∉ s.params) := by
  have hparams := Signature.params_of_ofRules hs
  refine ⟨by rw [hparams]; rfl, by rw [hparams, List.length_map], ?_⟩
  intro place name hbody
  obtain ⟨inCode, hplace⟩ := (piece_shows t place).rendering.code
  refine ⟨inCode, hplace, ?_, ?_⟩
  · intro parameter hmem hname
    rw [hparams, ← List.map_prod_left_eq_zip] at hmem
    obtain ⟨n, -, hn⟩ := List.mem_map.mp hmem
    obtain ⟨rfl, rfl⟩ := Prod.mk.inj hn
    rw [Table.contains_eq, Option.isSome_eq_false_iff, Option.isNone_iff_eq_none] at hname
    rw [symbolCode, hname]
  · intro hnone hmem
    cases hname : t.constants.contains name with
    | true => exact symbolCode_text_not_mem_params ht hs hname hmem
    | false =>
        have hget : t.constants.get? name = none := by
          rwa [Table.contains_eq, Option.isSome_eq_false_iff, Option.isNone_iff_eq_none] at hname
        rw [hparams, symbolCode, hget] at hmem
        obtain ⟨pattern, hpattern, heq⟩ := List.mem_map.mp hmem
        have hin : name ∈ s.patterns ++ t.names s.body := by
          rw [hbody]
          exact List.mem_append_right _ (mem_names hname place)
        have hsame : pattern = name :=
          injective_of_emissionDiagnostics hok (List.mem_append_left _ hpattern) hin heq
        exact hnone (hsame ▸ hpattern)

theorem emitDefinition_binds_logarithm :
    let body : Expr Float := .call "Log" [.symbol "b", .symbol "x"]
    let s : Signature Float := ⟨"f", ["b"], ["b"], body⟩
    Signature.ofRules numpy "f" [⟨.call "f" [.pattern "b" none], body⟩] = .ok s ∧
      Diagnostic.hasErrors (numpy.emitDefinition s).diagnostics = false ∧
      ∃ inCode, (∀ other, numpy.code (.call "Log" [.symbol other, .symbol "x"] : Expr Float) =
          Code.fill inCode (numpy.symbolCode other)) ∧
        numpy.symbolCode "b" = .name "b" ∧ (numpy.symbolCode "x").text ∉ s.params := by
  intro body s
  have hf : Identifier.ofName numpy "f" = "f" := Identifier.ofName_eq_self (by decide) (by decide)
  have hb : Identifier.ofName numpy "b" = "b" := Identifier.ofName_eq_self (by decide) (by decide)
  have hx : Identifier.ofName numpy "x" = "x" := Identifier.ofName_eq_self (by decide) (by decide)
  have hs : Signature.ofRules numpy "f" [⟨.call "f" [.pattern "b" none], body⟩] = .ok s := by
    have hpatterns : (Expr.call "f" [.pattern "b" none] : Expr Float).patterns = ["b"] := rfl
    simp [Signature.ofRules, Signature.held, Signature.headOf, hpatterns, Signature.duplicates,
      Signature.repeated, hf, hb, s]
  have hok : Diagnostic.hasErrors (numpy.emitDefinition s).diagnostics = false := by
    have hnames : numpy.names body = ["x", "b"] := by decide
    have hheads : numpy.unmappedHeads body = [] := by decide
    have hscope : Identifier.Scope.ofNames numpy (["b"] ++ ["x", "b"]) =
        ⟨numpy, [("b", ["b"]), ("x", ["x"])]⟩ := by
      simp [Identifier.Scope.ofNames, Identifier.Scope.insert, Identifier.Scope.empty, hb, hx]
    simp only [emitDefinition, emissionDiagnostics, s, hnames, hheads, hscope]
    rfl
  obtain ⟨-, -, hplace⟩ := emitDefinition_binds ⟨numpy, by decide, rfl⟩ hs hok
  obtain ⟨inCode, hcode, hparameter, -⟩ := hplace [.argument "Log" [] [.symbol "x"]] "b" rfl
  obtain ⟨-, -, -, hother⟩ := hplace [.argument "Log" [.symbol "b"] []] "x" rfl
  exact ⟨hs, hok, inCode, hcode, hparameter "b" List.mem_cons_self (by decide), hother (by decide)⟩

end Target

end Formulary
