import Formulary.Production
import Formulary.Proofs.Definition
import Formulary.Proofs.Definition.Store
import Formulary.Proofs.Radical.Exhaustion
import Formulary.Proofs.Request.Description
import Mathlib

namespace Formulary

variable {ν : Type}

namespace Schema

open Checked

variable {α : Type} {check : Json ν → Checked α} {P : Json ν → α → Prop} {key : String}
    {ms : List (String × Json ν)}

def Items (P : Json ν → α → Prop) (j : Json ν) (as : List α) : Prop :=
  ∃ items, j = .array items ∧ List.Forall₂ P items as

inductive Member? (P : Json ν → α → Prop) (key : String) (ms : List (String × Json ν)) :
    Option α → Prop where
  | absent (h : Json.lookup key ms = none) : Member? P key ms none
  | present {j : Json ν} {a : α} (h : Json.lookup key ms = some j) (described : P j a) :
      Member? P key ms (some a)

theorem yields_array {j : Json ν} {as : List α} (h : ∀ j a, (check j).Yields a ↔ P j a) :
    (array check j).Yields as ↔ Items P j as := by
  have hcheck : (fun j a => (check j).Yields a) = P := by
    funext j a
    exact propext (h j a)
  cases j with
  | array items =>
      rw [array, yields_sequence, List.forall₂_map_left_iff, hcheck]
      simp [Items]
  | _ => simp [array, Items]

theorem yields_object {check : List (String × Json ν) → Checked α} {j : Json ν} {a : α} :
    (object check j).Yields a ↔ ∃ ms, j = .object ms ∧ (check ms).Yields a := by
  cases j <;> simp [object]

theorem yields_required {a : α} :
    (required check key ms).Yields a ↔ ∃ j, Json.lookup key ms = some j ∧ (check j).Yields a := by
  rw [required, yields_under]
  cases Json.lookup key ms <;> simp

theorem yields_member? {a : Option α} (h : ∀ j a, (check j).Yields a ↔ P j a) :
    (optional check key ms).Yields a ↔ Member? P key ms a := by
  rw [optional, yields_under]
  cases hlookup : Json.lookup key ms with
  | none =>
      simp only [yields_ok]
      constructor
      · rintro rfl
        exact .absent hlookup
      · rintro (_ | ⟨hpresent, -⟩)
        · rfl
        · rw [hlookup] at hpresent
          cases hpresent
  | some j =>
      simp only [yields_map, h]
      constructor
      · rintro ⟨b, hb, rfl⟩
        exact .present hlookup hb
      · rintro (habsent | ⟨hpresent, hb⟩)
        · rw [hlookup] at habsent
          cases habsent
        · obtain rfl := Option.some.inj (hlookup.symm.trans hpresent)
          exact ⟨_, hb, rfl⟩

theorem yields_requiredTree [Number ν] {x : Expr ν} :
    (requiredTree key ms).Yields x ↔ ∃ j, Json.lookup key ms = some j ∧ Expr.ofJson j = .ok x := by
  rw [requiredTree, yields_under]
  cases Json.lookup key ms with
  | none => simp
  | some j => simp [Expr.ofJson, result_eq_ok_iff]

end Schema

namespace Request

open Schema Checked

variable [Number ν]

def ExpressionIn (j : Json ν) (e : String × Expr ν) : Prop :=
  ∃ ms tree, j = .object ms ∧ Json.lookup "label" ms = some (.string e.1) ∧
    Json.lookup "expr" ms = some tree ∧ Expr.ofJson tree = .ok e.2

def DefinitionIn (j : Json ν) (d : String × Rule ν) : Prop :=
  ∃ ms lhs rhs, j = .object ms ∧ (Json.lookup "symbol" ms = some (.string d.1) ∧ d.1 ≠ "") ∧
    (Json.lookup "lhs" ms = some lhs ∧ Expr.ofJson lhs = .ok d.2.lhs) ∧
      Json.lookup "rhs" ms = some rhs ∧ Expr.ofJson rhs = .ok d.2.rhs

/-- What the members of a description say. Lists that are absent are empty, except that of the
functions wanted. -/
structure DescribedBy (r : Request ν) (ms : List (String × Json ν)) : Prop where
  target : Member? (fun j s => j = .string s) "target" ms r.target
  assumptions : Member? (fun j s => j = .string s) "assumptions" ms r.assumptions
  expressions : ∃ es, Member? (Items ExpressionIn) "expressions" ms es ∧ r.expressions = es.getD []
  definitions : ∃ ds, Member? (Items DefinitionIn) "definitions" ms ds ∧ r.definitions = ds.getD []
  functions : Member? (Items fun j s => j = .string s ∧ s ≠ "") "functions" ms r.functions

theorem yields_expressionOf (j : Json ν) (e : String × Expr ν) :
    (object expressionOf j).Yields e ↔ ExpressionIn j e := by
  simp only [yields_object, expressionOf, yields_map2, yields_required, yields_string,
    yields_requiredTree, ExpressionIn]
  constructor
  · rintro ⟨ms, rfl, label, tree, ⟨_, hlabel, rfl⟩, ⟨j, hj, htree⟩, rfl⟩
    exact ⟨ms, j, rfl, hlabel, hj, htree⟩
  · rintro ⟨ms, j, rfl, hlabel, hj, htree⟩
    exact ⟨ms, rfl, e.1, e.2, ⟨_, hlabel, rfl⟩, ⟨j, hj, htree⟩, rfl⟩

theorem yields_definitionOf (j : Json ν) (d : String × Rule ν) :
    (object definitionOf j).Yields d ↔ DefinitionIn j d := by
  simp only [yields_object, definitionOf, map3, yields_map2, yields_required, yields_nonemptyString,
    yields_requiredTree, DefinitionIn]
  constructor
  · rintro ⟨ms, rfl, _, rhs, ⟨symbol, lhs, ⟨_, hsymbol, rfl, hne⟩, ⟨i, hi, hlhs⟩, rfl⟩,
      ⟨k, hk, hrhs⟩, rfl⟩
    exact ⟨ms, i, k, rfl, ⟨hsymbol, hne⟩, ⟨hi, hlhs⟩, hk, hrhs⟩
  · rintro ⟨ms, i, k, rfl, ⟨hsymbol, hne⟩, ⟨hi, hlhs⟩, hk, hrhs⟩
    exact ⟨ms, rfl, _, d.2.rhs, ⟨d.1, d.2.lhs, ⟨_, hsymbol, rfl, hne⟩, ⟨i, hi, hlhs⟩, rfl⟩,
      ⟨k, hk, hrhs⟩, rfl⟩

theorem ofJson_eq_ok_iff {j : Json ν} {r : Request ν} :
    ofJson j = .ok r ↔ ∃ ms, j = .object ms ∧ r.DescribedBy ms := by
  rw [ofJson, result_eq_ok_iff, yields_object]
  refine exists_congr fun ms => and_congr_right fun _ => ?_
  simp only [ofMembers, map3, yields_map2, yields_member? fun j a => yields_string,
    yields_member? fun j a => yields_array yields_expressionOf, yields_member? fun j a =>
      yields_array yields_definitionOf,
    yields_member? fun j a => yields_array fun j a => yields_nonemptyString]
  constructor
  · rintro ⟨_, functions, ⟨_, _, ⟨target, assumptions, htarget, hassumptions, rfl⟩,
      ⟨es, ds, hes, hds, rfl⟩, rfl⟩, hfunctions, rfl⟩
    exact ⟨htarget, hassumptions, ⟨es, hes, rfl⟩, ⟨ds, hds, rfl⟩, hfunctions⟩
  · rintro ⟨htarget, hassumptions, ⟨es, hes, hexpressions⟩, ⟨ds, hds, hdefinitions⟩, hfunctions⟩
    refine ⟨_, r.functions, ⟨_, _, ⟨_, _, htarget, hassumptions, rfl⟩, ⟨es, ds, hes, hds, rfl⟩,
      rfl⟩, hfunctions, ?_⟩
    rw [← hexpressions, ← hdefinitions]

end Request

section Kinds

variable {symbol : String} {d : Diagnostic ν}

theorem Target.kind_of_mem_emissionDiagnostics {t : Target} {bound : List String} {x : Expr ν}
    (h : d ∈ t.emissionDiagnostics bound x) :
    d.kind = "UnmappedFunction" ∨ d.kind = "IdentifierCollision" := by
  rw [emissionDiagnostics, Identifier.Scope.collisions_eq] at h
  rcases List.mem_append.mp h with h | h
  · obtain ⟨name, -, rfl⟩ := List.mem_map.mp h
    exact .inl rfl
  · obtain ⟨p, -, rfl⟩ := List.mem_map.mp h
    exact .inr rfl

variable [Number ν]

theorem Settings.function_congr (s : Settings ν) {store store' : Store ν}
    (h : (store.rules symbol).head? = (store'.rules symbol).head?) :
    s.function store symbol = s.function store' symbol := by
  have hrules : Signature.ofRules s.target symbol (store.rules symbol) =
      Signature.ofRules s.target symbol (store'.rules symbol) := by
    cases hs : store.rules symbol with
    | nil =>
        rw [hs] at h
        rw [List.head?_eq_none_iff.mp h.symm]
    | cons rule rest =>
        rw [hs, List.head?_cons] at h
        obtain ⟨rest', hs'⟩ := List.head?_eq_some_iff.mp h.symm
        rw [hs', Signature.ofRules_cons, Signature.ofRules_cons]
  rw [Settings.function, Settings.function, hrules]

variable [DistinctNumber ν]

theorem Combined.kind_of_mem_diagnostics {options : RadicalOptions ν} {assumptions : Assumptions ν}
    {x : Expr ν} (h : d ∈ (ofExpr options assumptions x).diagnostics) :
    d.kind = "UnknownSigns" ∨ d.kind = "SuggestAssumptions" ∨ d.kind = "OddNegativeBases" := by
  have hlast := (ofExpr_rests options assumptions x).1.last_result
  have hfinds := (Pass.finds_ofExpr options assumptions (ofExpr options assumptions x).result
    (by rw [hlast])).diagnostics
  rw [hlast] at hfinds
  simp only at hfinds
  rw [hfinds] at h
  obtain ⟨y, -, hy⟩ := List.mem_flatMap.mp h
  cases assumptions with
  | unstated => cases hy
  | stated facts =>
      rw [remarks] at hy
      split at hy
      · cases hy
      · split at hy
        · rcases List.mem_pair.mp hy with rfl | rfl
          · exact .inl rfl
          · exact .inr (.inl rfl)
        · rw [List.mem_singleton.mp hy]
          exact .inr (.inr rfl)

namespace Settings

variable (s : Settings ν)

theorem kind_of_mem_prepare {x : Expr ν} (h : d ∈ (s.prepare x).2) :
    d.kind ≠ "NoDefinitionFound" := by
  rw [prepare] at h
  split at h
  · cases h
  · rcases Combined.kind_of_mem_diagnostics h with h | h | h <;> rw [h] <;> decide

/-- A symbol without rules has no definition, and one with rules is not said to have none. -/
theorem noDefinitionFound_iff {store : Store ν} :
    "NoDefinitionFound" ∈ (s.function store symbol).diagnostics.map Diagnostic.kind ↔
      store.rules symbol = [] := by
  rw [function]
  cases hrules : store.rules symbol with
  | nil => exact iff_of_true (List.mem_singleton_self _) rfl
  | cons rule rest =>
      refine iff_of_false (fun hmem => ?_) (List.cons_ne_nil _ _)
      obtain ⟨d, hd, hkind⟩ := List.mem_map.mp hmem
      rw [Signature.ofRules_cons] at hd
      split at hd
      · next hsignature =>
        split at hsignature
        · cases hsignature
        · cases hsignature
          rw [List.mem_singleton.mp hd] at hkind
          change "AmbiguousSignature" = _ at hkind
          exact absurd hkind (by decide)
      · rcases List.mem_append.mp hd with hd | hd
        · exact s.kind_of_mem_prepare hd hkind
        · rcases Target.kind_of_mem_emissionDiagnostics hd with h | h
            <;> exact absurd (h.symm.trans hkind) (by decide)

end Settings

end Kinds

namespace Request

variable [Number ν]

theorem exists_toWork_iff {r : Request ν} :
    (∃ w, r.toWork = .ok w) ↔ ∀ text, r.assumptions = some text →
      ∃ a, (Assumptions.read text : Except _ (Assumptions ν)) = .ok a := by
  rw [toWork, combine]
  cases r.assumptions with
  | none => exact iff_of_true ⟨_, rfl⟩ nofun
  | some text =>
      simp only [Option.some.injEq, forall_eq']
      cases (Assumptions.read text : Except _ (Assumptions ν)) with
      | ok a => exact iff_of_true ⟨_, rfl⟩ ⟨a, rfl⟩
      | error e => exact iff_of_false (by rintro ⟨w, ⟨⟩⟩) (by rintro ⟨a, ⟨⟩⟩)

theorem of_toWork {r : Request ν} {w : Work ν} (h : r.toWork = .ok w) :
    w.store = .ofDefinitions r.definitions ∧ w.units = r.units := by
  rw [toWork] at h
  cases hcombine : r.combine with
  | ok a =>
      rw [hcombine] at h
      cases h
      exact ⟨rfl, rfl⟩
  | error e =>
      rw [hcombine] at h
      cases h

/-- No definition is lost, moved or given to another symbol between a description and its units. A
function has nothing to come of exactly if its symbol is not defined, and else comes of the first
definition of it, whatever other definitions there are. -/
theorem toWork_exact [DistinctNumber ν] {j : Json ν} {r : Request ν} (h : ofJson j = .ok r) :
    (∃ ms, j = .object ms ∧ r.DescribedBy ms) ∧
      ((∃ w, r.toWork = .ok w) ↔
        ∀ text, r.assumptions = some text →
          ∃ a, (Assumptions.read text : Except _ (Assumptions ν)) = .ok a) ∧
      ∀ w, r.toWork = .ok w →
        w.store.Holds r.definitions ∧
          w.units = r.expressions.map (fun e => .expression e.1 e.2) ++
            (r.functions.getD w.store.symbols).map .function ∧
          ∀ (s : Settings ν) (symbol : String),
            ("NoDefinitionFound" ∈ (s.unit w.store (.function symbol)).diagnostics.map
              Diagnostic.kind ↔ ∀ d ∈ r.definitions, d.1 ≠ symbol) ∧
            ∀ ds : List (String × Rule ν), ds.find? (·.1 == symbol) =
              r.definitions.find? (·.1 == symbol) →
              s.unit (.ofDefinitions ds) (.function symbol) = s.unit w.store (.function symbol) := by
  refine ⟨ofJson_eq_ok_iff.mp h, exists_toWork_iff, fun w hw => ?_⟩
  obtain ⟨hstore, hunits⟩ := of_toWork hw
  rw [hstore, hunits]
  refine ⟨Store.holds_ofDefinitions _, rfl, fun s symbol => ⟨?_, fun ds hds => ?_⟩⟩
  · change "NoDefinitionFound" ∈ (s.function _ symbol).diagnostics.map Diagnostic.kind ↔ _
    rw [s.noDefinitionFound_iff, (Store.holds_ofDefinitions _).rules, Store.rulesIn_eq_nil_iff]
  · refine s.function_congr ?_
    rw [(Store.holds_ofDefinitions ds).rules, (Store.holds_ofDefinitions r.definitions).rules,
      Store.head?_rulesIn, Store.head?_rulesIn, hds]

def definitionOfName (symbol body : String) : Json Float :=
  .object [("symbol", .string symbol), ("lhs", .string symbol), ("rhs", .string body)]

def interleaved : Json Float :=
  .object [("definitions",
    .array [definitionOfName "f" "a", definitionOfName "g" "b", definitionOfName "f" "c"])]

def interleavedRequest : Request Float :=
  ⟨none, none, [], [("f", ⟨.symbol "f", .symbol "a"⟩), ("g", ⟨.symbol "g", .symbol "b"⟩),
    ("f", ⟨.symbol "f", .symbol "c"⟩)], none⟩

/-- Both symbols are wanted once, and the second definition of the first one makes no difference to
it. -/
theorem toWork_exact_interleaved :
    ofJson interleaved = .ok interleavedRequest ∧ ∃ w, interleavedRequest.toWork = .ok w ∧
      w.store.rules "f" = [⟨.symbol "f", .symbol "a"⟩, ⟨.symbol "f", .symbol "c"⟩] ∧
      w.units = [.function "f", .function "g"] ∧
      ∀ s : Settings Float, s.unit w.store (.function "f") =
          s.unit (.ofDefinitions [("f", ⟨.symbol "f", .symbol "a"⟩)]) (.function "f") ∧
        "NoDefinitionFound" ∈ (s.unit w.store (.function "h")).diagnostics.map Diagnostic.kind := by
  have hrequest : ofJson interleaved = .ok interleavedRequest := by rfl
  obtain ⟨-, hwork, h⟩ := toWork_exact hrequest
  obtain ⟨w, hw⟩ := hwork.mpr nofun
  obtain ⟨hholds, hunits, hfunction⟩ := h w hw
  refine ⟨hrequest, w, hw, (hholds.rules "f").trans (by rfl), ?_, fun s => ⟨?_, ?_⟩⟩
  · rw [hunits, (of_toWork hw).1]
    rfl
  · exact ((hfunction s "f").2 [("f", ⟨.symbol "f", .symbol "a"⟩)] rfl).symm
  · exact (hfunction s "h").1.mpr (by decide)

end Request

end Formulary
