import Formulary.Definition
import Formulary.Proofs.Code.Scope
import Formulary.Proofs.Identifier
import Mathlib

namespace Formulary

variable {ν : Type}

namespace Expr

mutual

def preorder : Expr ν → List (Expr ν)
  | .number n => [.number n]
  | .symbol s => [.symbol s]
  | .pattern s h => [.pattern s h]
  | .sum ts => .sum ts :: preorderAll ts
  | .product fs => .product fs :: preorderAll fs
  | .power b e => .power b e :: (preorder b ++ preorder e)
  | .call h args => .call h args :: preorderAll args
  | .negation x => .negation x :: preorder x
  | .list items => .list items :: preorderAll items

def preorderAll : List (Expr ν) → List (Expr ν)
  | [] => []
  | x :: xs => preorder x ++ preorderAll xs

end

def patternName? : Expr ν → Option String
  | .pattern s _ => some s
  | _ => none

def patternNames (x : Expr ν) : List String := x.preorder.filterMap patternName?

theorem preorderAll_eq_flatMap (xs : List (Expr ν)) : preorderAll xs = xs.flatMap preorder := by
  induction xs with
  | nil => rfl
  | cons x xs ih => rw [preorderAll, ih, List.flatMap_cons]

theorem preorder_eq (x : Expr ν) : x.preorder = x :: x.children.flatMap preorder := by
  cases x <;> simp [preorder, children, preorderAll_eq_flatMap]

theorem patternNames_eq (x : Expr ν) :
    x.patternNames = (patternName? x).toList ++ x.children.flatMap patternNames := by
  rw [patternNames, preorder_eq, List.filterMap_cons, List.filterMap_flatMap]
  cases patternName? x <;> rfl

theorem patternsAll_eq_flatMap (xs : List (Expr ν)) : patternsAll xs = xs.flatMap patterns := by
  induction xs with
  | nil => rfl
  | cons x xs ih => rw [patternsAll, ih, List.flatMap_cons]

theorem patterns_eq_patternNames (x : Expr ν) : x.patterns = x.patternNames := by
  rw [patternNames_eq]
  induction x with
  | number | symbol | pattern => rfl
  | sum xs ih | product xs ih | call _ xs ih | list xs ih =>
      rw [patterns, patternsAll_eq_flatMap,
        List.flatMap_congr fun y hy => (ih y hy).trans (patternNames_eq y).symm]
      rfl
  | power b e ihb ihe =>
      rw [patterns, ihb, ihe, ← patternNames_eq, ← patternNames_eq]
      simp [patternName?, children]
  | negation y ih =>
      rw [patterns, ih, ← patternNames_eq]
      simp [patternName?, children]

end Expr

namespace Signature

open Identifier.Scope (eraseDups_snoc)

section Duplicates

variable {xs ds : List String} {x y : String} {i : ℕ}

def SecondAt (xs : List String) (x : String) (i : ℕ) : Prop :=
  xs[i]? = some x ∧ (xs.take i).count x = 1

/-- The members that there are more than once, each once and in the order of their second places. -/
structure Repeats (xs ds : List String) : Prop where
  nodup : ds.Nodup
  mem : ∀ x, x ∈ ds ↔ 2 ≤ xs.count x
  order : ds.Pairwise fun x y => ∃ i j, SecondAt xs x i ∧ SecondAt xs y j ∧ i < j

theorem count_snoc (xs : List String) (x y : String) :
    (xs ++ [x]).count y = xs.count y + if x = y then 1 else 0 := by
  rw [List.count_append, List.count_singleton]
  simp only [beq_iff_eq]

theorem SecondAt.lt_length (h : SecondAt xs x i) : i < xs.length :=
  (List.getElem?_eq_some_iff.mp h.1).1

theorem SecondAt.snoc (h : SecondAt xs x i) (y : String) : SecondAt (xs ++ [y]) x i := by
  refine ⟨?_, ?_⟩
  · rw [List.getElem?_append_left h.lt_length, h.1]
  · rw [List.take_append_of_le_length h.lt_length.le, h.2]

theorem secondAt_last (h : xs.count x = 1) : SecondAt (xs ++ [x]) x xs.length := by
  refine ⟨?_, ?_⟩
  · rw [List.getElem?_append_right le_rfl, Nat.sub_self, List.getElem?_cons_zero]
  · rw [List.take_append_of_le_length le_rfl, List.take_length, h]

theorem exists_secondAt (h : 2 ≤ xs.count x) : ∃ i, SecondAt xs x i := by
  induction xs using List.reverseRecOn with
  | nil => simp at h
  | append_singleton xs y ih =>
      by_cases hold : 2 ≤ xs.count x
      · obtain ⟨i, hi⟩ := ih hold
        exact ⟨i, hi.snoc y⟩
      · rw [count_snoc] at h
        split at h
        · next hy =>
          subst hy
          exact ⟨xs.length, secondAt_last (by omega)⟩
        · omega

theorem repeated_snoc (seen xs : List String) (x : String) :
    repeated seen (xs ++ [x]) = if x ∈ seen ++ xs then repeated seen xs ++ [x]
      else repeated seen xs := by
  induction xs generalizing seen with
  | nil => simp [repeated]
  | cons y xs ih =>
      by_cases hy : y ∈ seen
      · have hmem : x ∈ seen ++ y :: xs ↔ x ∈ seen ++ xs := by
          simp only [List.mem_append, List.mem_cons]
          constructor
          · rintro (h | rfl | h)
            exacts [.inl h, .inl hy, .inr h]
          · exact fun h => h.imp_right .inr
        simp only [List.cons_append, repeated, List.contains_iff_mem, hy, if_true, ih, hmem]
        split <;> rfl
      · have hmem : x ∈ y :: seen ++ xs ↔ x ∈ seen ++ y :: xs := by
          simp only [List.mem_append, List.mem_cons]
          tauto
        simp only [List.cons_append, repeated, List.contains_iff_mem, hy, if_false, ih]
        simp only [← List.cons_append, hmem]

theorem mem_repeated : y ∈ repeated [] xs ↔ 2 ≤ xs.count y := by
  induction xs using List.reverseRecOn with
  | nil => simp [repeated]
  | append_singleton xs x ih =>
      rw [repeated_snoc, List.nil_append, count_snoc]
      have hmem : x ∈ xs ↔ 0 < xs.count x := List.count_pos_iff.symm
      by_cases hx : x = y
      · subst hx
        rw [if_pos rfl]
        split
        · next hold =>
            exact iff_of_true (List.mem_append_right _ (List.mem_singleton_self x))
              (Nat.succ_le_succ (hmem.mp hold))
        · next hnew =>
          have hnone := mt hmem.mpr hnew
          rw [ih]
          omega
      · rw [if_neg hx, Nat.add_zero, ← ih]
        split
        · rw [List.mem_append, List.mem_singleton, or_iff_left (Ne.symm hx)]
        · rfl

/-- A further member is reported when it comes for the second time. -/
theorem duplicates_snoc (xs : List String) (x : String) :
    duplicates (xs ++ [x]) = if xs.count x = 1 then duplicates xs ++ [x] else duplicates xs := by
  rw [duplicates, duplicates, repeated_snoc, List.nil_append]
  have hmem : x ∈ xs ↔ 0 < xs.count x := List.count_pos_iff.symm
  by_cases hold : x ∈ xs
  · rw [if_pos hold, eraseDups_snoc]
    by_cases hmore : x ∈ repeated [] xs
    · have htwo := mem_repeated.mp hmore
      rw [if_pos hmore, if_neg (by omega)]
    · have hone := mt mem_repeated.mpr hmore
      have hsome := hmem.mp hold
      rw [if_neg hmore, if_pos (by omega)]
  · have hnone := mt hmem.mpr hold
    rw [if_neg hold, if_neg (by omega)]

theorem Repeats.snoc (h : Repeats xs ds) (x : String) :
    Repeats (xs ++ [x]) (if xs.count x = 1 then ds ++ [x] else ds) := by
  have hold : ds.Pairwise fun y z => ∃ i j, SecondAt (xs ++ [x]) y i ∧
      SecondAt (xs ++ [x]) z j ∧ i < j :=
    h.order.imp fun ⟨i, j, hi, hj, hlt⟩ => ⟨i, j, hi.snoc x, hj.snoc x, hlt⟩
  split
  · next hone =>
    have hnew : x ∉ ds := fun hx => by
      have := (h.mem x).mp hx
      omega
    refine ⟨?_, fun y => ?_, ?_⟩
    · rw [← List.concat_eq_append]
      exact h.nodup.concat hnew
    · rw [List.mem_append, List.mem_singleton, h.mem, count_snoc]
      by_cases hy : y = x
      · subst hy
        simp [hone]
      · simp [hy, Ne.symm hy]
    · refine List.pairwise_append.mpr ⟨hold, List.pairwise_singleton _ _, fun y hy z hz => ?_⟩
      obtain rfl := List.mem_singleton.mp hz
      obtain ⟨i, hi⟩ := exists_secondAt ((h.mem y).mp hy)
      exact ⟨i, xs.length, hi.snoc z, secondAt_last hone, hi.lt_length⟩
  · next hone =>
    refine ⟨h.nodup, fun y => ?_, hold⟩
    rw [h.mem, count_snoc]
    split
    · next hxy =>
      subst hxy
      omega
    · rw [Nat.add_zero]

theorem repeats_duplicates (xs : List String) : Repeats xs (duplicates xs) := by
  induction xs using List.reverseRecOn with
  -- on the last member, since a member is reported at its second place from the left
  | nil => exact ⟨.nil, by simp [duplicates, repeated], .nil⟩
  | append_singleton xs x ih =>
      rw [duplicates_snoc]
      exact ih.snoc x

theorem Repeats.eq_nil_iff (h : Repeats xs ds) : ds = [] ↔ xs.Nodup := by
  rw [List.eq_nil_iff_forall_not_mem, List.nodup_iff_count_le_one]
  refine forall_congr' fun x => ?_
  rw [h.mem, not_le, Nat.lt_succ_iff]

end Duplicates

/-- The pattern that a left side stands for: what a wrapper of one argument holds, else the left
side itself. -/
inductive Unwraps : Expr ν → Expr ν → Prop where
  | held (x : Expr ν) : Unwraps (.call "HoldPattern" [x]) x
  | plain {x : Expr ν} (h : ∀ y, x ≠ .call "HoldPattern" [y]) : Unwraps x x

inductive Defines (symbol : String) : Expr ν → String → Prop where
  | head (head : String) (args : List (Expr ν)) : Defines symbol (.call head args) head
  | symbol {x : Expr ν} (h : ∀ head args, x ≠ .call head args) : Defines symbol x symbol

theorem unwraps_held (x : Expr ν) : Unwraps x (held x) := by
  fun_cases held x with
  | case1 x => exact .held x
  | case2 x h => exact .plain h

theorem defines_headOf (symbol : String) (x : Expr ν) : Defines symbol x (headOf symbol x) := by
  fun_cases headOf symbol x with
  | case1 head args => exact .head head args
  | case2 x h => exact .symbol h

structure Extracted (t : Target) (rule : Rule ν) (pattern : Expr ν) (name : String)
    (s : Signature ν) : Prop where
  name : s.name = Identifier.ofName t name
  patterns : s.patterns = pattern.patternNames
  params : s.params = s.patterns.map (Identifier.ofName t)
  distinct : s.params.Nodup
  legal : ∀ p ∈ s.params, Identifier.IsPlain p ∧ p ∉ t.takenNames
  body : s.body = rule.rhs

variable {t : Target}

theorem ofRules_cons (symbol : String) (rule : Rule ν) (rest : List (Rule ν)) :
    let params := (held rule.lhs).patternNames.map (Identifier.ofName t)
    let name := Identifier.ofName t (headOf symbol (held rule.lhs))
    ofRules t symbol (rule :: rest) =
      if params.Nodup then .ok ⟨name, params, (held rule.lhs).patternNames, rule.rhs⟩
      else .error (.ambiguousSignature name (duplicates params)) := by
  intro params name
  rw [ofRules, Expr.patterns_eq_patternNames]
  have hnil : duplicates params = [] ↔ params.Nodup := (repeats_duplicates params).eq_nil_iff
  split
  · next h => rw [if_pos (hnil.mp h)]
  · next h => rw [if_neg fun hnodup => h (hnil.mpr hnodup)]

/-- Without a rule there is no definition. With one, only the first counts: it has a signature
exactly if the identifiers of its pattern variables differ, and else the error names those that come
up again. -/
theorem ofRules_exact (ht : t.IsPreset) (symbol : String) :
    ofRules t symbol ([] : List (Rule ν)) = .error (.noDefinitionFound symbol) ∧
    ∀ rule : Rule ν, ∃ pattern name, Unwraps rule.lhs pattern ∧ Defines symbol pattern name ∧
      ∀ rest, ofRules t symbol (rule :: rest) = ofRules t symbol [rule] ∧
        ((∃ s, ofRules t symbol (rule :: rest) = .ok s) ↔
          (pattern.patternNames.map (Identifier.ofName t)).Nodup) ∧
        (∀ s, ofRules t symbol (rule :: rest) = .ok s → Extracted t rule pattern name s) ∧
        ∀ d, ofRules t symbol (rule :: rest) = .error d →
          ∃ ds, d = .ambiguousSignature (Identifier.ofName t name) ds ∧
            Repeats (pattern.patternNames.map (Identifier.ofName t)) ds := by
  refine ⟨rfl, fun rule => ⟨held rule.lhs, headOf symbol (held rule.lhs), unwraps_held _,
    defines_headOf _ _, fun rest => ?_⟩⟩
  rw [ofRules_cons, ofRules_cons]
  refine ⟨rfl, ?_⟩
  split
  · next hnodup =>
    refine ⟨iff_of_true ⟨_, rfl⟩ hnodup, ?_, nofun⟩
    rintro _ ⟨⟩
    refine ⟨rfl, rfl, rfl, hnodup, fun p hp => ?_, rfl⟩
    obtain ⟨n, -, rfl⟩ := List.mem_map.mp hp
    exact ⟨Identifier.isPlain_ofName t n, Identifier.ofName_not_mem_takenNames ht.unextended n⟩
  · next hrepeated =>
    refine ⟨iff_of_false nofun hrepeated, nofun, ?_⟩
    rintro _ ⟨⟩
    exact ⟨_, rfl, repeats_duplicates _⟩

-- A variable deep in the left side becomes the identifier of another one.
theorem ofRules_exact_repeated :
    let rule : Rule Float :=
      ⟨.call "HoldPattern" [.call "f" [.pattern "x" none,
      .list [.pattern "y" none, .pattern "x$" none]]], .symbol "x"⟩
    Target.numpy.IsPreset ∧ ∃ ds, ofRules .numpy "f" [rule] = .error (.ambiguousSignature "f" ds) ∧
        Repeats ["x", "y", "x"] ds := by
  intro rule
  have hpreset : Target.numpy.IsPreset := ⟨.numpy, by decide, rfl⟩
  obtain ⟨pattern, name, hpattern, hname, h⟩ := (ofRules_exact hpreset "f").2 rule
  cases hpattern with
  | plain hplain => exact absurd rfl (hplain _)
  | held =>
      cases hname with
      | symbol hsymbol => exact absurd rfl (hsymbol _ _)
      | head =>
          obtain ⟨-, hok, -, herror⟩ := h []
          have hparams : ["x", "y", "x$"].map (Identifier.ofName .numpy) = ["x", "y", "x"] := by
            decide +kernel
          have hf : Identifier.ofName .numpy "f" = "f" := by decide +kernel
          cases hresult : ofRules .numpy "f" [rule] with
          | ok s =>
              have hnodup := hok.mp ⟨s, hresult⟩
              change (["x", "y", "x$"].map (Identifier.ofName .numpy)).Nodup at hnodup
              rw [hparams] at hnodup
              exact absurd hnodup (by decide)
          | error d =>
              obtain ⟨ds, rfl, hds⟩ := herror d hresult
              change Repeats (["x", "y", "x$"].map (Identifier.ofName .numpy)) ds at hds
              rw [hparams] at hds
              exact ⟨hpreset, ds, by rw [hf], hds⟩

end Signature

end Formulary
