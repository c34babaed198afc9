import Formulary.Definition
import Mathlib

namespace Formulary.Store

variable {ν : Type} {ds : List (String × Rule ν)} {s : Store ν} {d : String × Rule ν}

def rulesIn (ds : List (String × Rule ν)) (symbol : String) : List (Rule ν) :=
  (ds.filter (·.1 == symbol)).map (·.2)

/-- Every definition is there once, under its symbol and in its place. -/
structure Holds (s : Store ν) (ds : List (String × Rule ν)) : Prop where
  rules : ∀ symbol, s.rules symbol = rulesIn ds symbol
  nodup : s.symbols.Nodup
  mem : ∀ symbol, symbol ∈ s.symbols ↔ symbol ∈ ds.map (·.1)
  order : s.symbols.Pairwise fun a b => (ds.map (·.1)).idxOf a < (ds.map (·.1)).idxOf b

theorem rulesIn_concat (ds : List (String × Rule ν)) (d : String × Rule ν) (symbol : String) :
    rulesIn (ds ++ [d]) symbol = if d.1 = symbol then rulesIn ds symbol ++ [d.2]
      else rulesIn ds symbol := by
  rw [rulesIn, List.filter_append, List.map_append, rulesIn]
  by_cases hd : d.1 = symbol <;> simp [hd]

theorem rulesIn_eq_nil_iff {symbol : String} : rulesIn ds symbol = [] ↔ ∀ d ∈ ds, d.1 ≠ symbol := by
  rw [rulesIn, List.map_eq_nil_iff, List.filter_eq_nil_iff]
  simp only [beq_iff_eq, ne_eq]

theorem any_iff_mem_symbols {symbol : String} :
    s.entries.any (·.1 == symbol) = true ↔ symbol ∈ s.symbols := by
  rw [symbols, List.any_eq_true, List.mem_map]
  simp only [beq_iff_eq]

theorem symbols_add (s : Store ν) (symbol : String) (rule : Rule ν) :
    (s.add symbol rule).symbols = if symbol ∈ s.symbols then s.symbols
      else s.symbols ++ [symbol] := by
  rw [add]
  by_cases hknown : symbol ∈ s.symbols
  · rw [if_pos hknown, if_pos (any_iff_mem_symbols.mpr hknown), symbols, symbols, List.map_map]
    refine List.map_congr_left fun p _ => ?_
    rw [Function.comp_apply]
    split <;> rfl
  · rw [if_neg hknown, if_neg (mt any_iff_mem_symbols.mp hknown), symbols, List.map_append]
    rfl

theorem rules_eq_nil_or (s : Store ν) (symbol : String) :
    symbol ∉ s.symbols ∧ s.entries.find? (·.1 == symbol) = none ∧ s.rules symbol = [] ∨
      ∃ rs, symbol ∈ s.symbols ∧ s.entries.find? (·.1 == symbol) = some (symbol, rs) ∧
      s.rules symbol = rs := by
  cases hfind : s.entries.find? (·.1 == symbol) with
  | none =>
      refine .inl ⟨fun hmem => ?_, rfl, by rw [rules, hfind]; rfl⟩
      obtain ⟨p, hp, rfl⟩ := List.mem_map.mp hmem
      exact List.find?_eq_none.mp hfind p hp (beq_self_eq_true p.1)
  | some p =>
      have hsymbol := List.find?_some hfind
      obtain rfl : p.1 = symbol := beq_iff_eq.mp hsymbol
      exact .inr ⟨p.2, List.mem_map_of_mem (List.mem_of_find?_eq_some hfind), rfl,
        by rw [rules, hfind]; rfl⟩

theorem rules_add (s : Store ν) (symbol other : String) (rule : Rule ν) :
    (s.add symbol rule).rules other = if symbol = other then s.rules other ++ [rule]
      else s.rules other := by
  by_cases hknown : symbol ∈ s.symbols
  · rw [add, if_pos (any_iff_mem_symbols.mpr hknown), rules, List.find?_map]
    have hsame : ((·.1 == other) ∘ fun p : String × List (Rule ν) => if p.1 == symbol then (p.1,
        p.2 ++ [rule]) else p) = (·.1 == other) := by
      funext p
      rw [Function.comp_apply]
      split <;> rfl
    rw [hsame]
    obtain ⟨hnot, hfind, hrules⟩ | ⟨rs, -, hfind, hrules⟩ := s.rules_eq_nil_or other
    · rw [hfind, hrules, if_neg (by rintro rfl; exact hnot hknown)]
      rfl
    · rw [hfind, hrules]
      by_cases hsymbol : symbol = other
      · simp [hsymbol]
      · simp [hsymbol, Ne.symm hsymbol]
  · rw [add, if_neg (mt any_iff_mem_symbols.mp hknown), rules, List.find?_append]
    obtain ⟨-, hfind, hrules⟩ | ⟨rs, hmem, hfind, hrules⟩ := s.rules_eq_nil_or other
    · rw [hfind, hrules]
      by_cases hsymbol : symbol = other <;> simp [hsymbol]
    · rw [hfind, hrules, if_neg (by rintro rfl; exact hknown hmem)]
      rfl

theorem Holds.empty : Holds (.empty : Store ν) [] := ⟨fun _ => rfl, .nil, fun _ => Iff.rfl, .nil⟩

/-- A further definition goes to the end of the rules of its symbol, and a new symbol to the end of
the symbols. -/
theorem Holds.add (h : s.Holds ds) (d : String × Rule ν) : (s.add d.1 d.2).Holds (ds ++ [d]) where
  rules := by
    intro symbol
    rw [rules_add, rulesIn_concat, h.rules]
  nodup := by
    rw [symbols_add]
    split
    · exact h.nodup
    · next hnew =>
      rw [← List.concat_eq_append]
      exact h.nodup.concat hnew
  mem := by
    intro symbol
    rw [symbols_add, List.map_append, List.mem_append, ← h.mem]
    split
    · next hknown =>
        exact ⟨.inl, fun hmem => hmem.elim id fun hd => List.mem_singleton.mp hd ▸ hknown⟩
    · rw [List.mem_append]
      rfl
  order := by
    have hold : s.symbols.Pairwise fun a b =>
        ((ds ++ [d]).map (·.1)).idxOf a < ((ds ++ [d]).map (·.1)).idxOf b := by
      refine h.order.imp_of_mem fun {a b} ha hb hlt => ?_
      rwa [List.map_append, List.idxOf_append_of_mem ((h.mem a).mp ha),
        List.idxOf_append_of_mem ((h.mem b).mp hb)]
    rw [symbols_add]
    split
    · exact hold
    · next hnew =>
      refine List.pairwise_append.mpr ⟨hold, List.pairwise_singleton .., fun a ha b hb => ?_⟩
      rw [List.mem_singleton.mp hb, List.map_append, List.idxOf_append_of_mem ((h.mem a).mp ha),
        List.idxOf_append_of_notMem (mt (h.mem d.1).mpr hnew)]
      exact Nat.lt_add_right _ (List.idxOf_lt_length_iff.mpr ((h.mem a).mp ha))

theorem holds_ofDefinitions (ds : List (String × Rule ν)) : (ofDefinitions ds).Holds ds := by
  induction ds using List.reverseRecOn with
  | nil => exact .empty
  | append_singleton ds d ih =>
      rw [ofDefinitions, List.foldl_concat]
      exact ih.add d

theorem head?_rulesIn (ds : List (String × Rule ν)) (symbol : String) :
    (rulesIn ds symbol).head? = (ds.find? (·.1 == symbol)).map (·.2) := by
  rw [rulesIn, List.head?_map, List.head?_filter]

end Formulary.Store
