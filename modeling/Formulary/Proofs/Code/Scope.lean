import Formulary.Code.Emit
import Mathlib

namespace Formulary.Identifier.Scope

variable {t : Target} {names : List String} {name identifier : String}

theorem eraseDups_snoc {α : Type} [BEq α] [LawfulBEq α] (xs : List α) (x : α) :
    (xs ++ [x]).eraseDups = if x ∈ xs then xs.eraseDups else xs.eraseDups ++ [x] := by
  rw [List.eraseDups_append]
  split <;> simp_all [List.removeAll, List.eraseDups_cons]

theorem nodup_eraseDups {α : Type} [BEq α] [LawfulBEq α] (xs : List α) : xs.eraseDups.Nodup := by
  induction xs using List.reverseRecOn with
  | nil => exact .nil
  | append_singleton xs x ih =>
      rw [eraseDups_snoc]
      split
      · exact ih
      · next hx =>
        rw [← List.concat_eq_append]
        exact ih.concat fun h => hx (List.mem_eraseDups.mp h)

def behind (t : Target) (names : List String) (identifier : String) : List String :=
  (names.filter (ofName t · == identifier)).eraseDups

theorem mem_behind :
    name ∈ behind t names identifier ↔ name ∈ names ∧ ofName t name = identifier := by
  rw [behind, List.mem_eraseDups, List.mem_filter, beq_iff_eq]

theorem behind_snoc :
    behind t (names ++ [name]) identifier =
      if ofName t name = identifier ∧ name ∉ names then behind t names identifier ++ [name]
        else behind t names identifier := by
  unfold behind
  by_cases hi : ofName t name = identifier
  · have hlast : [name].filter (ofName t · == identifier) = [name] := by simp [hi]
    rw [List.filter_append, hlast, eraseDups_snoc]
    by_cases hmem : name ∈ names <;> simp [List.mem_filter, hi, hmem]
  · have hlast : [name].filter (ofName t · == identifier) = [] := by simp [hi]
    rw [List.filter_append, hlast, List.append_nil, if_neg fun h => hi h.1]

def entriesOf (t : Target) (names : List String) : List (String × List String) :=
  (names.map (ofName t)).eraseDups.map fun i => (i, behind t names i)

theorem insert_entriesOf :
    (Scope.mk t (entriesOf t names)).insert name = ⟨t, entriesOf t (names ++ [name])⟩ := by
  have hknown : ((entriesOf t names).any (·.1 == ofName t name)) = true ↔
      ofName t name ∈ names.map (ofName t) := by
    simp [entriesOf, List.any_map, List.any_eq_true, List.mem_eraseDups]
  unfold insert
  simp only [hknown]
  by_cases hmem : ofName t name ∈ names.map (ofName t)
  · rw [if_pos hmem, entriesOf, entriesOf, List.map_append, List.map_singleton, eraseDups_snoc,
      if_pos hmem, List.map_map]
    congr 1
    apply List.map_congr_left
    intro i _
    simp only [Function.comp_apply, behind_snoc, List.contains_iff_mem, mem_behind, beq_iff_eq]
    by_cases hi : ofName t name = i <;> by_cases hn : name ∈ names <;> simp [hi, hn, eq_comm (a := i)]
  · have hnew : name ∉ names := fun h => hmem (List.mem_map_of_mem h)
    have hnone : behind t names (ofName t name) = [] := by
      rw [List.eq_nil_iff_forall_not_mem]
      intro n hn
      obtain ⟨hn, heq⟩ := mem_behind.mp hn
      exact hmem (heq ▸ List.mem_map_of_mem hn)
    rw [if_neg hmem, entriesOf, entriesOf, List.map_append, List.map_singleton, eraseDups_snoc,
      if_neg hmem, List.map_append, List.map_singleton, behind_snoc, if_pos ⟨rfl, hnew⟩, hnone]
    congr 2
    apply List.map_congr_left
    intro i hi
    have hne : ofName t name ≠ i := fun h => hmem (h ▸ List.mem_eraseDups.mp hi)
    rw [behind_snoc, if_neg fun h => hne h.1]

theorem ofNames_eq : ofNames t names = ⟨t, entriesOf t names⟩ := by
  induction names using List.reverseRecOn with
  | nil => rfl
  | append_singleton names name ih =>
      rw [ofNames, List.foldl_append, ← ofNames, ih, List.foldl_cons, List.foldl_nil,
        insert_entriesOf]

def merged (t : Target) (names : List String) : List (String × List String) :=
  (entriesOf t names).filter fun p => 1 < p.2.length

theorem collisions_eq {ν : Type} :
    ((ofNames t names).collisions : List (Diagnostic ν)) = (merged t names).map fun p =>
      .identifierCollision p.1 p.2 := by
  rw [ofNames_eq]
  rfl

theorem nodup_merged : ((merged t names).map Prod.fst).Nodup := by
  have hall : (entriesOf t names).map Prod.fst = (names.map (ofName t)).eraseDups := by
    rw [entriesOf, List.map_map]
    exact List.map_id _
  have hsublist : ((merged t names).map Prod.fst).Sublist ((entriesOf t names).map Prod.fst) :=
    List.filter_sublist.map _
  rw [hall] at hsublist
  exact (nodup_eraseDups _).sublist hsublist

theorem mem_merged {ns : List String} :
    (identifier, ns) ∈ merged t names ↔ ns = behind t names identifier ∧ 1 < ns.length := by
  have hentry : (identifier, ns) ∈ entriesOf t names ↔ identifier ∈ names.map (ofName t) ∧
      ns = behind t names identifier := by
    simp only [entriesOf, List.mem_map, List.mem_eraseDups, Prod.mk.injEq]
    constructor
    · rintro ⟨i, hi, rfl, rfl⟩
      exact ⟨hi, rfl⟩
    · rintro ⟨hi, rfl⟩
      exact ⟨identifier, hi, rfl, rfl⟩
  rw [merged, List.mem_filter, hentry, decide_eq_true_eq]
  constructor
  · rintro ⟨⟨-, hns⟩, hlong⟩
    exact ⟨hns, hlong⟩
  · rintro ⟨rfl, hlong⟩
    obtain ⟨n, hn⟩ := List.exists_mem_of_length_pos (Nat.lt_of_succ_lt hlong)
    obtain ⟨hn, hi⟩ := mem_behind.mp hn
    exact ⟨⟨hi ▸ List.mem_map_of_mem hn, rfl⟩, hlong⟩

theorem nodup_behind : (behind t names identifier).Nodup := nodup_eraseDups _

theorem one_lt_length_behind : 1 < (behind t names identifier).length ↔
    ∃ a b, a ≠ b ∧ (a ∈ names ∧ ofName t a = identifier) ∧ b ∈ names ∧ ofName t b = identifier := by
  rw [← List.toFinset_card_of_nodup nodup_behind, Finset.one_lt_card_iff]
  simp only [List.mem_toFinset, mem_behind]
  constructor
  · rintro ⟨a, b, ha, hb, hne⟩
    exact ⟨a, b, hne, ha, hb⟩
  · rintro ⟨a, b, hne, ha, hb⟩
    exact ⟨a, b, ha, hb, hne⟩

theorem injective_of_collisions {ν : Type}
    (h : (ofNames t names).collisions = ([] : List (Diagnostic ν))) {a b : String} (ha : a ∈ names)
    (hb : b ∈ names) (hab : ofName t a = ofName t b) : a = b := by
  rw [collisions_eq, List.map_eq_nil_iff, List.eq_nil_iff_forall_not_mem] at h
  refine Classical.byContradiction fun hne => h (ofName t b, _) (mem_merged.mpr ⟨rfl, ?_⟩)
  exact one_lt_length_behind.mpr ⟨a, b, hne, ⟨ha, hab⟩, hb, rfl⟩

end Formulary.Identifier.Scope
