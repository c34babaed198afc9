import Formulary.Proofs.Expr.Normal
import Formulary.Request.Schema

namespace Formulary

open Number

namespace Checked

variable {α β γ : Type} {c : Checked α} {a : α}

def Yields (c : Checked α) (a : α) : Prop := c.value = some a ∧ c.issues = []

theorem result_eq_ok_iff : c.result = .ok a ↔ c.Yields a := by
  obtain ⟨value, issues⟩ := c
  rw [result, Yields]
  cases value <;> cases issues <;> simp

@[simp] theorem yields_ok {b : α} : (ok a).Yields b ↔ a = b := by
  simp [Yields, ok]

@[simp] theorem not_yields_soft {m : String} {b : α} : ¬ (soft a m).Yields b := by
  simp [Yields, soft]

@[simp] theorem not_yields_hard {m : String} : ¬ (hard m : Checked α).Yields a := by
  simp [Yields, hard]

@[simp] theorem yields_under {key : String} : (c.under key).Yields a ↔ c.Yields a := by
  simp [Yields, under]

@[simp] theorem yields_map {f : α → β} {b : β} : (c.map f).Yields b ↔ ∃ a, c.Yields a ∧ f a = b := by
  simp [Yields, map, and_right_comm]

@[simp] theorem yields_map2 {f : α → β → γ} {d : Checked β} {b : γ} :
    (map2 f c d).Yields b ↔ ∃ x y, c.Yields x ∧ d.Yields y ∧ f x y = b := by
  obtain ⟨v, is⟩ := c
  obtain ⟨w, js⟩ := d
  cases v <;> cases w <;> simp [Yields, map2]
  tauto

theorem yields_sequence {index : ℕ} {cs : List (Checked α)} {as : List α} :
    (sequence index cs).Yields as ↔ List.Forall₂ Yields cs as := by
  induction cs generalizing index as with
  | nil => simp [sequence, eq_comm]
  | cons c cs ih =>
      simp only [sequence, yields_map2, yields_under, ih, List.forall₂_cons_left_iff]
      exact ⟨fun ⟨x, xs, hx, hxs, h⟩ => ⟨x, xs, hx, hxs, h.symm⟩,
        fun ⟨x, xs, hx, hxs, h⟩ => ⟨x, xs, hx, hxs, h.symm⟩⟩

end Checked

variable {ν : Type}

@[elab_as_elim]
theorem Json.induct {motive : Json ν → Prop} (null : motive .null) (bool : ∀ b, motive (.bool b))
    (number : ∀ x, motive (.number x)) (string : ∀ s, motive (.string s))
    (array : ∀ items, (∀ i ∈ items, motive i) → motive (.array items))
    (object : ∀ ms, (∀ m ∈ ms, motive m.2) → motive (.object ms)) (j : Json ν) : motive j :=
  @Json.rec ν motive (fun js => ∀ j ∈ js, motive j) (fun ms => ∀ m ∈ ms, motive m.2)
    (fun m => motive m.2) null bool number string
    array object (fun _ h => nomatch h)
      (fun _ _ hj hjs i hi => (List.mem_cons.mp hi).elim (fun h => h ▸ hj) (hjs i))
    (fun _ h => nomatch h) (fun _ _ hm hms n hn => (List.mem_cons.mp hn).elim (fun h => h ▸ hm)
      (hms n)) (fun _ _ hj => hj) j

variable [Number ν]

/-- The tree that a description spells out: nothing is reduced, flattened or dropped. -/
inductive Describes : Json ν → Expr ν → Prop where
  | bareNumber (x : ν) : Describes (.number x) (.number ⟨x, one⟩)
  | bareName {s : String} (nonempty : s ≠ "") : Describes (.string s) (.symbol s)
  | whole {ms : List (String × Json ν)} {p : ν} (tag : Json.lookup "tag" ms = some (.string "Num"))
      (num : Json.lookup "num" ms = some (.number p)) (den : Json.lookup "den" ms = none) :
      Describes (.object ms) (.number ⟨p, one⟩)
  | fraction {ms : List (String × Json ν)} {p q : ν}
      (tag : Json.lookup "tag" ms = some (.string "Num"))
      (num : Json.lookup "num" ms = some (.number p))
      (den : Json.lookup "den" ms = some (.number q)) (integer : isInteger q = true) :
      Describes (.object ms) (.number ⟨p, q⟩)
  | symbol {ms : List (String × Json ν)} {s : String}
      (tag : Json.lookup "tag" ms = some (.string "Symbol"))
      (name : Json.lookup "name" ms = some (.string s)) (nonempty : s ≠ "") :
      Describes (.object ms) (.symbol s)
  | sum {ms : List (String × Json ν)} {js : List (Json ν)} {ts : List (Expr ν)}
      (tag : Json.lookup "tag" ms = some (.string "Add"))
      (terms : Json.lookup "terms" ms = some (.array js)) (each : List.Forall₂ Describes js ts) :
      Describes (.object ms) (.sum ts)
  | product {ms : List (String × Json ν)} {js : List (Json ν)} {fs : List (Expr ν)}
      (tag : Json.lookup "tag" ms = some (.string "Mul"))
      (factors : Json.lookup "factors" ms = some (.array js))
      (each : List.Forall₂ Describes js fs) : Describes (.object ms) (.product fs)
  | power {ms : List (String × Json ν)} {i j : Json ν} {b e : Expr ν}
      (tag : Json.lookup "tag" ms = some (.string "Pow")) (base : Json.lookup "base" ms = some i)
      (exponent : Json.lookup "exponent" ms = some j) (left : Describes i b)
      (right : Describes j e) : Describes (.object ms) (.power b e)
  | call {ms : List (String × Json ν)} {js : List (Json ν)} {h : String} {xs : List (Expr ν)}
      (tag : Json.lookup "tag" ms = some (.string "Call"))
      (head : Json.lookup "head" ms = some (.string h)) (nonempty : h ≠ "")
      (args : Json.lookup "args" ms = some (.array js)) (each : List.Forall₂ Describes js xs) :
      Describes (.object ms) (.call h xs)
  | negation {ms : List (String × Json ν)} {j : Json ν} {x : Expr ν}
      (tag : Json.lookup "tag" ms = some (.string "Negate"))
      (inner : Json.lookup "inner" ms = some j) (described : Describes j x) :
      Describes (.object ms) (.negation x)
  | list {ms : List (String × Json ν)} {js : List (Json ν)} {xs : List (Expr ν)}
      (tag : Json.lookup "tag" ms = some (.string "List"))
      (items : Json.lookup "items" ms = some (.array js)) (each : List.Forall₂ Describes js xs) :
      Describes (.object ms) (.list xs)
  | pattern {ms : List (String × Json ν)} {s : String}
      (tag : Json.lookup "tag" ms = some (.string "Pattern"))
      (name : Json.lookup "name" ms = some (.string s)) (nonempty : s ≠ "")
      (head : Json.lookup "head" ms = none) : Describes (.object ms) (.pattern s none)
  | headedPattern {ms : List (String × Json ν)} {s h : String}
      (tag : Json.lookup "tag" ms = some (.string "Pattern"))
      (name : Json.lookup "name" ms = some (.string s)) (nonempty : s ≠ "")
      (head : Json.lookup "head" ms = some (.string h)) :
      Describes (.object ms) (.pattern s (some h))

namespace Schema

open Checked

variable {α : Type} {ms : List (String × Json ν)} {j : Json ν} {key : String}

@[simp] theorem yields_nonempty {s a : String} : (nonempty s).Yields a ↔ s ≠ "" ∧ s = a := by
  rw [nonempty]
  split <;> simp [*]

omit [Number ν] in
theorem yields_nonemptyString {a : String} :
    (nonemptyString j).Yields a ↔ j = .string a ∧ a ≠ "" := by
  cases j <;> simp [nonemptyString]
  exact ⟨fun ⟨hne, h⟩ => ⟨h, h ▸ hne⟩, fun ⟨h, hne⟩ => ⟨h ▸ hne, h⟩⟩

omit [Number ν] in
theorem yields_string {a : String} : (string j).Yields a ↔ j = .string a := by
  cases j <;> simp [string]

omit [Number ν] in
theorem yields_number {a : ν} : (number j).Yields a ↔ j = .number a := by
  cases j <;> simp [number]

theorem yields_integer {a : ν} : (integer j).Yields a ↔ j = .number a ∧ isInteger a = true := by
  cases j with
  | number x =>
      rw [integer]
      split
      · next h =>
        simp only [yields_ok, Json.number.injEq]
        exact ⟨fun hx => ⟨hx, hx ▸ h⟩, And.left⟩
      · next h =>
        simp only [not_yields_soft, Json.number.injEq, false_iff]
        rintro ⟨rfl, hx⟩
        exact h hx
  | _ => simp [integer]

def memberOf (j : Json ν) : Member ν := ⟨j, treePart j, treeListPart j⟩

theorem lookup_memberParts : lookup key (memberParts ms) = (Json.lookup key ms).map memberOf := by
  have hmap : memberParts ms = ms.map fun m => (m.1, memberOf m.2) := by
    induction ms with
    | nil => rfl
    | cons m ms ih =>
        obtain ⟨key, j⟩ := m
        rw [memberParts, ih, memberPart]
        rfl
  rw [lookup, Json.lookup, hmap, ← List.map_reverse, List.find?_map, Option.map_map, Option.map_map]
  rfl

theorem json_memberParts : (lookup key (memberParts ms)).map Member.json = Json.lookup key ms := by
  rw [lookup_memberParts, Option.map_map]
  exact Option.map_id'

theorem yields_plain {check : Json ν → Checked α} {a : α} :
    (plain check key (memberParts ms)).Yields a ↔ ∃ j, Json.lookup key ms = some j ∧
    (check j).Yields a := by
  rw [plain, yields_under, lookup_memberParts]
  cases Json.lookup key ms <;> simp [memberOf]

theorem yields_optional {check : Json ν → Checked α} {a : Option α} :
    (plain? check key (memberParts ms)).Yields a ↔
      Json.lookup key ms = none ∧ a = none ∨ ∃ j b, Json.lookup key ms = some j ∧
      (check j).Yields b ∧ a = some b := by
  rw [plain?, yields_under, lookup_memberParts]
  cases Json.lookup key ms <;> simp [memberOf, eq_comm]

theorem yields_child {x : Expr ν} :
    (child key (memberParts ms)).Yields x ↔ ∃ j, Json.lookup key ms = some j ∧
    (treePart j).Yields x := by
  rw [child, yields_under, lookup_memberParts]
  cases Json.lookup key ms <;> simp [memberOf]

theorem yields_treeListPart {xs : List (Expr ν)} :
    (treeListPart j).Yields xs ↔ ∃ items, j = .array items ∧
    List.Forall₂ (fun i x => (treePart i).Yields x) items xs := by
  have hparts (items : List (Json ν)) : treeParts items = items.map treePart := by
    induction items with
    | nil => rfl
    | cons i items ih => rw [treeParts, ih, List.map_cons]
  cases j with
  | array items =>
      rw [treeListPart, yields_sequence, hparts, List.forall₂_map_left_iff]
      simp
  | _ => simp [treeListPart]

theorem yields_childList {xs : List (Expr ν)} :
    (childList key (memberParts ms)).Yields xs ↔
      ∃ items, Json.lookup key ms = some (.array items) ∧
      List.Forall₂ (fun i x => (treePart i).Yields x) items xs := by
  rw [childList, yields_under, lookup_memberParts]
  cases Json.lookup key ms with
  | none => simp
  | some j => simp [memberOf, yields_treeListPart]

omit [Number ν] in
theorem mem_of_lookup (h : Json.lookup key ms = some j) : ∃ m ∈ ms, m.2 = j := by
  rw [Json.lookup, Option.map_eq_some_iff] at h
  obtain ⟨m, hfind, hj⟩ := h
  exact ⟨m, List.mem_reverse.mp (List.mem_of_find?_eq_some hfind), hj⟩

section Trees

variable {ms : List (String × Json Float)} {key : String}

def Faithful (j : Json Float) : Prop :=
  ∀ x, (treePart j).Yields x ↔ ∃ y, Describes j y ∧ y.rebuilt = x

theorem forall₂_yields_iff {items : List (Json Float)} (h : ∀ i ∈ items, Faithful i)
    {xs : List (Expr Float)} :
    List.Forall₂ (fun i x => (treePart i).Yields x) items xs ↔
      ∃ ys, List.Forall₂ Describes items ys ∧ ys.map Expr.rebuilt = xs := by
  induction items generalizing xs with
  | nil => simp [eq_comm]
  | cons i items ih =>
      have hi := h i List.mem_cons_self
      have hitems {xs : List (Expr Float)} :
          List.Forall₂ (fun i x => (treePart i).Yields x) items xs ↔
          ∃ ys, List.Forall₂ Describes items ys ∧ ys.map Expr.rebuilt = xs := ih fun k hk =>
            h k (List.mem_cons_of_mem _ hk)
      simp only [List.forall₂_cons_left_iff, hi _, hitems]
      constructor
      · rintro ⟨_, _, ⟨y, hy, rfl⟩, ⟨ys, hys, rfl⟩, rfl⟩
        exact ⟨y :: ys, ⟨y, ys, hy, hys, rfl⟩, rfl⟩
      · rintro ⟨_, ⟨y, ys, hy, hys, rfl⟩, rfl⟩
        exact ⟨_, _, ⟨y, hy, rfl⟩, ⟨ys, hys, rfl⟩, rfl⟩

section Nodes

variable (h : ∀ m ∈ ms, Faithful m.2 ∧ ∀ items, m.2 = .array items → ∀ i ∈ items, Faithful i)

include h

theorem yields_child_iff {x : Expr Float} : (child key (memberParts ms)).Yields x ↔
    ∃ j y, Json.lookup key ms = some j ∧ Describes j y ∧ y.rebuilt = x := by
  have hfaithful {j : Json Float} (hj : Json.lookup key ms = some j) : Faithful j := by
    obtain ⟨m, hm, rfl⟩ := mem_of_lookup hj
    exact (h m hm).1
  rw [yields_child]
  refine exists_congr fun j => ?_
  constructor
  · rintro ⟨hj, hx⟩
    obtain ⟨y, hy, hx⟩ := (hfaithful hj x).mp hx
    exact ⟨y, hj, hy, hx⟩
  · rintro ⟨y, hj, hy, hx⟩
    exact ⟨hj, (hfaithful hj x).mpr ⟨y, hy, hx⟩⟩

theorem yields_childList_iff {xs : List (Expr Float)} : (childList key (memberParts ms)).Yields xs ↔
    ∃ items ys, Json.lookup key ms = some (.array items) ∧ List.Forall₂ Describes items ys ∧
    Expr.rebuiltAll ys = xs := by
  have hfaithful {items : List (Json Float)} (hj : Json.lookup key ms = some (.array items)) :
      ∀ i ∈ items, Faithful i := by
    obtain ⟨m, hm, harray⟩ := mem_of_lookup hj
    exact (h m hm).2 items harray
  rw [yields_childList]
  refine exists_congr fun items => ?_
  simp only [Expr.rebuiltAll_eq_map]
  constructor
  · rintro ⟨hj, hxs⟩
    obtain ⟨ys, hys, hxs⟩ := (forall₂_yields_iff (hfaithful hj)).mp hxs
    exact ⟨ys, hj, hys, hxs⟩
  · rintro ⟨ys, hj, hys, hxs⟩
    exact ⟨hj, (forall₂_yields_iff (hfaithful hj)).mpr ⟨ys, hys, hxs⟩⟩

theorem describes_of_yields {x : Expr Float} (hyields : (treePart (.object ms)).Yields x) :
    ∃ y, Describes (.object ms) y ∧ y.rebuilt = x := by
  rw [treePart, node, json_memberParts] at hyields
  split at hyields
  · next tag =>
    obtain ⟨p, q, hp, hq, rfl⟩ := yields_map2.mp hyields
    obtain ⟨_, hnum, hp⟩ := yields_plain.mp hp
    obtain rfl := yields_number.mp hp
    rcases yields_optional.mp hq with ⟨hden, rfl⟩ | ⟨_, q, hden, hq', rfl⟩
    · exact ⟨_, .whole tag hnum hden, rfl⟩
    · obtain ⟨rfl, hinteger⟩ := yields_integer.mp hq'
      exact ⟨_, .fraction tag hnum hden hinteger, rfl⟩
  · next tag =>
    obtain ⟨s, hs, rfl⟩ := yields_map.mp hyields
    obtain ⟨_, hname, hs⟩ := yields_plain.mp hs
    obtain ⟨rfl, hne⟩ := yields_nonemptyString.mp hs
    exact ⟨_, .symbol tag hname hne, rfl⟩
  · next tag =>
    obtain ⟨xs, hxs, rfl⟩ := yields_map.mp hyields
    obtain ⟨items, ys, hterms, hys, rfl⟩ := (yields_childList_iff h).mp hxs
    exact ⟨_, .sum tag hterms hys, rfl⟩
  · next tag =>
    obtain ⟨xs, hxs, rfl⟩ := yields_map.mp hyields
    obtain ⟨items, ys, hfactors, hys, rfl⟩ := (yields_childList_iff h).mp hxs
    exact ⟨_, .product tag hfactors hys, rfl⟩
  · next tag =>
    obtain ⟨b, e, hb, he, rfl⟩ := yields_map2.mp hyields
    obtain ⟨i, b, hbase, hleft, rfl⟩ := (yields_child_iff h).mp hb
    obtain ⟨j, e, hexponent, hright, rfl⟩ := (yields_child_iff h).mp he
    exact ⟨_, .power tag hbase hexponent hleft hright, rfl⟩
  · next tag =>
    obtain ⟨f, xs, hf, hxs, rfl⟩ := yields_map2.mp hyields
    obtain ⟨_, hhead, hf⟩ := yields_plain.mp hf
    obtain ⟨rfl, hne⟩ := yields_nonemptyString.mp hf
    obtain ⟨items, ys, hargs, hys, rfl⟩ := (yields_childList_iff h).mp hxs
    exact ⟨_, .call tag hhead hne hargs hys, rfl⟩
  · next tag =>
    obtain ⟨y, hy, rfl⟩ := yields_map.mp hyields
    obtain ⟨j, y, hinner, hdescribed, rfl⟩ := (yields_child_iff h).mp hy
    exact ⟨_, .negation tag hinner hdescribed, rfl⟩
  · next tag =>
    obtain ⟨xs, hxs, rfl⟩ := yields_map.mp hyields
    obtain ⟨items, ys, hlist, hys, rfl⟩ := (yields_childList_iff h).mp hxs
    exact ⟨_, .list tag hlist hys, rfl⟩
  · next tag =>
    obtain ⟨s, h, hs, hh, rfl⟩ := yields_map2.mp hyields
    obtain ⟨_, hname, hs⟩ := yields_plain.mp hs
    obtain ⟨rfl, hne⟩ := yields_nonemptyString.mp hs
    rcases yields_optional.mp hh with ⟨hhead, rfl⟩ | ⟨_, h, hhead, hstring, rfl⟩
    · exact ⟨_, .pattern tag hname hne hhead, rfl⟩
    · obtain rfl := yields_string.mp hstring
      exact ⟨_, .headedPattern tag hname hne hhead, rfl⟩
  · exact absurd hyields not_yields_hard

theorem yields_of_describes {y : Expr Float} (hy : Describes (.object ms) y) :
    (treePart (.object ms)).Yields y.rebuilt := by
  rw [treePart, node, json_memberParts]
  cases hy with
  | whole tag num den =>
      rw [tag]
      exact yields_map2.mpr ⟨_, none, yields_plain.mpr ⟨_, num, yields_number.mpr rfl⟩,
        yields_optional.mpr (.inl ⟨den, rfl⟩), rfl⟩
  | fraction tag num den integer =>
      rw [tag]
      exact yields_map2.mpr ⟨_, some _, yields_plain.mpr ⟨_, num, yields_number.mpr rfl⟩,
        yields_optional.mpr (.inr ⟨_, _, den, yields_integer.mpr ⟨rfl, integer⟩, rfl⟩), rfl⟩
  | symbol tag name nonempty =>
      rw [tag]
      exact yields_map.mpr ⟨_,
        yields_plain.mpr ⟨_, name, yields_nonemptyString.mpr ⟨rfl, nonempty⟩⟩, rfl⟩
  | sum tag terms each =>
      rw [tag]
      exact yields_map.mpr ⟨_, (yields_childList_iff h).mpr ⟨_, _, terms, each, rfl⟩, rfl⟩
  | product tag factors each =>
      rw [tag]
      exact yields_map.mpr ⟨_, (yields_childList_iff h).mpr ⟨_, _, factors, each, rfl⟩, rfl⟩
  | power tag base exponent left right =>
      rw [tag]
      exact yields_map2.mpr ⟨_, _, (yields_child_iff h).mpr ⟨_, _, base, left, rfl⟩,
        (yields_child_iff h).mpr ⟨_, _, exponent, right, rfl⟩, rfl⟩
  | call tag head nonempty args each =>
      rw [tag]
      exact yields_map2.mpr ⟨_, _,
        yields_plain.mpr ⟨_, head, yields_nonemptyString.mpr ⟨rfl, nonempty⟩⟩,
        (yields_childList_iff h).mpr ⟨_, _, args, each, rfl⟩, rfl⟩
  | negation tag inner described =>
      rw [tag]
      exact yields_map.mpr ⟨_, (yields_child_iff h).mpr ⟨_, _, inner, described, rfl⟩, rfl⟩
  | list tag items each =>
      rw [tag]
      exact yields_map.mpr ⟨_, (yields_childList_iff h).mpr ⟨_, _, items, each, rfl⟩, rfl⟩
  | pattern tag name nonempty head =>
      rw [tag]
      exact yields_map2.mpr ⟨_, none,
        yields_plain.mpr ⟨_, name, yields_nonemptyString.mpr ⟨rfl, nonempty⟩⟩,
        yields_optional.mpr (.inl ⟨head, rfl⟩), rfl⟩
  | headedPattern tag name nonempty head =>
      rw [tag]
      exact yields_map2.mpr ⟨_, some _,
        yields_plain.mpr ⟨_, name, yields_nonemptyString.mpr ⟨rfl, nonempty⟩⟩,
        yields_optional.mpr (.inr ⟨_, _, head, yields_string.mpr rfl, rfl⟩), rfl⟩

end Nodes

theorem faithful (j : Json Float) : Faithful j := by
  have hboth : Faithful j ∧ ∀ items, j = .array items → ∀ i ∈ items, Faithful i := by
    have hnone {j : Json Float} (hj : treePart j = .hard treeMessage) (h : ∀ y, ¬ Describes j y) :
        Faithful j := by
      intro x
      rw [hj]
      exact iff_of_false not_yields_hard fun ⟨y, hy, _⟩ => h y hy
    induction j using Json.induct with
    | null => exact ⟨hnone rfl (by rintro y ⟨⟩), by rintro items ⟨⟩⟩
    | bool b => exact ⟨hnone rfl (by rintro y ⟨⟩), by rintro items ⟨⟩⟩
    | number p =>
        refine ⟨fun x => ?_, by rintro items ⟨⟩⟩
        have hp : (Expr.number ⟨p, one⟩ : Expr Float).rebuilt = .ofNumber p := by
          rw [Expr.rebuilt, Expr.ratio, Expr.ofNumber]
          exact congrArg Expr.number (Numeral.ratio_of_normal (Numeral.normal_ofNumber p))
        rw [treePart, yields_ok]
        constructor
        · rintro rfl
          exact ⟨_, .bareNumber p, hp⟩
        · rintro ⟨y, ⟨⟩, rfl⟩
          exact hp.symm
    | string s =>
        refine ⟨fun x => ?_, by rintro items ⟨⟩⟩
        rw [treePart, yields_map]
        constructor
        · rintro ⟨_, hs, rfl⟩
          obtain ⟨hne, rfl⟩ := yields_nonempty.mp hs
          exact ⟨_, .bareName hne, rfl⟩
        · rintro ⟨y, hy, rfl⟩
          cases hy with
          | bareName nonempty => exact ⟨s, yields_nonempty.mpr ⟨nonempty, rfl⟩, rfl⟩
    | array items ih =>
        refine ⟨hnone rfl (by rintro y ⟨⟩), ?_⟩
        rintro _ ⟨⟩ i hi
        exact (ih i hi).1
    | object ms ih =>
        refine ⟨fun x => ⟨describes_of_yields ih, ?_⟩, by rintro items ⟨⟩⟩
        rintro ⟨y, hy, rfl⟩
        exact yields_of_describes ih hy
  exact hboth.1

end Trees

end Schema

/-- A tree is made of a description exactly when it spells one out, and is that one, put together by
the constructors. -/
theorem Expr.ofJson_eq_ok_iff {j : Json Float} {x : Expr Float} :
    ofJson j = .ok x ↔ ∃ y, Describes j y ∧ y.rebuilt = x := by
  rw [ofJson, Checked.result_eq_ok_iff, ← Schema.faithful j x, Schema.tree]
  split
  · rfl
  · next h =>
    refine iff_of_false Checked.not_yields_hard fun hyields => h ?_
    rw [hyields.1]
    rfl

end Formulary
