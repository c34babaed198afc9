import Formulary.Proofs.Code.Place
import Formulary.Proofs.Code.Scope
import Mathlib

namespace Formulary

variable {ν : Type}

namespace Expr

inductive IsNode (y : Expr ν) : Expr ν → Prop where
  | here : IsNode y y
  | part {x c : Expr ν} (hc : c ∈ x.children) (h : IsNode y c) : IsNode y x

theorem exists_frame {x c : Expr ν} (h : c ∈ x.children) : ∃ f : Frame ν, x = f.fill c := by
  cases x with
  | number | symbol | pattern => cases h
  | sum xs =>
      obtain ⟨before, after, rfl⟩ := List.append_of_mem h
      exact ⟨.term before after, rfl⟩
  | product xs =>
      obtain ⟨before, after, rfl⟩ := List.append_of_mem h
      exact ⟨.factor before after, rfl⟩
  | call head xs =>
      obtain ⟨before, after, rfl⟩ := List.append_of_mem h
      exact ⟨.argument head before after, rfl⟩
  | list xs =>
      obtain ⟨before, after, rfl⟩ := List.append_of_mem h
      exact ⟨.item before after, rfl⟩
  | negation x =>
      obtain rfl := List.mem_singleton.mp h
      exact ⟨.inner, rfl⟩
  | power b e =>
      rcases List.mem_pair.mp h with rfl | rfl
      · exact ⟨.base e, rfl⟩
      · exact ⟨.exponent b, rfl⟩

theorem mem_children_fill (f : Frame ν) (c : Expr ν) : c ∈ (f.fill c).children := by
  cases f with
  | term before after | factor before after | argument _ before after | item before after =>
      exact List.mem_append_right before List.mem_cons_self
  | base e => exact List.mem_cons_self
  | exponent b => exact List.mem_cons_of_mem b List.mem_cons_self
  | inner => exact List.mem_cons_self

theorem isNode_iff {x y : Expr ν} : y.IsNode x ↔ ∃ place, x = fill place y := by
  constructor
  · intro h
    induction h with
    | here => exact ⟨[], rfl⟩
    | part hc _ ih =>
        obtain ⟨place, rfl⟩ := ih
        obtain ⟨f, rfl⟩ := exists_frame hc
        exact ⟨f :: place, rfl⟩
  · rintro ⟨place, rfl⟩
    induction place with
    | nil => exact .here
    | cons f place ih => exact .part (mem_children_fill f _) ih

/-- What is found at a node and in the parts is found in the tree if it is at some node. -/
theorem mem_iff_exists_node {α : Type} {found own : Expr ν → List α}
    (h : ∀ x a, a ∈ found x ↔ a ∈ own x ∨ ∃ c ∈ x.children, a ∈ found c) (x : Expr ν) (a : α) :
    a ∈ found x ↔ ∃ y : Expr ν, y.IsNode x ∧ a ∈ own y := by
  constructor
  · have hevery : x.Every fun _ => True := .of_forall (fun _ => trivial) x
    induction hevery with
    | @intro x _ _ ih =>
        rw [h]
        rintro (hown | ⟨c, hc, ha⟩)
        · exact ⟨x, .here, hown⟩
        · obtain ⟨y, hy, hown⟩ := ih c hc ha
          exact ⟨y, .part hc hy, hown⟩
  · rintro ⟨y, hy, hown⟩
    induction hy with
    | here => exact (h y a).mpr (.inl hown)
    | @part x c hc _ ih => exact (h x a).mpr (.inr ⟨c, hc, ih⟩)

end Expr

namespace Target

variable {t : Target} {x : Expr ν} {name head : String}

theorem mem_callOrder {α : Type} {xs : List α} {a : α} : a ∈ t.callOrder head xs ↔ a ∈ xs := by
  match xs with
  | [] | [_] => rfl
  | [a, b] =>
      rw [callOrder]
      split
      · rw [List.mem_pair, List.mem_pair, or_comm]
      · rfl
  | a :: b :: c :: rest =>
      rw [callOrder]
      split
      · rw [List.mem_cons, mem_callOrder, ← List.mem_cons]
      · rfl

theorem namesAll_eq_map (xs : List (Expr ν)) : t.namesAll xs = xs.map t.names := by
  induction xs with
  | nil => rfl
  | cons x xs ih => rw [namesAll, ih, List.map_cons]

theorem unmappedHeadsAll_eq_map (xs : List (Expr ν)) :
    t.unmappedHeadsAll xs = xs.map t.unmappedHeads := by
  induction xs with
  | nil => rfl
  | cons x xs ih => rw [unmappedHeadsAll, ih, List.map_cons]

def ownNames (t : Target) : Expr ν → List String
  | .symbol s => if t.constants.contains s then [] else [s]
  | .pattern s _ => [s]
  | _ => []

def ownHeads (t : Target) : Expr ν → List String
  | .call head args => if t.isUnmapped head args.length then [head] else []
  | _ => []

theorem mem_names_step (x : Expr ν) (s : String) :
    s ∈ t.names x ↔ s ∈ t.ownNames x ∨ ∃ c ∈ x.children, s ∈ t.names c := by
  cases x <;> simp [names, ownNames, Expr.children, namesAll_eq_map, mem_callOrder]

theorem mem_unmappedHeads_step (x : Expr ν) (s : String) :
    s ∈ t.unmappedHeads x ↔ s ∈ t.ownHeads x ∨ ∃ c ∈ x.children, s ∈ t.unmappedHeads c := by
  cases x <;> simp [unmappedHeads, ownHeads, Expr.children, unmappedHeadsAll_eq_map, mem_callOrder]

/-- A name of the tree that is emitted as an identifier: that of a symbol which is no constant of
the target, or of a pattern. -/
def Declares (t : Target) (x : Expr ν) (name : String) : Prop :=
  (Expr.symbol name).IsNode x ∧ t.constants.contains name = false ∨
    ∃ head, (Expr.pattern name head).IsNode x

/-- A head of the tree with no callable. An arctangent of two arguments has one of its own. -/
def Unmapped (t : Target) (x : Expr ν) (head : String) : Prop :=
  t.functions.contains head = false ∧ ∃ args, (Expr.call head args).IsNode x ∧
    ¬ (head = "ArcTan" ∧ args.length = 2)

theorem mem_names_iff : name ∈ t.names x ↔ t.Declares x name := by
  rw [Expr.mem_iff_exists_node mem_names_step, Declares]
  constructor
  · rintro ⟨y, hy, hown⟩
    cases y with
    | symbol s =>
        rw [ownNames] at hown
        split at hown
        · cases hown
        · next hs =>
          obtain rfl := List.mem_singleton.mp hown
          exact .inl ⟨hy, Bool.eq_false_of_not_eq_true hs⟩
    | pattern s h =>
        obtain rfl := List.mem_singleton.mp hown
        exact .inr ⟨h, hy⟩
    | _ => cases hown
  · rintro (⟨hy, hname⟩ | ⟨h, hy⟩)
    · exact ⟨_, hy, by simp [ownNames, hname]⟩
    · exact ⟨_, hy, by simp [ownNames]⟩

theorem isUnmapped_iff {arity : Nat} :
    t.isUnmapped head arity = true ↔ t.functions.contains head = false ∧
    ¬ (head = "ArcTan" ∧ arity = 2) := by
  simp [isUnmapped, Decidable.imp_iff_not_or]

theorem mem_unmappedHeads_iff : head ∈ t.unmappedHeads x ↔ t.Unmapped x head := by
  rw [Expr.mem_iff_exists_node mem_unmappedHeads_step, Unmapped]
  constructor
  · rintro ⟨y, hy, hown⟩
    cases y with
    | call h args =>
        rw [ownHeads] at hown
        split at hown
        · next hunmapped =>
          obtain rfl := List.mem_singleton.mp hown
          obtain ⟨hnone, hother⟩ := isUnmapped_iff.mp hunmapped
          exact ⟨hnone, args, hy, hother⟩
        · cases hown
    | _ => cases hown
  · rintro ⟨hnone, args, hy, hother⟩
    refine ⟨_, hy, ?_⟩
    rw [ownHeads, if_pos (isUnmapped_iff.mpr ⟨hnone, hother⟩)]
    exact List.mem_singleton_self head

variable [Number ν]

/-- A name that is emitted has a place in the code where its identifier stands. -/
theorem exists_place_of_declares (h : t.Declares x name) :
    ∃ inCode, t.code x = Code.fill inCode (.name (Identifier.ofName t name)) := by
  rcases h with ⟨hnode, hname⟩ | ⟨head, hnode⟩
  · obtain ⟨place, rfl⟩ := Expr.isNode_iff.mp hnode
    obtain ⟨inCode, hplace⟩ := (piece_shows t place).rendering.code
    have hget : t.constants.get? name = none := by
      rwa [Table.contains_eq, Option.isSome_eq_false_iff, Option.isNone_iff_eq_none] at hname
    have hsymbol : t.symbolCode name = .name (Identifier.ofName t name) := by rw [symbolCode, hget]
    exact ⟨inCode, (hplace name).trans (by rw [hsymbol])⟩
  · obtain ⟨place, rfl⟩ := Expr.isNode_iff.mp hnode
    have hshows : Piece.Shows (fun s => .name (Identifier.ofName t s)) fun s =>
        t.piece (Expr.fill place (.pattern s head)) := by
      refine fill_shows t (fun s => ?_) (fun _ => rfl) ?_ ?_ place
      · rw [piece]
      all_goals
        intro _ _ heq
        cases heq
    obtain ⟨inCode, hplace⟩ := hshows.rendering.code
    exact ⟨inCode, hplace name⟩

/-- There is one warning for each head without a callable, and one error for each identifier that
two names or more become, which lists just these names. Without an error no two names are merged,
and each stands in the code as its identifier. -/
theorem emit_diagnostics_exact (t : Target) (x : Expr ν) :
    ∃ (heads : List String) (merged : List (String × List String)),
      (t.emit x).diagnostics = heads.map (.unmappedFunction t.name) ++
        merged.map (fun p => .identifierCollision p.1 p.2) ∧
      heads.Nodup ∧ (∀ head, head ∈ heads ↔ t.Unmapped x head) ∧
      (merged.map Prod.fst).Nodup ∧
      (∀ identifier, (∃ names, (identifier, names) ∈ merged) ↔ ∃ a b, a ≠ b ∧
        (t.Declares x a ∧ Identifier.ofName t a = identifier) ∧ t.Declares x b ∧
        Identifier.ofName t b = identifier) ∧
      (∀ identifier names, (identifier, names) ∈ merged →
        names.Nodup ∧
          ∀ name, name ∈ names ↔ t.Declares x name ∧ Identifier.ofName t name = identifier) ∧
      ((∀ identifier names, .identifierCollision identifier names ∉ (t.emit x).diagnostics) →
        ∀ a b, t.Declares x a → t.Declares x b →
          Identifier.ofName t a = Identifier.ofName t b → a = b) ∧
      ∀ name, t.Declares x name →
        ∃ inCode, t.code x = Code.fill inCode (.name (Identifier.ofName t name)) := by
  have hdiagnostics :
      (t.emit x).diagnostics = (t.unmappedHeads x).eraseDups.map (.unmappedFunction t.name) ++
      (Identifier.Scope.merged t (t.names x)).map fun p => .identifierCollision p.1 p.2 := by
    rw [← Identifier.Scope.collisions_eq]
    rfl
  refine ⟨(t.unmappedHeads x).eraseDups, Identifier.Scope.merged t (t.names x), hdiagnostics,
    Identifier.Scope.nodup_eraseDups _, ?_,
    Identifier.Scope.nodup_merged, ?_, ?_, ?_, fun name => exists_place_of_declares⟩
  · intro head
    rw [List.mem_eraseDups, mem_unmappedHeads_iff]
  · intro identifier
    simp only [← mem_names_iff, ← Identifier.Scope.one_lt_length_behind, Identifier.Scope.mem_merged]
    constructor
    · rintro ⟨_, rfl, hlong⟩
      exact hlong
    · exact fun hlong => ⟨_, rfl, hlong⟩
  · intro identifier names hmem
    obtain ⟨rfl, -⟩ := Identifier.Scope.mem_merged.mp hmem
    exact ⟨Identifier.Scope.nodup_behind,
      fun name => by rw [Identifier.Scope.mem_behind, mem_names_iff]⟩
  · intro hnone a b ha hb hab
    refine Identifier.Scope.injective_of_collisions (ν := ν) ?_ (mem_names_iff.mpr ha)
      (mem_names_iff.mpr hb) hab
    rw [Identifier.Scope.collisions_eq, List.map_eq_nil_iff, List.eq_nil_iff_forall_not_mem]
    rintro ⟨identifier, names⟩ hmem
    refine hnone identifier names ?_
    rw [hdiagnostics]
    exact List.mem_append_right _ (List.mem_map.mpr ⟨_, hmem, rfl⟩)

end Target

end Formulary
