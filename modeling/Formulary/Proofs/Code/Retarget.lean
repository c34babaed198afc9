import Formulary.Proofs.Code.Agreement
import Formulary.Proofs.Code.Decoding
import Formulary.Proofs.Code.Form

namespace Formulary

open Number

def Identifier.untaken (name : String) : String := String.ofList (mended (letters name))

theorem Identifier.ofName_eq (t : Target) (name : String) :
    ofName t name = if t.takenNames.contains (untaken name) then untaken name ++ "_"
      else untaken name := rfl

namespace Target

/-- What trees may hold to be read back alike for both targets: names that are taken by both or by
neither and that tables do not inherit, heads that both read back, at most two arguments where only
one target nests calls, sums of at least one term, and no patterns. -/
def Portable {ν : Type} (t u : Target) : Expr ν → Prop
  | .symbol s =>
    Table.isInherited s = false ∧
      (Identifier.untaken s ∈ t.takenNames ↔ Identifier.untaken s ∈ u.takenNames)
  | .sum ts => ts ≠ []
  | .call h args =>
    t.IsHead h ∧ u.IsHead h ∧ (t.name ≠ u.name → h = "Min" ∨ h = "Max" → args.length ≤ 2)
  | .pattern _ _ => False
  | _ => True

theorem Portable.writes {ν : Type} {t u : Target} {x : Expr ν} (h : t.Portable u x) :
    t.Writes x ∧ u.Writes x := by
  cases x with
  | sum ts => exact ⟨h, h⟩
  | symbol s => exact ⟨h.1, h.1⟩
  | call head args => exact ⟨h.1, h.2.1⟩
  | pattern s head => exact ⟨h, h⟩
  | _ => exact ⟨trivial, trivial⟩

variable {t u : Target}

theorem IsPreset.eq_of_name (ht : t.IsPreset) (hu : u.IsPreset) (hname : t.name = u.name) :
    u = { t with radical := u.radical } := by
  obtain ⟨p, hp, hpt⟩ := ht
  obtain ⟨q, hq, hqu⟩ := hu
  have hpq : p.name = q.name := by
    rw [hpt, hqu] at hname
    exact hname
  have hsame : ∀ p ∈ presets, ∀ q ∈ presets, p.name = q.name → p = q := by decide
  rw [hpt, hqu, hsame p hp q hq hpq]

theorem IsPreset.binaryHeads_subset (ht : t.IsPreset) :
    ∀ h ∈ t.binaryHeads, h = "Min" ∨ h = "Max" := by
  obtain ⟨p, hp, hpt⟩ := ht
  have hall : ∀ p ∈ presets, ∀ h ∈ p.binaryHeads, h = "Min" ∨ h = "Max" := by decide
  rw [hpt]
  exact hall p hp

theorem IsPreset.nests_iff (ht : t.IsPreset) (hu : u.IsPreset) {head : String} {n : ℕ}
    (h : t.name ≠ u.name → head = "Min" ∨ head = "Max" → n ≤ 2) :
    (t.Nests head ↔ u.Nests head) ∨ n ≤ 2 := by
  by_cases hname : t.name = u.name
  · rw [ht.eq_of_name hu hname]
    exact .inl Iff.rfl
  · by_cases hhead : head = "Min" ∨ head = "Max"
    · exact .inr (h hname hhead)
    · have hnot {v : Target} (hv : v.IsPreset) : ¬ v.Nests head := fun hnests =>
        hhead (hv.binaryHeads_subset head (by simpa using hnests.2))
      exact .inl (iff_of_false (hnot ht) (hnot hu))

section Words

variable (ht : t.Conventional)

include ht

theorem treeOfCode_nan : (t.treeOfCode (.ofText t.nan) : Expr Float) = .ofNumber Number.nan := by
  rw [Code.ofText_of_isName ht.isName_nan, treeOfCode_name, treeOfName, if_pos rfl]

theorem treeOfCode_infinity :
    (t.treeOfCode (.ofText t.infinity) : Expr Float) = .symbol "Infinity" := by
  rw [Code.ofText_of_isName ht.isName_infinity, treeOfCode_name, treeOfName,
    if_neg ht.infinity_ne_nan, ht.keyOf?_infinity]

theorem get?_root_iff {head : String} : t.functions.get? head = some t.rootCall ↔ head = "Sqrt" := by
  refine ⟨ht.eq_sqrt, ?_⟩
  rintro rfl
  exact ht.sqrt

end Words

theorem contains_constants (ht : t.Conventional) (hu : u.Conventional) (s : String) :
    t.constants.contains s = u.constants.contains s := by
  have hkeys (table : Table) :
      table.contains s = ((table.map Prod.fst).any (· == s) || Table.isInherited s) := by
    rw [Table.contains_eq, Table.get?, Option.isSome_or, Table.own?, Option.isSome_map,
      List.isSome_find?, List.any_map]
    rfl
  rw [hkeys, hkeys, ht.constantNames, hu.constantNames]

theorem binding_ofText (s : String) : (Code.ofText s).binding = .atom := by
  rw [Code.ofText]
  split <;> rfl

theorem binding_unsignedCode (x : Float) : (unsignedCode x).binding = .atom := by
  rw [unsignedCode]
  split <;> rfl

theorem ofText_agree {s s' : String}
    (h : (t.treeOfCode (.ofText s) : Expr Float) = u.treeOfCode (.ofText s')) :
    (Rendering.atom (.ofText s)).Agree t u (.atom (.ofText s')) := by
  have hatom (s : String) : (Code.ofText s).isProduct = false :=
    Code.isProduct_of_binding (binding_ofText s)
  exact .of_code (.whole (hatom s) (hatom s') h) (.inl rfl)

section Agreement

variable (ht : t.Conventional) (hu : u.Conventional)

include ht hu

theorem treeOfCode_unsignedCode {x : Float} (h : isNegative x = false) :
    (t.treeOfCode (unsignedCode x) : Expr Float) = u.treeOfCode (unsignedCode x) := by
  rcases unsignedCode_cases h with ⟨l, -, hcode⟩ | ⟨s, hs, hcode⟩ <;> rw [hcode]
  · rfl
  · rw [treeOfCode_name, treeOfCode_name, treeOfName_of_isIdentifier ht.toInvertible hs,
      treeOfName_of_isIdentifier hu.toInvertible hs]

theorem numberCode_agree (x : Float) : (numberCode x).Agree t u (numberCode x) := by
  have hatom (y : Float) : (unsignedCode y).isProduct = false :=
    Code.isProduct_of_binding (binding_unsignedCode y)
  rw [numberCode]
  split
  · next h =>
    refine .whole rfl rfl ?_
    rw [treeOfCode_negative, treeOfCode_negative,
      treeOfCode_unsignedCode ht hu (Double.isNegative_neg h)]
  · next h =>
      exact .whole (hatom x) (hatom x)
        (treeOfCode_unsignedCode ht hu (Bool.eq_false_of_not_eq_true h))

theorem unsignedNumeral_agree (n : Numeral Float) :
    (t.unsignedNumeral n).Agree t u (u.unsignedNumeral n) := by
  rw [unsignedNumeral, unsignedNumeral]
  by_cases hinfinite : isInfinite n.numerator = true
  · rw [if_pos hinfinite, if_pos hinfinite]
    exact ofText_agree ((treeOfCode_infinity ht).trans (treeOfCode_infinity hu).symm)
  · rw [if_neg hinfinite, if_neg hinfinite]
    split
    · exact .of_code (numberCode_agree ht hu _) (.inl rfl)
    · exact .of_code (.div (numberCode_agree ht hu _) (numberCode_agree ht hu _).tree) (.inl rfl)

theorem numeral_agree (n : Numeral Float) : (t.numeral n).Agree t u (u.numeral n) := by
  rw [numeral, numeral]
  by_cases hnan : isNaN n.numerator = true
  · rw [if_pos hnan, if_pos hnan]
    exact ofText_agree ((treeOfCode_nan ht).trans (treeOfCode_nan hu).symm)
  · rw [if_neg hnan, if_neg hnan]
    split
    · exact (unsignedNumeral_agree ht hu n.neg).negative
    · exact unsignedNumeral_agree ht hu n

theorem numeralFraction_agree (n : Numeral Float) :
    (t.numeralFraction n).Agree t u (u.numeralFraction n) := by
  have hunless {c : Prop} [Decidable c] {r s : Rendering} (h : r.Agree t u s) :
      List.Forall₂ (Rendering.Agree t u) (if c then [] else [r]) (if c then [] else [s]) := by
    split
    · exact .nil
    · exact .cons h .nil
  have hnumber (x : Float) : (Rendering.atom (numberCode x)).Agree t u (.atom (numberCode x)) :=
    .of_code (numberCode_agree ht hu x) (.inl rfl)
  simp only [numeralFraction]
  by_cases hnan : isNaN n.numerator = true
  · rw [if_pos hnan, if_pos hnan]
    exact Fraction.agree_ofRendering (numeral_agree ht hu n)
  · rw [if_neg hnan, if_neg hnan]
    by_cases hone : (n.denominator == one) = true
    · rw [if_pos hone, if_pos hone]
      exact ⟨rfl, hunless (unsignedNumeral_agree ht hu _), .nil⟩
    · rw [if_neg hone, if_neg hone]
      exact ⟨rfl, hunless (hnumber _), .cons (hnumber _) .nil⟩

end Agreement

/-- A power is read back as one, called as a square root or not; it stands wherever a power stands. -/
theorem power_spec (t : Target) (b e : Rendering) {half : Bool}
    (hhalf : half = true → (t.treeOfCode e.code : Expr Float) = .number .half) :
    (t.power b e half).code.isProduct = false ∧ .power ≤ (t.power b e half).binding ∧
      (t.power b e half).magnitude = none ∧
      (t.treeOfCode (t.power b e half).code : Expr Float) =
        .power (t.treeOfCode b.code) (t.treeOfCode e.code) := by
  have htree := t.treeOfCode_code_power (b := b) hhalf
  rw [power] at htree ⊢
  split
  · next hcall =>
    rw [if_pos hcall] at htree
    exact ⟨rfl, (by decide : Binding.power ≤ .atom), rfl, htree⟩
  · next hcall =>
    rw [if_neg hcall] at htree
    exact ⟨rfl, Nat.le_refl _, rfl, htree⟩

section Agreement

variable (ht : t.Conventional) (hu : u.Conventional) {b e b' e' : Rendering}

theorem power_agree (hb : b.Agree t u b') (he : e.Agree t u e') {half : Bool}
    (hhalf : half = true → (t.treeOfCode e.code : Expr Float) = .number .half) :
    (t.power b e half).Agree t u (u.power b' e' half) := by
  obtain ⟨hatom, hbinding, hmagnitude, htree⟩ := power_spec t b e hhalf
  obtain ⟨hatom', hbinding', hmagnitude', htree'⟩ := power_spec u b' e' fun h =>
    he.code.tree.symm.trans (hhalf h)
  refine ⟨.whole hatom hatom' ?_, .inr ⟨hbinding, hbinding'⟩, ?_⟩
  · rw [htree, htree', hb.code.tree, he.code.tree]
  · rw [hmagnitude, hmagnitude']
    exact .none

include ht hu

theorem numeralPower_agree (hb : b.Agree t u b') (n : Numeral Float) :
    (t.numeralPower b n).Agree t u (u.numeralPower b' n) :=
  power_agree hb (numeral_agree ht hu n) fun h => treeOfCode_half t h

theorem reciprocal_agree (hb : b.Agree t u b') (n : Numeral Float) :
    (t.reciprocal b n).Agree t u (u.reciprocal b' n) := by
  have hplain {c : Prop} [Decidable c] (m : Numeral Float) :
      (if c then b else t.numeralPower b m).Agree t u (if c then b' else u.numeralPower b' m) := by
    split
    · exact hb
    · exact numeralPower_agree ht hu hb m
  simp only [reciprocal]
  split
  · exact (Fraction.agree_below (hplain _)).rendering
  · exact hplain _

theorem symbolCode_agree {s : String} (h : t.Portable u (.symbol s : Expr Float)) :
    (Rendering.atom (t.symbolCode s)).Agree t u (.atom (u.symbolCode s)) := by
  have hatom (t : Target) : (t.symbolCode s).isProduct = false := by
    rw [symbolCode]
    split
    · exact Code.isProduct_of_binding (binding_ofText _)
    · rfl
  have hname : t.readName s = u.readName s := by
    rw [readName, readName, contains_constants ht hu, Identifier.ofName_eq, Identifier.ofName_eq]
    simp only [List.contains_iff_mem, h.2]
  refine .of_code (.whole (hatom t) (hatom u) ?_) (.inl rfl)
  rw [(symbolCode_spec ht.toInvertible Float h.1 .atom).2,
    (symbolCode_spec hu.toInvertible Float h.1 .atom).2, hname]

theorem listPiece_agree {cs ds : List Code}
    (h : (cs.map t.treeOfCode : List (Expr Float)) = ds.map u.treeOfCode) :
    (t.listPiece cs).Agree t u (u.listPiece ds) := by
  have hatom (t : Target) (cs : List Code) : (t.listPiece cs).rendering.code.isProduct = false := by
    simp only [listPiece, Rendering.atom]
    split <;> rfl
  have hlist : (t.treeOfCode (.list cs) : Expr Float) = u.treeOfCode (.list ds) := by
    rw [treeOfCode_list, treeOfCode_list, h]
  have htree : (t.treeOfCode (t.listPiece cs).rendering.code : Expr Float) =
      u.treeOfCode (u.listPiece ds).rendering.code :=
    (treeOfCode_listPiece ht.toInvertible cs).trans
      (hlist.trans (treeOfCode_listPiece hu.toInvertible ds).symm)
  have hr : (t.listPiece cs).rendering.Agree t u (u.listPiece ds).rendering :=
    .of_code (.whole (hatom t cs) (hatom u ds) htree) (.inl rfl)
  exact ⟨hr, Fraction.agree_ofRendering hr, hlist⟩

end Agreement

section Calls

theorem treeOfHead_eq {ν : Type} [Number ν] (ht : t.Conventional) (hu : u.Conventional)
    {head : String} (xs : List (Expr ν)) (h : (t.Nests head ↔ u.Nests head) ∨ xs.length ≤ 2) :
    t.treeOfHead head xs = u.treeOfHead head xs := by
  match xs with
  | [] => rfl
  | [x] => simp only [treeOfHead, get?_root_iff ht, get?_root_iff hu]
  | [base, x] =>
      have hlog : head = "Log" ∧ t.functions.contains head ↔
          head = "Log" ∧ u.functions.contains head := by
        refine and_congr_right ?_
        rintro rfl
        rw [ht.log, hu.log]
      simp only [treeOfHead, hlog]
  | first :: second :: third :: rest =>
      have hnests : t.Nests head ↔ u.Nests head := h.resolve_right (by simp)
      rw [treeOfHead, treeOfHead, treeOfHead_eq ht hu (second :: third :: rest) (.inl hnests)]
      simp only [hnests]

theorem binding_callCode (t : Target) {head : String} {args : List Code}
    (h : ¬ (head = "Log" ∧ args.length = 2)) : (t.callCode head args).binding = .atom := by
  match args with
  | [] =>
      rw [callCode_nil]
      rfl
  | [x] =>
      rw [callCode_single]
      rfl
  | [base, x] =>
      rw [callCode_pair, if_neg fun hlog => h ⟨hlog.1, rfl⟩]
      split <;> rfl
  | first :: second :: third :: rest =>
      rw [callCode_more]
      split <;> rfl

theorem callCode_agree (ht : t.Conventional) (hu : u.Conventional) {head : String}
    (hhead : t.IsHead head) (hhead' : u.IsHead head) {cs ds : List Code}
    (h : (cs.map t.treeOfCode : List (Expr Float)) = ds.map u.treeOfCode)
    (hnests : (t.Nests head ↔ u.Nests head) ∨ cs.length ≤ 2) :
    (Rendering.ofCode (t.callCode head cs)).Agree t u (.ofCode (u.callCode head ds)) := by
  have hlength : cs.length = ds.length := by simpa using congrArg List.length h
  -- A logarithm to a base is a quotient for both targets, and a sign in front goes to its first call.
  by_cases hlog : head = "Log" ∧ cs.length = 2
  · obtain ⟨rfl, hcs⟩ := hlog
    have hcallee {c d : Code} (hcd : (t.treeOfCode c : Expr Float) = u.treeOfCode d) :
        (t.treeOfCode (.call (t.callee "Log") [c]) : Expr Float) =
            u.treeOfCode (.call (u.callee "Log") [d]) := by
      rw [treeOfCode_callee ht.toInvertible hhead, treeOfCode_callee hu.toInvertible hhead']
      simp only [List.map_cons, List.map_nil, get?_root_iff ht, get?_root_iff hu, hcd]
    obtain ⟨base, x, rfl⟩ := List.length_eq_two.mp hcs
    obtain ⟨base', x', rfl⟩ := List.length_eq_two.mp (hlength.symm.trans hcs)
    simp only [List.map_cons, List.map_nil, List.cons.injEq, and_true] at h
    rw [callCode_pair, if_pos ⟨rfl, ht.log⟩, callCode_pair, if_pos ⟨rfl, hu.log⟩]
    exact .of_code (.div (.whole rfl rfl (hcallee h.2)) (hcallee h.1)) (.inl rfl)
  · have hatom := binding_callCode t hlog
    have hatom' : (u.callCode head ds).binding = .atom := binding_callCode u (by rwa [← hlength])
    refine .of_code (.whole (Code.isProduct_of_binding hatom) (Code.isProduct_of_binding hatom') ?_)
      (.inl (hatom.trans hatom'.symm))
    rw [treeOfCode_callCode ht.toInvertible hhead, treeOfCode_callCode hu.toInvertible hhead', h]
    exact treeOfHead_eq ht hu _ (by simpa [← hlength] using hnests)

end Calls

section Lists

variable {xs : List (Expr Float)} (h : ∀ x ∈ xs, (t.piece x).Agree t u (u.piece x))

include h

theorem renderings_agree :
    List.Forall₂ (Rendering.Agree t u) (t.renderings xs) (u.renderings xs) := by
  rw [renderings_eq_map, renderings_eq_map, List.forall₂_map_left_iff, List.forall₂_map_right_iff]
  exact List.forall₂_same.mpr fun x hx => (h x hx).rendering

theorem fractions_agree : (t.fractions xs).Agree t u (u.fractions xs) := by
  induction xs with
  | nil =>
      rw [fractions, fractions]
      exact Fraction.agree_one
  | cons x xs ih =>
      rw [fractions, fractions]
      exact (h x List.mem_cons_self).fraction.append (ih fun y hy => h y (List.mem_cons_of_mem _ hy))

theorem trees_of_elements :
    ((t.elements xs).map t.treeOfCode : List (Expr Float)) = (u.elements xs).map u.treeOfCode := by
  rw [elements_eq_map, elements_eq_map, List.map_map, List.map_map]
  exact List.map_congr_left fun x hx => (h x hx).element

omit h in
theorem trees_of_renderings {rs ss : List Rendering} (h : List.Forall₂ (Rendering.Agree t u) rs ss) :
    ((rs.map (·.code)).map t.treeOfCode : List (Expr Float)) =
      (ss.map (·.code)).map u.treeOfCode := by
  induction h with
  | nil => rfl
  | cons hr _ ih => rw [List.map_cons, List.map_cons, List.map_cons, List.map_cons, hr.code.tree, ih]

omit h in
theorem length_renderings (t : Target) (xs : List (Expr Float)) :
    (t.renderings xs).length = xs.length := by
  rw [renderings_eq_map, List.length_map]

end Lists

theorem piece_agree (ht : t.IsPreset) (hu : u.IsPreset) {x : Expr Float}
    (hx : x.Every (t.Portable u)) : (t.piece x).Agree t u (u.piece x) := by
  have ht' := ht.conventional
  have hu' := hu.conventional
  induction x using Expr.induct_forms with
  | number n =>
      rw [piece, piece]
      exact ⟨numeral_agree ht' hu' n, numeralFraction_agree ht' hu' n,
        (numeral_agree ht' hu' n).code.tree⟩
  | symbol s =>
      rw [piece, piece]
      exact Piece.agree_ofRendering (symbolCode_agree ht' hu' hx.here)
  | pattern s h => exact absurd hx.here (by simp [Portable])
  | sum ts ih =>
      rw [piece, piece]
      refine Piece.agree_ofRendering
        (Rendering.sum_agree (renderings_agree fun t hmem => ih t hmem (hx.parts t hmem)) ?_)
      rw [← List.length_pos_iff, length_renderings, List.length_pos_iff]
      exact hx.here
  | product fs ih =>
      rw [piece, piece]
      exact Piece.agree_ofFraction (fractions_agree fun f hmem => ih f hmem (hx.parts f hmem))
  | call h args ih =>
      obtain ⟨hhead, hhead', harity⟩ := hx.here
      have htrees := trees_of_renderings (renderings_agree fun a hmem => ih a hmem (hx.parts a hmem))
      rw [piece, piece]
      refine Piece.agree_ofRendering (callCode_agree ht' hu' hhead hhead' htrees ?_)
      rw [List.length_map, length_renderings]
      exact ht.nests_iff hu harity
  | list items ih =>
      rw [piece, piece]
      exact listPiece_agree ht' hu' (trees_of_elements fun i hmem => ih i hmem (hx.parts i hmem))
  | minusProduct fs ih =>
      have hproduct := ih (hx.parts (.product fs) List.mem_cons_self)
      rw [piece_minusProduct, piece_minusProduct]
      exact Piece.agree_ofFraction hproduct.fraction.flip
  | negation x hproduct ih =>
      have hpiece := ih (hx.parts x List.mem_cons_self)
      have hwithin := hpiece.rendering.within (by decide : Binding.power ≤ .power)
      have hnegative := (Rendering.Agree.of_code hwithin
        (.inl rfl : Binding.Close .power .power)).negative
      rw [piece_negation t hproduct, piece_negation u hproduct]
      exact ⟨hnegative, hpiece.fraction.flip, hnegative.code.tree⟩
  | numeralPower b n ih =>
      have hbase := (ih (hx.parts b Expr.base_mem_children)).rendering
      rw [piece, piece]
      split
      · exact Piece.agree_ofFraction (Fraction.agree_below (reciprocal_agree ht' hu' hbase n))
      · exact Piece.agree_ofRendering (numeralPower_agree ht' hu' hbase n)
  | power b e hnumber ihb ihe =>
      have hbase := (ihb (hx.parts b Expr.base_mem_children)).rendering
      have hexponent := (ihe (hx.parts e Expr.exponent_mem_children)).rendering
      rw [piece_power t b hnumber, piece_power u b hnumber]
      exact Piece.agree_ofRendering (power_agree hbase hexponent (by rintro ⟨⟩))

/-- Code that is emitted for any two targets, with square roots as calls or as powers, is read back
as the same tree. -/
theorem read_emit_portable (ht : t.IsPreset) (hu : u.IsPreset) {x : Expr Float}
    (hx : x.Every (t.Portable u)) :
    ∃ y : Expr Float, t.read (t.emit x).code = .ok y ∧ u.read (u.emit x).code = .ok y := by
  have hread {v : Target} (hv : v.IsPreset) (hwrites : x.Every v.Writes) :
      (v.read (v.emit x).code : Except CodeError (Expr Float)) = .ok (v.treeOfCode (v.code x)) := by
    rw [read, parse_emit hv hwrites]
    rfl
  have htree : (t.treeOfCode (t.code x) : Expr Float) = u.treeOfCode (u.code x) :=
    (piece_agree ht hu hx).rendering.code.tree
  refine ⟨t.treeOfCode (t.code x), hread ht (hx.imp fun _ h => h.writes.1), ?_⟩
  rw [htree]
  exact hread hu (hx.imp fun _ h => h.writes.2)

def cubedRoot : Expr Float :=
  .call "Max" [.power (.power (.symbol "x") (.number ⟨1, 2⟩)) (.number ⟨3, 1⟩), .symbol "y"]

theorem read_emit_portable_cubedRoot :
    (numpy.emit cubedRoot).code = "np.maximum(np.sqrt(x)**3, y)" ∧
      ({ math with radical := .power }.emit cubedRoot).code = "max((x**(1/2))**3, y)" ∧
      ∃ y : Expr Float, numpy.read "np.maximum(np.sqrt(x)**3, y)" = .ok y ∧
        { math with radical := .power }.read "max((x**(1/2))**3, y)" = .ok y := by
  have hcall : (numpy.emit cubedRoot).code = "np.maximum(np.sqrt(x)**3, y)" := by decide +kernel
  have hpower : ({ math with radical := .power }.emit cubedRoot).code =
      "max((x**(1/2))**3, y)" := by decide +kernel
  have hname : ∀ s ∈ ["x", "y"], Identifier.untaken s ∈ numpy.takenNames ↔
      Identifier.untaken s ∈ math.takenNames := by
    decide +kernel
  have hroot : (.power (.symbol "x") (.number ⟨1, 2⟩) : Expr Float).Every
      (numpy.Portable { math with radical := .power }) :=
    .intro trivial (List.forall_mem_cons.mpr ⟨.leaf ⟨by decide, hname "x" (by decide)⟩ rfl,
      List.forall_mem_singleton.mpr (.leaf trivial rfl)⟩)
  have hcubed : (.power (.power (.symbol "x") (.number ⟨1, 2⟩)) (.number ⟨3, 1⟩) : Expr Float).Every
      (numpy.Portable { math with radical := .power }) :=
    .intro trivial (List.forall_mem_cons.mpr ⟨hroot,
      List.forall_mem_singleton.mpr (.leaf trivial rfl)⟩)
  have hportable : cubedRoot.Every (numpy.Portable { math with radical := .power }) :=
    .intro ⟨⟨by decide, .inl (by decide)⟩, ⟨by decide, .inl (by decide)⟩, fun _ _ => Nat.le_refl 2⟩
      (List.forall_mem_cons.mpr ⟨hcubed,
        List.forall_mem_singleton.mpr (.leaf ⟨by decide, hname "y" (by decide)⟩ rfl)⟩)
  obtain ⟨y, hnumpy, hmath⟩ :=
    read_emit_portable ⟨numpy, by decide, rfl⟩ ⟨math, by decide, rfl⟩ hportable
  rw [hcall] at hnumpy
  rw [hpower] at hmath
  exact ⟨hcall, hpower, y, hnumpy, hmath⟩

end Target

end Formulary
