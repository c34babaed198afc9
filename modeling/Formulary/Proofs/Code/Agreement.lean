import Formulary.Proofs.Code.Value

namespace Formulary

def Binding.Close (b b' : Binding) : Prop := b = b' ∨ .power ≤ b ∧ .power ≤ b'

theorem Binding.Close.le_iff {b b' need : Binding} (h : b.Close b') (hneed : need ≤ .power) :
    need ≤ b ↔ need ≤ b' := by
  rcases h with rfl | ⟨hb, hb'⟩
  · rfl
  · exact ⟨fun _ => Nat.le_trans hneed hb', fun _ => Nat.le_trans hneed hb⟩

def Code.isProduct (c : Code) : Bool := c.binding == .product

/-- Code that is read as the same tree, with a sign in front or not. -/
inductive Code.Agree (t u : Target) : Code → Code → Prop where
  | mul {l l' r r' : Code} (left : Agree t u l l')
      (right : (t.treeOfCode r : Expr Float) = u.treeOfCode r') : Agree t u (.mul l r) (.mul l' r')
  | div {l l' r r' : Code} (left : Agree t u l l')
      (right : (t.treeOfCode r : Expr Float) = u.treeOfCode r') : Agree t u (.div l r) (.div l' r')
  | whole {c d : Code} (hc : c.isProduct = false) (hd : d.isProduct = false)
      (tree : (t.treeOfCode c : Expr Float) = u.treeOfCode d) : Agree t u c d

structure Rendering.Agree (t u : Target) (r s : Rendering) : Prop where
  code : Code.Agree t u r.code s.code
  binding : r.binding.Close s.binding
  magnitude : Option.Rel (fun p q => Code.Agree t u p.1 q.1 ∧ p.2.Close q.2) r.magnitude s.magnitude

structure Fraction.Agree (t u : Target) (f g : Fraction) : Prop where
  negated : f.negated = g.negated
  top : List.Forall₂ (Rendering.Agree t u) f.top g.top
  bottom : List.Forall₂ (Rendering.Agree t u) f.bottom g.bottom

structure Piece.Agree (t u : Target) (p q : Piece) : Prop where
  rendering : p.rendering.Agree t u q.rendering
  fraction : p.fraction.Agree t u q.fraction
  element : (t.treeOfCode p.element : Expr Float) = u.treeOfCode q.element

variable {t u : Target}

namespace Code

variable {c d : Code}

theorem negated_of_isProduct (h : c.isProduct = false) : c.negated = .negative c := by
  cases c with
  | mul l r => cases h
  | div l r => cases h
  | _ => rfl

theorem isProduct_of_binding (h : c.binding = .atom) : c.isProduct = false := by
  rw [isProduct, h]
  rfl

theorem Agree.tree (h : Agree t u c d) : (t.treeOfCode c : Expr Float) = u.treeOfCode d := by
  induction h with
  | mul _ right ih => rw [Target.treeOfCode_mul, Target.treeOfCode_mul, ih, right]
  | div _ right ih => rw [Target.treeOfCode_div, Target.treeOfCode_div, ih, right]
  | whole _ _ tree => exact tree

theorem Agree.negated (h : Agree t u c d) : Agree t u c.negated d.negated := by
  induction h with
  | mul _ right ih => exact .mul ih right
  | div _ right ih => exact .div ih right
  | whole hc hd tree =>
      rw [negated_of_isProduct hc, negated_of_isProduct hd]
      refine .whole rfl rfl ?_
      rw [Target.treeOfCode_negative, Target.treeOfCode_negative, tree]

/-- Parentheses may be put around one, or around both. -/
theorem Agree.paren (h : (t.treeOfCode c : Expr Float) = u.treeOfCode d) :
    Agree t u (.paren c) (.paren d) :=
  .whole rfl rfl h

theorem Agree.wrap (h : Agree t u c d) {b b' need : Binding} (hb : b.Close b')
    (hneed : need ≤ .power) : Agree t u (Rendering.wrap c b need) (Rendering.wrap d b' need) := by
  rw [Rendering.wrap, Rendering.wrap]
  by_cases hle : need ≤ b
  · rw [if_pos hle, if_pos ((hb.le_iff hneed).mp hle)]
    exact h
  · rw [if_neg hle, if_neg fun hle' => hle ((hb.le_iff hneed).mpr hle')]
    exact .paren h.tree

end Code

namespace Rendering

variable {r s : Rendering}

theorem Agree.of_code {c d : Code} {b b' : Binding} (hc : c.Agree t u d) (hb : b.Close b') :
    Agree t u ⟨c, b, none⟩ ⟨d, b', none⟩ :=
  ⟨hc, hb, .none⟩

theorem Agree.within (h : r.Agree t u s) {need : Binding} (hneed : need ≤ .power) :
    (r.within need).Agree t u (s.within need) :=
  h.code.wrap h.binding hneed

theorem Agree.negative (h : r.Agree t u s) : r.negative.Agree t u s.negative := by
  -- The sign binds as a unary one does where the operand binds more tightly, so that close
  -- strengths become the same.
  have hclose : (if r.binding ≤ .unary then r.binding else .unary).Close (if s.binding ≤
      .unary then s.binding else .unary) := by
    rcases h.binding with hb | ⟨hr, hs⟩
    · exact .inl (by rw [hb])
    · have hnot {b : Binding} (hb : .power ≤ b) : ¬ b ≤ .unary := fun hle =>
        absurd (Nat.le_trans hb hle) (by decide)
      rw [if_neg (hnot hr), if_neg (hnot hs)]
      exact .inl rfl
  rw [Rendering.negative, Rendering.negative]
  by_cases hle : .product ≤ r.binding
  · rw [if_pos hle, if_pos ((h.binding.le_iff (by decide)).mp hle)]
    exact ⟨h.code.negated, hclose, .some ⟨h.code, h.binding⟩⟩
  · rw [if_neg hle, if_neg fun hle' => hle ((h.binding.le_iff (by decide)).mpr hle')]
    have hparen : Code.Agree t u (.paren r.code) (.paren s.code) := .paren h.code.tree
    exact ⟨hparen.negated, .inl rfl, .some ⟨hparen, .inl rfl⟩⟩

theorem Agree.addTo (h : r.Agree t u s) {left left' : Code} (hleft : left.Agree t u left') :
    (addTo left r).Agree t u (addTo left' s) := by
  have hmagnitude := h.magnitude
  have hwithin := (h.within (by decide : Binding.product ≤ .power)).tree
  rw [Rendering.addTo, Rendering.addTo]
  generalize r.magnitude = m at hmagnitude
  generalize s.magnitude = m' at hmagnitude
  cases hmagnitude with
  | none =>
      refine .whole rfl rfl ?_
      rw [Target.treeOfCode_add, Target.treeOfCode_add, hleft.tree, hwithin]
  | some hmagnitude =>
      refine .whole rfl rfl ?_
      rw [Target.treeOfCode_sub, Target.treeOfCode_sub, hleft.tree,
        (hmagnitude.1.wrap hmagnitude.2 (by decide)).tree]

theorem sum_agree {rs ss : List Rendering} (h : List.Forall₂ (Rendering.Agree t u) rs ss)
    (hne : rs ≠ []) : (sum rs).Agree t u (sum ss) := by
  have hfold {rs ss : List Rendering} (h : List.Forall₂ (Rendering.Agree t u) rs ss)
      {left left' : Code} (hleft : left.Agree t u left') :
      (rs.foldl Rendering.addTo left).Agree t u (ss.foldl Rendering.addTo left') := by
    induction h generalizing left left' with
    | nil => exact hleft
    | cons hr _ ih => exact ih (hr.addTo hleft)
  cases h with
  | nil => exact absurd rfl hne
  | cons hr hrs => exact .of_code (hfold hrs hr.code) (.inl rfl)

theorem chain_agree {rs ss : List Rendering} (h : List.Forall₂ (Rendering.Agree t u) rs ss) :
    (chain rs).Agree t u (chain ss) := by
  have hfold {rs ss : List Rendering} (h : List.Forall₂ (Rendering.Agree t u) rs ss) {c d : Code}
      (hc : c.Agree t u d) :
      (Code.chain c (rs.map (·.within .power))).Agree t u
          (Code.chain d (ss.map (·.within .power))) := by
    induction h generalizing c d with
    | nil => exact hc
    | cons hr _ ih => exact ih (.mul hc (hr.within (by decide)).tree)
  cases h with
  | nil => exact .whole rfl rfl rfl
  | cons hr hrs => exact hfold hrs (hr.within (by decide))

end Rendering

namespace Fraction

variable {f g f' g' : Fraction} {r s : Rendering}

theorem agree_ofRendering (h : r.Agree t u s) : (ofRendering r).Agree t u (ofRendering s) :=
  ⟨rfl, .cons h .nil, .nil⟩

theorem agree_one : one.Agree t u one := ⟨rfl, .nil, .nil⟩

theorem agree_below (h : r.Agree t u s) : Agree t u ⟨false, [], [r]⟩ ⟨false, [], [s]⟩ :=
  ⟨rfl, .nil, .cons h .nil⟩

theorem Agree.flip (h : f.Agree t u g) : f.flip.Agree t u g.flip :=
  ⟨congrArg Bool.not h.negated, h.top, h.bottom⟩

theorem Agree.append (h : f.Agree t u g) (h' : f'.Agree t u g') :
    (f.append f').Agree t u (g.append g') :=
  ⟨congrArg₂ Bool.xor h.negated h'.negated, List.rel_append h.top h'.top,
    List.rel_append h.bottom h'.bottom⟩

theorem below_agree {rs ss : List Rendering} (h : List.Forall₂ (Rendering.Agree t u) rs ss) :
    (t.treeOfCode (below rs) : Expr Float) = u.treeOfCode (below ss) := by
  have hparen : (t.treeOfCode (.paren (Rendering.chain rs)) : Expr Float) =
      u.treeOfCode (.paren (Rendering.chain ss)) :=
    (Rendering.chain_agree h).tree
  cases h with
  | nil => exact hparen
  | cons hr hrs =>
      cases hrs with
      | nil => exact (hr.within (by decide)).tree
      | cons => exact hparen

theorem Agree.body (h : f.Agree t u g) : f.body.Agree t u g.body := by
  obtain ⟨negated, top, bottom⟩ := f
  obtain ⟨negated', top', bottom'⟩ := g
  obtain ⟨-, htop, hbottom⟩ := h
  have hchain := Rendering.chain_agree htop
  have hbelow := below_agree hbottom
  cases hbottom with
  | nil =>
      cases htop with
      | nil => exact .of_code (.whole rfl rfl rfl) (.inl rfl)
      | cons hr hrs =>
          cases hrs with
          | nil => exact hr
          | cons => exact .of_code hchain (.inl rfl)
  | cons => exact .of_code (.div hchain hbelow) (.inl rfl)

theorem Agree.rendering (h : f.Agree t u g) : f.rendering.Agree t u g.rendering := by
  rw [Fraction.rendering, Fraction.rendering, h.negated]
  split
  · exact h.body.negative
  · exact h.body

end Fraction

namespace Piece

theorem agree_ofRendering {r s : Rendering} (h : r.Agree t u s) :
    (ofRendering r).Agree t u (ofRendering s) :=
  ⟨h, Fraction.agree_ofRendering h, h.code.tree⟩

theorem agree_ofFraction {f g : Fraction} (h : f.Agree t u g) :
    (ofFraction f).Agree t u (ofFraction g) :=
  ⟨h.rendering, h, h.rendering.code.tree⟩

end Piece

end Formulary
