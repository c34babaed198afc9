import Formulary.Proofs.Code.Grammar

namespace Formulary.Code

inductive Rule where
  | sum
  | terms
  | product
  | factors
  | unary
  | power
  | primary
  | sequence
  | items

inductive Derives : Rule → List Token → Prop where
  | sum {ts us} (h : Derives .product ts) (hs : Derives .terms us) : Derives .sum (ts ++ us)
  | noTerms : Derives .terms []
  | term {t ts us} (ht : t.kind = .plus ∨ t.kind = .minus) (h : Derives .product ts)
      (hs : Derives .terms us) : Derives .terms (t :: (ts ++ us))
  | product {ts us} (h : Derives .unary ts) (hs : Derives .factors us) : Derives .product (ts ++ us)
  | noFactors : Derives .factors []
  | factor {t ts us} (ht : t.kind = .star ∨ t.kind = .slash) (h : Derives .unary ts)
      (hs : Derives .factors us) : Derives .factors (t :: (ts ++ us))
  | negative {t ts} (ht : t.kind = .minus) (h : Derives .unary ts) : Derives .unary (t :: ts)
  | positive {t ts} (ht : t.kind = .plus) (h : Derives .unary ts) : Derives .unary (t :: ts)
  | unsigned {ts} (h : Derives .power ts) : Derives .unary ts
  | base {ts} (h : Derives .primary ts) : Derives .power ts
  | power {t ts us} (h : Derives .primary ts) (ht : t.kind = .power) (hs : Derives .unary us) :
      Derives .power (ts ++ t :: us)
  | number {t} (ht : t.kind = .number) : Derives .primary [t]
  | imaginary {t} (ht : t.kind = .imaginary) : Derives .primary [t]
  | paren {u v ts} (hu : u.kind = .leftParen) (h : Derives .sum ts) (hv : v.kind = .rightParen) :
      Derives .primary (u :: (ts ++ [v]))
  | list {u v ts} (hu : u.kind = .leftBracket) (h : Derives .sequence ts)
      (hv : v.kind = .rightBracket) : Derives .primary (u :: (ts ++ [v]))
  | name {t} (ht : t.kind = .identifier) : Derives .primary [t]
  | call {t u v ts} (ht : t.kind = .identifier) (hu : u.kind = .leftParen)
      (h : Derives .sequence ts) (hv : v.kind = .rightParen) :
      Derives .primary (t :: u :: (ts ++ [v]))
  | nothing : Derives .sequence []
  | sequence {ts us} (h : Derives .sum ts) (hs : Derives .items us) : Derives .sequence (ts ++ us)
  | noItems : Derives .items []
  | item {t ts us} (ht : t.kind = .comma) (h : Derives .sum ts) (hs : Derives .items us) :
      Derives .items (t :: (ts ++ us))

/-- The tokens spell a tree of the rule; those of a repetition, put after the tokens of a tree,
spell a longer one. -/
def Rule.Spells : Rule → List Token → Prop
  | .sum, ts => ∃ c, Spelled (.code .sum c) ts
  | .terms, us => ∀ l ts, Spelled (.code .sum l) ts → ∃ c, Spelled (.code .sum c) (ts ++ us)
  | .product, ts => ∃ c, Spelled (.code .product c) ts
  | .factors, us => ∀ l ts, Spelled (.code .product l) ts → ∃ c, Spelled (.code .product c) (ts ++ us)
  | .unary, ts => ∃ c, Spelled (.code .unary c) ts
  | .power, ts => ∃ c, Spelled (.code .power c) ts
  | .primary, ts => ∃ c, Spelled (.code .atom c) ts
  | .sequence, ts => ∃ cs, Spelled (.sequence cs) ts
  | .items, us =>
    ∀ c ts, Spelled (.code .sum c) ts → ∃ cs, cs ≠ [] ∧ Spelled (.sequence cs) (ts ++ us)

theorem Derives.spells {r : Rule} {ts : List Token} (h : Derives r ts) : r.Spells ts := by
  induction h with
  | sum _ _ ih ihs =>
      obtain ⟨l, hl⟩ := ih
      exact ihs l _ (hl.mono (by decide))
  | noTerms => exact fun l ts hl => ⟨l, by rwa [List.append_nil]⟩
  | @term t us vs ht _ _ ih ihs =>
      intro l ts hl
      obtain ⟨r, hr⟩ := ih
      rw [← List.cons_append, ← List.append_assoc]
      rcases ht with ht | ht
      · exact ihs (.add l r) _ (.add (by decide) hl ht hr)
      · exact ihs (.sub l r) _ (.sub (by decide) hl ht hr)
  | product _ _ ih ihs =>
      obtain ⟨l, hl⟩ := ih
      exact ihs l _ (hl.mono (by decide))
  | noFactors => exact fun l ts hl => ⟨l, by rwa [List.append_nil]⟩
  | @factor t us vs ht _ _ ih ihs =>
      intro l ts hl
      obtain ⟨r, hr⟩ := ih
      rw [← List.cons_append, ← List.append_assoc]
      rcases ht with ht | ht
      · exact ihs (.mul l r) _ (.mul (by decide) hl ht hr)
      · exact ihs (.div l r) _ (.div (by decide) hl ht hr)
  | negative ht _ ih =>
      obtain ⟨c, hc⟩ := ih
      exact ⟨.negative c, .negative (by decide) ht hc⟩
  | positive ht _ ih =>
      obtain ⟨c, hc⟩ := ih
      exact ⟨.positive c, .positive (by decide) ht hc⟩
  | unsigned _ ih | base _ ih =>
      obtain ⟨c, hc⟩ := ih
      exact ⟨c, hc.mono (by decide)⟩
  | power _ ht _ ih ihs =>
      obtain ⟨b, hb⟩ := ih
      obtain ⟨e, he⟩ := ihs
      exact ⟨.power b e, .power (by decide) hb ht he⟩
  | number ht => exact ⟨_, .number ht⟩
  | imaginary ht => exact ⟨_, .imaginary ht⟩
  | paren hu _ hv ih =>
      obtain ⟨c, hc⟩ := ih
      exact ⟨.paren c, .paren hu hc hv⟩
  | list hu _ hv ih =>
      obtain ⟨cs, hcs⟩ := ih
      exact ⟨.list cs, .list hu hcs hv⟩
  | name ht => exact ⟨_, .name ht⟩
  | call ht hu _ hv ih =>
      obtain ⟨cs, hcs⟩ := ih
      exact ⟨_, .call ht hu hcs hv⟩
  | nothing => exact ⟨[], .nothing⟩
  | sequence _ _ ih ihs =>
      obtain ⟨c, hc⟩ := ih
      obtain ⟨cs, -, hcs⟩ := ihs c _ hc
      exact ⟨cs, hcs⟩
  | noItems =>
    exact fun c ts hc => ⟨[c], List.cons_ne_nil _ _, by rw [List.append_nil]; exact .last hc⟩
  | item ht _ _ ih ihs =>
      intro c ts hc
      obtain ⟨d, hd⟩ := ih
      obtain ⟨ds, hne, hds⟩ := ihs d _ hd
      exact ⟨c :: ds, List.cons_ne_nil _ _, .more hc ht hne hds⟩

section Kinds

variable {t u v : Token} {ts us vs : List Token}

theorem exists_append_of_kinds (h : us.map Token.kind = (ts ++ vs).map Token.kind) :
    ∃ ts' vs', us = ts' ++ vs' ∧ ts'.map Token.kind = ts.map Token.kind ∧
      vs'.map Token.kind = vs.map Token.kind := by
  rw [List.map_append] at h
  exact List.map_eq_append_iff.mp h

theorem exists_further_of_kinds (h : us.map Token.kind = (t :: (ts ++ vs)).map Token.kind) :
    ∃ t' ts' vs', us = t' :: (ts' ++ vs') ∧ t'.kind = t.kind ∧
      ts'.map Token.kind = ts.map Token.kind ∧ vs'.map Token.kind = vs.map Token.kind := by
  obtain ⟨t', _, rfl, hkind, hrest⟩ := List.map_eq_cons_iff.mp h
  obtain ⟨ts', vs', rfl, hts, hvs⟩ := exists_append_of_kinds hrest
  exact ⟨t', ts', vs', rfl, hkind, hts, hvs⟩

theorem exists_enclosed_of_kinds (h : us.map Token.kind = (u :: (ts ++ [v])).map Token.kind) :
    ∃ u' ts' v', us = u' :: (ts' ++ [v']) ∧ u'.kind = u.kind ∧
      ts'.map Token.kind = ts.map Token.kind ∧ v'.kind = v.kind := by
  obtain ⟨u', ts', _, rfl, hopening, hts, hrest⟩ := exists_further_of_kinds h
  obtain ⟨v', rfl, hclosing⟩ := List.map_eq_singleton_iff.mp hrest
  exact ⟨u', ts', v', rfl, hopening, hts, hclosing⟩

end Kinds

/-- What derives from a rule depends on the kinds of the tokens. -/
theorem Derives.congr {r : Rule} {ts us : List Token} (h : Derives r ts)
    (hkinds : us.map Token.kind = ts.map Token.kind) : Derives r us := by
  -- the tokens `us` are taken apart as `ts` was put together
  induction h generalizing us with
  | noTerms | noFactors | nothing | noItems =>
      obtain rfl := List.map_eq_nil_iff.mp hkinds
      constructor
  | sum _ _ ih ihs =>
      obtain ⟨vs, ws, rfl, hvs, hws⟩ := exists_append_of_kinds hkinds
      exact .sum (ih hvs) (ihs hws)
  | product _ _ ih ihs =>
      obtain ⟨vs, ws, rfl, hvs, hws⟩ := exists_append_of_kinds hkinds
      exact .product (ih hvs) (ihs hws)
  | sequence _ _ ih ihs =>
      obtain ⟨vs, ws, rfl, hvs, hws⟩ := exists_append_of_kinds hkinds
      exact .sequence (ih hvs) (ihs hws)
  | term ht _ _ ih ihs =>
      obtain ⟨t, vs, ws, rfl, hkind, hvs, hws⟩ := exists_further_of_kinds hkinds
      exact .term (hkind ▸ ht) (ih hvs) (ihs hws)
  | factor ht _ _ ih ihs =>
      obtain ⟨t, vs, ws, rfl, hkind, hvs, hws⟩ := exists_further_of_kinds hkinds
      exact .factor (hkind ▸ ht) (ih hvs) (ihs hws)
  | item ht _ _ ih ihs =>
      obtain ⟨t, vs, ws, rfl, hkind, hvs, hws⟩ := exists_further_of_kinds hkinds
      exact .item (hkind ▸ ht) (ih hvs) (ihs hws)
  | negative ht _ ih =>
      obtain ⟨t, vs, rfl, hkind, hvs⟩ := List.map_eq_cons_iff.mp hkinds
      exact .negative (hkind ▸ ht) (ih hvs)
  | positive ht _ ih =>
      obtain ⟨t, vs, rfl, hkind, hvs⟩ := List.map_eq_cons_iff.mp hkinds
      exact .positive (hkind ▸ ht) (ih hvs)
  | unsigned _ ih => exact .unsigned (ih hkinds)
  | base _ ih => exact .base (ih hkinds)
  | power _ ht _ ih ihs =>
      obtain ⟨vs, _, rfl, hvs, hkinds⟩ := exists_append_of_kinds hkinds
      obtain ⟨t, ws, rfl, hkind, hws⟩ := List.map_eq_cons_iff.mp hkinds
      exact .power (ih hvs) (hkind ▸ ht) (ihs hws)
  | number ht =>
      obtain ⟨t, rfl, hkind⟩ := List.map_eq_singleton_iff.mp hkinds
      exact .number (hkind ▸ ht)
  | imaginary ht =>
      obtain ⟨t, rfl, hkind⟩ := List.map_eq_singleton_iff.mp hkinds
      exact .imaginary (hkind ▸ ht)
  | name ht =>
      obtain ⟨t, rfl, hkind⟩ := List.map_eq_singleton_iff.mp hkinds
      exact .name (hkind ▸ ht)
  | paren hu _ hv ih =>
      obtain ⟨u, vs, v, rfl, hopening, hvs, hclosing⟩ := exists_enclosed_of_kinds hkinds
      exact .paren (hopening ▸ hu) (ih hvs) (hclosing ▸ hv)
  | list hu _ hv ih =>
      obtain ⟨u, vs, v, rfl, hopening, hvs, hclosing⟩ := exists_enclosed_of_kinds hkinds
      exact .list (hopening ▸ hu) (ih hvs) (hclosing ▸ hv)
  | call ht hu _ hv ih =>
      obtain ⟨t, _, rfl, hkind, hkinds⟩ := List.map_eq_cons_iff.mp hkinds
      obtain ⟨u, vs, v, rfl, hopening, hvs, hclosing⟩ := exists_enclosed_of_kinds hkinds
      exact .call (hkind ▸ ht) (hopening ▸ hu) (ih hvs) (hclosing ▸ hv)

namespace Grammar

variable {α β : Type} {n : Nat}

theorem bind_eq_ok {p : Except CodeError α} {f : α → Except CodeError β} {b : β}
    (h : p.bind f = .ok b) : ∃ a, p = .ok a ∧ f a = .ok b := by
  cases p with
  | error e => cases h
  | ok a => exact ⟨a, rfl, h⟩

theorem map_eq_ok {p : Except CodeError α} {f : α → β} {b : β} (h : p.map f = .ok b) :
    ∃ a, p = .ok a ∧ f a = b := by
  cases p with
  | error e => cases h
  | ok a => exact ⟨a, rfl, Except.ok.inj h⟩

theorem length_lt_of_outcome {p : Except CodeError (Parsed α n)} {a : α} {rest : List Token}
    (h : outcome p = .ok (a, rest)) : rest.length < n := by
  obtain ⟨below, -⟩ := eq_of_outcome h
  exact below

end Grammar

end Formulary.Code
