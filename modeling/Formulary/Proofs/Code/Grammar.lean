import Formulary.Code.Grammar

namespace Formulary.Code

inductive Phrase where
  | code (strength : Binding) (c : Code)
  | sequence (cs : List Code)

/-- The tokens of a tree that stands without parentheses where the given strength is asked for. -/
inductive Spelled : Phrase → List Token → Prop where
  | number {b t} (ht : t.kind = .number) : Spelled (.code b (.number t.text)) [t]
  | imaginary {b t} (ht : t.kind = .imaginary) : Spelled (.code b (.imaginary t.text)) [t]
  | name {b t} (ht : t.kind = .identifier) : Spelled (.code b (.name t.text)) [t]
  | call {b t u v cs ts} (ht : t.kind = .identifier) (hu : u.kind = .leftParen)
      (h : Spelled (.sequence cs) ts) (hv : v.kind = .rightParen) :
      Spelled (.code b (.call t.text cs)) (t :: u :: (ts ++ [v]))
  | list {b u v cs ts} (hu : u.kind = .leftBracket) (h : Spelled (.sequence cs) ts)
      (hv : v.kind = .rightBracket) : Spelled (.code b (.list cs)) (u :: (ts ++ [v]))
  | paren {b u v c ts} (hu : u.kind = .leftParen) (h : Spelled (.code .sum c) ts)
      (hv : v.kind = .rightParen) : Spelled (.code b (.paren c)) (u :: (ts ++ [v]))
  | power {b l r t ts us} (hb : b ≤ .power) (hl : Spelled (.code .atom l) ts) (ht : t.kind = .power)
      (hr : Spelled (.code .unary r) us) : Spelled (.code b (.power l r)) (ts ++ t :: us)
  | negative {b c t ts} (hb : b ≤ .unary) (ht : t.kind = .minus) (h : Spelled (.code .unary c) ts) :
      Spelled (.code b (.negative c)) (t :: ts)
  | positive {b c t ts} (hb : b ≤ .unary) (ht : t.kind = .plus) (h : Spelled (.code .unary c) ts) :
      Spelled (.code b (.positive c)) (t :: ts)
  | mul {b l r t ts us} (hb : b ≤ .product) (hl : Spelled (.code .product l) ts) (ht : t.kind = .star)
      (hr : Spelled (.code .unary r) us) : Spelled (.code b (.mul l r)) (ts ++ t :: us)
  | div {b l r t ts us} (hb : b ≤ .product) (hl : Spelled (.code .product l) ts)
      (ht : t.kind = .slash) (hr : Spelled (.code .unary r) us) :
      Spelled (.code b (.div l r)) (ts ++ t :: us)
  | add {b l r t ts us} (hb : b ≤ .sum) (hl : Spelled (.code .sum l) ts) (ht : t.kind = .plus)
      (hr : Spelled (.code .product r) us) : Spelled (.code b (.add l r)) (ts ++ t :: us)
  | sub {b l r t ts us} (hb : b ≤ .sum) (hl : Spelled (.code .sum l) ts) (ht : t.kind = .minus)
      (hr : Spelled (.code .product r) us) : Spelled (.code b (.sub l r)) (ts ++ t :: us)
  | nothing : Spelled (.sequence []) []
  | last {c ts} (h : Spelled (.code .sum c) ts) : Spelled (.sequence [c]) ts
  | more {c cs t ts us} (h : Spelled (.code .sum c) ts) (ht : t.kind = .comma) (hne : cs ≠ [])
      (hs : Spelled (.sequence cs) us) : Spelled (.sequence (c :: cs)) (ts ++ t :: us)

/-- A tree may stand wherever less is asked for. -/
theorem Spelled.mono {b b' : Binding} {c : Code} {ts : List Token} (h : Spelled (.code b c) ts)
    (hb : b' ≤ b) : Spelled (.code b' c) ts := by
  have trans {d : Binding} (hd : b ≤ d) : b' ≤ d := Nat.le_trans (m := b.rank) hb hd
  cases h with
  | number ht => exact .number ht
  | imaginary ht => exact .imaginary ht
  | name ht => exact .name ht
  | call ht hu h hv => exact .call ht hu h hv
  | list hu h hv => exact .list hu h hv
  | paren hu h hv => exact .paren hu h hv
  | power hd hl ht hr => exact .power (trans hd) hl ht hr
  | negative hd ht h => exact .negative (trans hd) ht h
  | positive hd ht h => exact .positive (trans hd) ht h
  | mul hd hl ht hr => exact .mul (trans hd) hl ht hr
  | div hd hl ht hr => exact .div (trans hd) hl ht hr
  | add hd hl ht hr => exact .add (trans hd) hl ht hr
  | sub hd hl ht hr => exact .sub (trans hd) hl ht hr

namespace Grammar

variable {α : Type} {n : Nat}

def outcome (p : Except CodeError (Parsed α n)) : Except CodeError (α × List Token) :=
  p.map fun p => (p.value, p.rest)

variable (length : Nat)

theorem outcome_sum (ts : List Token) :
    outcome (sum length ts) = (outcome (product length ts)).bind fun p =>
      outcome (sumLoop length p.1 p.2) := by
  rw [sum]
  cases product length ts with
  | error e => rfl
  | ok p =>
      simp only [outcome, Except.map, Except.bind]
      cases sumLoop length p.value p.rest <;> rfl

theorem outcome_product (ts : List Token) :
    outcome (product length ts) = (outcome (unary length ts)).bind fun p =>
      outcome (productLoop length p.1 p.2) := by
  rw [product]
  cases unary length ts with
  | error e => rfl
  | ok p =>
      simp only [outcome, Except.map, Except.bind]
      cases productLoop length p.value p.rest <;> rfl

theorem outcome_sumLoop_step {t : Token} (ht : t.kind = .plus ∨ t.kind = .minus) (left : Code)
    (rest : List Token) :
    outcome (sumLoop length left (t :: rest)) = (outcome (product length rest)).bind fun p =>
      outcome (sumLoop length (if t.kind = .plus then .add left p.1 else .sub left p.1) p.2) := by
  rw [sumLoop, if_pos ht]
  cases product length rest with
  | error e => rfl
  | ok p =>
      simp only [outcome, Except.map, Except.bind]
      cases sumLoop length (if t.kind = .plus then .add left p.value else .sub left p.value) p.rest
        <;> rfl

theorem outcome_sumLoop_stop (left : Code) {rest : List Token}
    (h : ∀ t ∈ rest.head?, ¬ (t.kind = .plus ∨ t.kind = .minus)) :
    outcome (sumLoop length left rest) = .ok (left, rest) := by
  cases rest with
  | nil => rw [sumLoop]; rfl
  | cons t rest => rw [sumLoop, if_neg (h t rfl)]; rfl

theorem outcome_productLoop_step {t : Token} (ht : t.kind = .star ∨ t.kind = .slash) (left : Code)
    (rest : List Token) :
    outcome (productLoop length left (t :: rest)) = (outcome (unary length rest)).bind fun p =>
      outcome (productLoop length (if t.kind = .star then .mul left p.1 else .div left p.1) p.2) := by
  rw [productLoop, if_pos ht]
  cases unary length rest with
  | error e => rfl
  | ok p =>
      simp only [outcome, Except.map, Except.bind]
      cases productLoop length (if t.kind = .star then .mul left p.value else .div left p.value)
        p.rest <;> rfl

theorem outcome_productLoop_stop (left : Code) {rest : List Token}
    (h : ∀ t ∈ rest.head?, ¬ (t.kind = .star ∨ t.kind = .slash)) :
    outcome (productLoop length left rest) = .ok (left, rest) := by
  cases rest with
  | nil => rw [productLoop]; rfl
  | cons t rest => rw [productLoop, if_neg (h t rfl)]; rfl

theorem outcome_unary_minus {t : Token} (ht : t.kind = .minus) (rest : List Token) :
    outcome (unary length (t :: rest)) = (outcome (unary length rest)).map fun p =>
      (.negative p.1, p.2) := by
  rw [unary, if_pos ht]
  cases unary length rest <;> rfl

theorem outcome_unary_plus {t : Token} (ht : t.kind = .plus) (rest : List Token) :
    outcome (unary length (t :: rest)) = (outcome (unary length rest)).map fun p =>
      (.positive p.1, p.2) := by
  rw [unary, if_neg (by rw [ht]; decide), if_pos ht]
  cases unary length rest <;> rfl

theorem outcome_unary_power {t : Token} (ht : t.kind ≠ .minus) (ht' : t.kind ≠ .plus)
    (rest : List Token) :
    outcome (unary length (t :: rest)) = outcome (power length (t :: rest)) := by
  rw [unary, if_neg ht, if_neg ht']

theorem eq_of_outcome {p : Except CodeError (Parsed α n)} {a : α} {rest : List Token}
    (h : outcome p = .ok (a, rest)) : ∃ below, p = .ok ⟨a, rest, below⟩ := by
  cases p with
  | error e => cases h
  | ok p =>
      obtain ⟨value, rest, below⟩ := p
      cases h
      exact ⟨below, rfl⟩

def exponent (base : Code) : List Token → Except CodeError (Code × List Token)
  | [] => .ok (base, [])
  | t :: rest =>
    if t.kind = .power then (outcome (unary length rest)).map fun p => (.power base p.1, p.2)
      else .ok (base, t :: rest)

theorem outcome_power (ts : List Token) :
    outcome (power length ts) = (outcome (primary length ts)).bind fun p =>
      exponent length p.1 p.2 := by
  rw [power]
  cases primary length ts with
  | error e => rfl
  | ok p =>
      obtain ⟨base, rest, below⟩ := p
      cases rest with
      | nil => rfl
      | cons t rest =>
          simp only [outcome, Except.map, Except.bind, exponent]
          by_cases ht : t.kind = .power
          · simp only [if_pos ht]
            cases unary length rest <;> rfl
          · simp only [if_neg ht]

theorem exponent_stop {rest : List Token} (c : Code) (h : ∀ t ∈ rest.head?, t.kind ≠ .power) :
    exponent length c rest = .ok (c, rest) := by
  cases rest with
  | nil => rfl
  | cons t rest => exact if_neg (h t rfl)

theorem outcome_power_step {ts rest : List Token} {t : Token} {c : Code} (ht : t.kind = .power)
    (h : outcome (primary length ts) = .ok (c, t :: rest)) :
    outcome (power length ts) = (outcome (unary length rest)).map fun p => (.power c p.1, p.2) := by
  rw [outcome_power, h]
  exact if_pos ht

theorem outcome_power_stop {ts rest : List Token} {c : Code}
    (hrest : ∀ t ∈ rest.head?, t.kind ≠ .power) (h : outcome (primary length ts) = .ok (c, rest)) :
    outcome (power length ts) = .ok (c, rest) := by
  rw [outcome_power, h]
  exact exponent_stop length c hrest

theorem outcome_primary_paren {t : Token} (ht : t.kind = .leftParen) (ts : List Token) :
    outcome (primary length (t :: ts)) = (outcome (sum length ts)).bind fun p =>
      (outcome (expect length .rightParen p.2)).map fun q => (.paren p.1, q.2) := by
  rw [primary.eq_def]
  simp only [ht]
  cases sum length ts with
  | error e => rfl
  | ok p =>
      simp only [outcome, Except.map, Except.bind]
      cases expect length .rightParen p.rest <;> rfl

theorem outcome_primary_list {t : Token} (ht : t.kind = .leftBracket) (ts : List Token) :
    outcome (primary length (t :: ts)) = (outcome (sequence length .rightBracket ts)).map fun p =>
      (.list p.1, p.2) := by
  rw [primary.eq_def]
  simp only [ht]
  cases sequence length .rightBracket ts <;> rfl

def arguments (name : String) : List Token → Except CodeError (Code × List Token)
  | [] => .ok (.name name, [])
  | u :: rest =>
    if u.kind = .leftParen then (outcome (sequence length .rightParen rest)).map fun p =>
      (.call name p.1, p.2)
    else .ok (.name name, u :: rest)

theorem outcome_primary_identifier {t : Token} (ht : t.kind = .identifier) (ts : List Token) :
    outcome (primary length (t :: ts)) = arguments length t.text ts := by
  rw [primary.eq_def]
  simp only [ht]
  cases ts with
  | nil => rfl
  | cons u rest =>
      simp only [arguments]
      split
      · cases sequence length .rightParen rest <;> rfl
      · rfl

theorem arguments_stop {rest : List Token} (name : String)
    (h : ∀ u ∈ rest.head?, u.kind ≠ .leftParen) :
    arguments length name rest = .ok (.name name, rest) := by
  cases rest with
  | nil => rfl
  | cons u rest => exact if_neg (h u rfl)

theorem outcome_primary_call {t u : Token} {ts rest : List Token} {cs : List Code}
    (ht : t.kind = .identifier) (hu : u.kind = .leftParen)
    (h : outcome (sequence length .rightParen ts) = .ok (cs, rest)) :
    outcome (primary length (t :: u :: ts)) = .ok (.call t.text cs, rest) := by
  rw [outcome_primary_identifier length ht, arguments, if_pos hu, h]
  rfl

theorem outcome_primary_name {t : Token} {rest : List Token} (ht : t.kind = .identifier)
    (h : ∀ u ∈ rest.head?, u.kind ≠ .leftParen) :
    outcome (primary length (t :: rest)) = .ok (.name t.text, rest) := by
  rw [outcome_primary_identifier length ht, arguments_stop length t.text h]

theorem outcome_sequence_close {close : TokenKind} {t : Token} (ht : t.kind = close)
    (rest : List Token) : outcome (sequence length close (t :: rest)) = .ok ([], rest) := by
  rw [sequence, if_pos ht]
  rfl

theorem outcome_sequence_items {close : TokenKind} {ts : List Token}
    (h : ∀ t ∈ ts.head?, t.kind ≠ close) :
    outcome (sequence length close ts) = outcome (items length close ts) := by
  cases ts with
  | nil => rw [sequence]
  | cons t ts => rw [sequence, if_neg (h t rfl)]

def further (close : TokenKind) (c : Code) : List Token → Except CodeError (List Code × List Token)
  | [] => .error (.expected close (Tokens.stop length))
  | t :: rest =>
    if t.kind = .comma then (outcome (items length close rest)).map fun p => (c :: p.1, p.2)
    else if t.kind = close then .ok ([c], rest)
    else .error (.expected close t)

theorem outcome_items (close : TokenKind) (ts : List Token) :
    outcome (items length close ts) = (outcome (sum length ts)).bind fun p =>
      further length close p.1 p.2 := by
  rw [items]
  cases sum length ts with
  | error e => rfl
  | ok p =>
      obtain ⟨c, rest, below⟩ := p
      cases rest with
      | nil => rfl
      | cons t rest =>
          simp only [outcome, Except.map, Except.bind, further]
          by_cases hcomma : t.kind = .comma
          · simp only [if_pos hcomma]
            cases items length close rest <;> rfl
          · simp only [if_neg hcomma]
            by_cases hclose : t.kind = close
            · simp only [if_pos hclose]
            · simp only [if_neg hclose]

theorem outcome_items_last {close : TokenKind} {t : Token} {ts rest : List Token} {c : Code}
    (hclose : close ≠ .comma) (ht : t.kind = close)
    (h : outcome (sum length ts) = .ok (c, t :: rest)) :
    outcome (items length close ts) = .ok ([c], rest) := by
  rw [outcome_items, h]
  exact (if_neg (by rwa [ht])).trans (if_pos ht)

theorem outcome_items_more {close : TokenKind} {t : Token} {ts rest rest' : List Token} {c : Code}
    {cs : List Code} (ht : t.kind = .comma) (h : outcome (sum length ts) = .ok (c, t :: rest))
    (hs : outcome (items length close rest) = .ok (cs, rest')) :
    outcome (items length close ts) = .ok (c :: cs, rest') := by
  rw [outcome_items, h]
  exact (if_pos ht).trans (by rw [hs]; rfl)

def read : Binding → List Token → Except CodeError (Code × List Token)
  | .sum, ts => outcome (sum length ts)
  | .product, ts => outcome (product length ts)
  | .unary, ts => outcome (unary length ts)
  | .power, ts => outcome (power length ts)
  | .atom, ts => outcome (primary length ts)

/-- What a rule does when a tree of its strength has been read: sums and products go on in their
loops. -/
def finish : Binding → Code → List Token → Except CodeError (Code × List Token)
  | .sum, c, rest => outcome (sumLoop length c rest)
  | .product, c, rest => outcome (productLoop length c rest)
  | _, c, rest => .ok (c, rest)

/-- No token that would bind to a tree of the given strength. -/
def Stops (b : Binding) (rest : List Token) : Prop :=
  ∀ t ∈ rest.head?, t.kind ≠ .leftParen ∧ (b ≤ .power → t.kind ≠ .power) ∧
    (b ≤ .sum → t.kind ≠ .star ∧ t.kind ≠ .slash)

def Found (b : Binding) (c : Code) (ts : List Token) : Prop :=
  ∀ rest, Stops b rest → read length b (ts ++ rest) = finish length b c rest

variable {length}

theorem Stops.mono {b b' : Binding} {rest : List Token} (h : Stops b' rest) (hb : b' ≤ b) :
    Stops b rest := by
  intro t ht
  have trans {d : Binding} (hd : b ≤ d) : b' ≤ d := Nat.le_trans (m := b.rank) hb hd
  exact ⟨(h t ht).1, fun hd => (h t ht).2.1 (trans hd), fun hd => (h t ht).2.2 (trans hd)⟩

theorem Stops.exponent {rest : List Token} (h : Stops .power rest) : Stops .unary rest :=
  fun t ht => ⟨(h t ht).1, fun _ => (h t ht).2.1 (by decide), fun hd => absurd hd (by decide)⟩

theorem Found.power {c : Code} {ts : List Token} (h : Found length .atom c ts) :
    Found length .power c ts := by
  intro rest hrest
  exact outcome_power_stop length (fun t ht => (hrest t ht).2.1 (by decide))
    (h rest (hrest.mono (by decide)))

theorem Found.unary {c : Code} {t : Token} {ts : List Token} (ht : t.kind ≠ .minus ∧ t.kind ≠ .plus)
    (h : Found length .power c (t :: ts)) : Found length .unary c (t :: ts) := by
  intro rest hrest
  exact (outcome_unary_power length ht.1 ht.2 _).trans (h rest (hrest.mono (by decide)))

theorem Found.product {c : Code} {ts : List Token} (h : Found length .unary c ts) :
    Found length .product c ts := by
  intro rest hrest
  have hunary : outcome (Grammar.unary length (ts ++ rest)) = .ok (c, rest) :=
    h rest (hrest.mono (by decide))
  rw [read, outcome_product, hunary]
  rfl

theorem Found.sum {c : Code} {ts : List Token} (h : Found length .product c ts) :
    Found length .sum c ts := by
  intro rest hrest
  have hproduct :
      outcome (Grammar.product length (ts ++ rest)) = outcome (productLoop length c rest) :=
    h rest (hrest.mono (by decide))
  rw [outcome_productLoop_stop] at hproduct
  · rw [read, outcome_sum, hproduct]
    rfl
  · intro t ht hkind
    have := (hrest t ht).2.2 (by decide)
    exact hkind.elim this.1 this.2

theorem Found.of_sum {b : Binding} {c : Code} {ts : List Token} (hb : b ≤ .sum)
    (h : Found length .sum c ts) : Found length b c ts := by
  cases b with
  | sum => exact h
  | _ => exact absurd hb (by decide)

theorem Found.of_product {b : Binding} {c : Code} {ts : List Token} (hb : b ≤ .product)
    (h : Found length .product c ts) : Found length b c ts := by
  cases b with
  | sum => exact h.sum
  | product => exact h
  | _ => exact absurd hb (by decide)

theorem Found.of_unary {b : Binding} {c : Code} {ts : List Token} (hb : b ≤ .unary)
    (h : Found length .unary c ts) : Found length b c ts := by
  cases b with
  | unary => exact h
  | power => exact absurd hb (by decide)
  | atom => exact absurd hb (by decide)
  | _ => exact h.product.of_product (by decide)

theorem Found.of_power {b : Binding} {c : Code} {t : Token} {ts : List Token} (hb : b ≤ .power)
    (ht : t.kind ≠ .minus ∧ t.kind ≠ .plus) (h : Found length .power c (t :: ts)) :
    Found length b c (t :: ts) := by
  cases b with
  | power => exact h
  | atom => exact absurd hb (by decide)
  | _ => exact (h.unary ht).of_unary (by decide)

theorem Found.of_atom {b : Binding} {c : Code} {t : Token} {ts : List Token}
    (ht : t.kind ≠ .minus ∧ t.kind ≠ .plus) (h : Found length .atom c (t :: ts)) :
    Found length b c (t :: ts) := by
  cases b with
  | atom => exact h
  | _ => exact h.power.of_power (by decide) ht

theorem Found.raised {l r : Code} {t : Token} {ts us : List Token} (hl : Found length .atom l ts)
    (ht : t.kind = .power) (hr : Found length .unary r us) :
    Found length .power (.power l r) (ts ++ t :: us) := by
  intro rest hrest
  have hstops : Stops .atom (t :: (us ++ rest)) := by
    rintro _ ⟨⟩
    rw [ht]
    decide
  have hbase : outcome (Grammar.primary length (ts ++ t :: (us ++ rest))) =
      .ok (l, t :: (us ++ rest)) := hl _ hstops
  have hexponent : outcome (Grammar.unary length (us ++ rest)) = .ok (r, rest) :=
    hr rest hrest.exponent
  rw [List.append_assoc, List.cons_append, read, outcome_power_step length ht hbase, hexponent]
  rfl

theorem Found.negative {c : Code} {t : Token} {ts : List Token} (ht : t.kind = .minus)
    (h : Found length .unary c ts) : Found length .unary (.negative c) (t :: ts) := by
  intro rest hrest
  have hinner : outcome (Grammar.unary length (ts ++ rest)) = .ok (c, rest) := h rest hrest
  rw [List.cons_append, read, outcome_unary_minus length ht, hinner]
  rfl

theorem Found.positive {c : Code} {t : Token} {ts : List Token} (ht : t.kind = .plus)
    (h : Found length .unary c ts) : Found length .unary (.positive c) (t :: ts) := by
  intro rest hrest
  have hinner : outcome (Grammar.unary length (ts ++ rest)) = .ok (c, rest) := h rest hrest
  rw [List.cons_append, read, outcome_unary_plus length ht, hinner]
  rfl

theorem Found.factor {l r : Code} {t : Token} {ts us : List Token} (hl : Found length .product l ts)
    (ht : t.kind = .star ∨ t.kind = .slash) (hr : Found length .unary r us) :
    Found length .product (if t.kind = .star then .mul l r else .div l r) (ts ++ t :: us) := by
  intro rest hrest
  have hstops : Stops .product (t :: (us ++ rest)) := by
    rintro _ ⟨⟩
    rcases ht with ht | ht <;> rw [ht] <;> decide
  have hleft : outcome (Grammar.product length (ts ++ t :: (us ++ rest))) =
      outcome (productLoop length l (t :: (us ++ rest))) :=
    hl _ hstops
  have hright : outcome (Grammar.unary length (us ++ rest)) = .ok (r, rest) :=
    hr rest (hrest.mono (by decide))
  rw [List.append_assoc, List.cons_append, read, hleft, outcome_productLoop_step length ht, hright]
  rfl

theorem Found.term {l r : Code} {t : Token} {ts us : List Token} (hl : Found length .sum l ts)
    (ht : t.kind = .plus ∨ t.kind = .minus) (hr : Found length .product r us) :
    Found length .sum (if t.kind = .plus then .add l r else .sub l r) (ts ++ t :: us) := by
  intro rest hrest
  have hstops : Stops .sum (t :: (us ++ rest)) := by
    rintro _ ⟨⟩
    rcases ht with ht | ht <;> rw [ht] <;> decide
  have hleft : outcome (Grammar.sum length (ts ++ t :: (us ++ rest))) =
      outcome (sumLoop length l (t :: (us ++ rest))) :=
    hl _ hstops
  have hright : outcome (Grammar.product length (us ++ rest)) = .ok (r, rest) := by
    refine (hr rest (hrest.mono (by decide))).trans (outcome_productLoop_stop length r ?_)
    intro u hu hkind
    have := (hrest u hu).2.2 (by decide)
    exact hkind.elim this.1 this.2
  rw [List.append_assoc, List.cons_append, read, hleft, outcome_sumLoop_step length ht, hright]
  rfl

theorem Found.closed {c : Code} {ts : List Token} (h : Found length .sum c ts) {v : Token}
    (hv : v.kind = .rightParen ∨ v.kind = .rightBracket ∨ v.kind = .comma) (rest : List Token) :
    outcome (Grammar.sum length (ts ++ v :: rest)) = .ok (c, v :: rest) := by
  have hstops : Stops .sum (v :: rest) := by
    rintro _ ⟨⟩
    rcases hv with hv | hv | hv <;> rw [hv] <;> decide
  refine (h _ hstops).trans (outcome_sumLoop_stop length c ?_)
  rintro _ ⟨⟩
  rcases hv with hv | hv | hv <;> rw [hv] <;> decide

end Grammar

def Phrase.Opens : Phrase → List Token → Prop
  | .code b _, ts => ∃ t us, ts = t :: us ∧ t.kind ≠ .rightParen ∧ t.kind ≠ .rightBracket ∧
      (.power ≤ b → t.kind ≠ .minus ∧ t.kind ≠ .plus)
  | .sequence cs, ts => cs = [] ∨ ∃ t us, ts = t :: us ∧ t.kind ≠ .rightParen ∧ t.kind ≠ .rightBracket

theorem Spelled.opens {p : Phrase} {ts : List Token} (h : Spelled p ts) : p.Opens ts := by
  induction h with
  | number ht | imaginary ht | name ht | call ht | list ht | paren ht => simp [Phrase.Opens, ht]
  | power hb hl ht hr ihl ihr =>
      obtain ⟨t, us, rfl, h1, h2, h3⟩ := ihl
      exact ⟨t, _, rfl, h1, h2, fun _ => h3 (by decide)⟩
  | negative hb ht | positive hb ht =>
      exact ⟨_, _, rfl, by rw [ht]; decide,
        by rw [ht]; decide, fun h => absurd (Nat.le_trans (m := Binding.rank _) h hb) (by decide)⟩
  | mul hb hl ht hr ihl ihr | div hb hl ht hr ihl ihr =>
      obtain ⟨t, us, rfl, h1, h2, h3⟩ := ihl
      exact ⟨t, _, rfl, h1, h2, fun h => absurd (Nat.le_trans (m := Binding.rank _) h hb) (by decide)⟩
  | add hb hl ht hr ihl ihr | sub hb hl ht hr ihl ihr =>
      obtain ⟨t, us, rfl, h1, h2, h3⟩ := ihl
      exact ⟨t, _, rfl, h1, h2, fun h => absurd (Nat.le_trans (m := Binding.rank _) h hb) (by decide)⟩
  | nothing => exact .inl rfl
  | last h ih =>
      obtain ⟨t, us, rfl, h1, h2, h3⟩ := ih
      exact .inr ⟨t, us, rfl, h1, h2⟩
  | more h ht hne hs ih ihs =>
      obtain ⟨t, us, rfl, h1, h2, h3⟩ := ih
      exact .inr ⟨t, _, rfl, h1, h2⟩

/-- The reader finds the tree, whatever follows that does not bind to it. -/
def Phrase.Found (length : Nat) : Phrase → List Token → Prop
  | .code b c, ts => Grammar.Found length b c ts
  | .sequence cs, ts => ∀ (close : TokenKind) (v : Token) (rest : List Token), close = .rightParen ∨
      close = .rightBracket →
      v.kind = close → Grammar.outcome (Grammar.sequence length close (ts ++ v :: rest)) =
        .ok (cs, rest)

theorem Grammar.found_atom {length : Nat} {b : Binding} {c : Code} {t : Token} {ts : List Token}
    (ht : t.kind ≠ .minus ∧ t.kind ≠ .plus)
    (h : ∀ rest, Stops .atom rest → outcome (primary length (t :: (ts ++ rest))) = .ok (c, rest)) :
    Found length b c (t :: ts) :=
  Found.of_atom ht h

theorem Grammar.outcome_sequence_opened (length : Nat) {close : TokenKind}
    (hclose : close = .rightParen ∨ close = .rightBracket) {t : Token}
    (hparen : t.kind ≠ .rightParen) (hbracket : t.kind ≠ .rightBracket) (ts : List Token) :
    outcome (sequence length close (t :: ts)) = outcome (items length close (t :: ts)) := by
  refine outcome_sequence_items length ?_
  rintro _ ⟨⟩
  rcases hclose with rfl | rfl <;> assumption

namespace Phrase

variable {length : Nat} {b : Binding} {c : Code} {cs : List Code} {t u v : Token} {ts us : List Token}

theorem found_call (ht : t.kind = .identifier) (hu : u.kind = .leftParen)
    (h : (sequence cs).Found length ts) (hv : v.kind = .rightParen) :
    (code b (.call t.text cs)).Found length (t :: u :: (ts ++ [v])) := by
  apply Grammar.found_atom (by simp [ht])
  intro rest _
  rw [List.cons_append, List.append_assoc]
  exact Grammar.outcome_primary_call length ht hu (h .rightParen v rest (.inl rfl) hv)

theorem found_list (hu : u.kind = .leftBracket) (h : (sequence cs).Found length ts)
    (hv : v.kind = .rightBracket) : (code b (.list cs)).Found length (u :: (ts ++ [v])) := by
  apply Grammar.found_atom (by simp [hu])
  intro rest _
  rw [List.append_assoc, List.singleton_append, Grammar.outcome_primary_list length hu,
    h .rightBracket v rest (.inr rfl) hv]
  rfl

theorem found_paren (hu : u.kind = .leftParen) (h : (code .sum c).Found length ts)
    (hv : v.kind = .rightParen) : (code b (.paren c)).Found length (u :: (ts ++ [v])) := by
  apply Grammar.found_atom (by simp [hu])
  intro rest _
  have hsum := Grammar.Found.closed h (.inl hv) rest
  rw [List.append_assoc, List.singleton_append, Grammar.outcome_primary_paren length hu, hsum]
  simp only [Except.bind, Grammar.expect, if_pos hv]
  rfl

theorem found_last (hopens : (code .sum c).Opens ts) (h : (code .sum c).Found length ts) :
    (sequence [c]).Found length ts := by
  intro close v rest hclose hv
  obtain ⟨t, ts, rfl, hparen, hbracket, -⟩ := hopens
  have hclosing : v.kind = .rightParen ∨ v.kind = .rightBracket ∨ v.kind = .comma := by
    rw [hv]
    exact hclose.imp_right .inl
  have hcomma : close ≠ .comma := by
    rcases hclose with rfl | rfl <;> decide
  exact (Grammar.outcome_sequence_opened length hclose hparen hbracket _).trans
    (Grammar.outcome_items_last length hcomma hv (Grammar.Found.closed h hclosing rest))

theorem found_more (hopens : (code .sum c).Opens ts) (h : (code .sum c).Found length ts)
    (ht : t.kind = .comma) (hne : cs ≠ []) (hopens' : (sequence cs).Opens us)
    (hs : (sequence cs).Found length us) :
    (sequence (c :: cs)).Found length (ts ++ t :: us) := by
  intro close v rest hclose hv
  obtain ⟨t₁, ts₁, rfl, hparen, hbracket, -⟩ := hopens
  obtain ⟨t₂, ts₂, rfl, hparen', hbracket'⟩ := hopens'.resolve_left hne
  have hitems := hs close v rest hclose hv
  rw [List.cons_append, Grammar.outcome_sequence_opened length hclose hparen' hbracket'] at hitems
  have hsum := Grammar.Found.closed h (.inr (.inr ht)) (t₂ :: ts₂ ++ v :: rest)
  rw [List.append_assoc, List.cons_append, List.cons_append]
  exact (Grammar.outcome_sequence_opened length hclose hparen hbracket _).trans
    (Grammar.outcome_items_more length ht hsum hitems)

end Phrase

theorem Spelled.found {length : Nat} {p : Phrase} {ts : List Token} (h : Spelled p ts) :
    p.Found length ts := by
  induction h with
  | number ht | imaginary ht =>
      apply Grammar.found_atom (by simp [ht])
      intro rest _
      rw [Grammar.primary.eq_def]
      simp only [ht]
      rfl
  | name ht =>
      apply Grammar.found_atom (by simp [ht])
      intro rest hrest
      exact Grammar.outcome_primary_name length ht fun u hu => (hrest u hu).1
  | call ht hu h hv ih => exact Phrase.found_call ht hu ih hv
  | list hu h hv ih => exact Phrase.found_list hu ih hv
  | paren hu h hv ih => exact Phrase.found_paren hu ih hv
  | power hb hl ht hr ihl ihr =>
      -- the base begins with no sign, so that the rule of signs goes on to the power
      have hfound := Grammar.Found.raised ihl ht ihr
      obtain ⟨u, vs, rfl, -, -, hsign⟩ := hl.opens
      exact hfound.of_power hb (hsign (by decide))
  | negative hb ht h ih => exact (Grammar.Found.negative ht ih).of_unary hb
  | positive hb ht h ih => exact (Grammar.Found.positive ht ih).of_unary hb
  | mul hb hl ht hr ihl ihr =>
      have hfound := (Grammar.Found.factor ihl (.inl ht) ihr).of_product hb
      rwa [if_pos ht] at hfound
  | div hb hl ht hr ihl ihr =>
      have hfound := (Grammar.Found.factor ihl (.inr ht) ihr).of_product hb
      rwa [if_neg (by simp [ht])] at hfound
  | add hb hl ht hr ihl ihr =>
      have hfound := (Grammar.Found.term ihl (.inl ht) ihr).of_sum hb
      rwa [if_pos ht] at hfound
  | sub hb hl ht hr ihl ihr =>
      have hfound := (Grammar.Found.term ihl (.inr ht) ihr).of_sum hb
      rwa [if_neg (by simp [ht])] at hfound
  | nothing =>
      intro close v rest hclose hv
      exact Grammar.outcome_sequence_close length hv rest
  | last h ih => exact Phrase.found_last h.opens ih
  | more h ht hne hs ih ihs => exact Phrase.found_more h.opens ih ht hne hs.opens ihs

/-- Tokens that spell a tree are read as that tree. -/
theorem ofTokens_of_spelled {c : Code} {ts : Tokens} (h : Spelled (.code .sum c) ts.tokens) :
    ofTokens ts = .ok c := by
  have hfound : Grammar.outcome (Grammar.sum ts.length (ts.tokens ++ [])) =
      Grammar.outcome (Grammar.sumLoop ts.length c []) :=
    h.found [] (by rintro _ ⟨⟩)
  rw [List.append_nil, Grammar.outcome_sumLoop_stop _ _ (by rintro _ ⟨⟩)] at hfound
  obtain ⟨below, hp⟩ := Grammar.eq_of_outcome hfound
  rw [ofTokens, hp]

end Formulary.Code
