import Formulary.Proofs.Code.Derivation

namespace Formulary

def CodeError.found? : CodeError → Option Token
  | .character _ _ => none
  | .expected _ t => some t
  | .unexpected t => some t

namespace Code

namespace Grammar

/-- Tokens with which every phrase that has been begun can be completed. -/
def fillers : List Token := [⟨.number, "1", 0⟩, ⟨.rightParen, ")", 0⟩, ⟨.rightBracket, "]", 0⟩]

def Completable (D : List Token → Prop) (ts : List Token) : Prop := ∃ us, us ⊆ fillers ∧ D (ts ++ us)

variable {α β : Type}

abbrev Reader (α : Type) := List Token → Except CodeError (α × List Token)

variable (length : Nat)

/-- The reader fails at a token, before which all can be completed, and does so whatever follows; or
it fails at the end. -/
def Fails (p : Reader α) (D : List Token → Prop) (ts : List Token) (e : CodeError) : Prop :=
  (∃ before t after, ts = before ++ t :: after ∧ e.found? = some t ∧ Completable D before ∧
      ∀ after', p (before ++ t :: after') = .error e) ∨
    e.found? = some (Tokens.stop length) ∧ Completable D ts

/-- The reader takes from the tokens what is of the given kind, and looks no further than the token
after it. -/
structure Foresees (p : Reader α) (D : List Token → Prop) (ts : List Token) : Prop where
  takes : ∀ a rest, p ts = .ok (a, rest) → ∃ us, ts = us ++ rest ∧ D us ∧
    ∀ rest', rest'.head? = rest.head? → p (us ++ rest') = .ok (a, rest')
  fails : ∀ e, p ts = .error e → Fails length p D ts e

variable {length} {p : Reader α} {D : List Token → Prop} {ts : List Token}

theorem Completable.append {D' : List Token → Prop} (h : Completable D ts)
    (hD : ∀ us, D us → Completable D' us) : Completable D' ts := by
  obtain ⟨us, hus, hD'⟩ := h
  obtain ⟨vs, hvs, hD'⟩ := hD _ hD'
  exact ⟨us ++ vs, List.append_subset.mpr ⟨hus, hvs⟩, by rwa [← List.append_assoc]⟩

theorem Completable.after {D' : List Token → Prop} (us : List Token) (h : Completable D ts)
    (hD : ∀ vs, D vs → D' (us ++ vs)) : Completable D' (us ++ ts) := by
  obtain ⟨vs, hvs, h⟩ := h
  exact ⟨vs, hvs, by rw [List.append_assoc]; exact hD _ h⟩

theorem Completable.of (h : D ts) : Completable D ts :=
  ⟨[], List.nil_subset _, by rwa [List.append_nil]⟩

theorem head?_append_cons (us : List Token) (t : Token) (vs ws : List Token) :
    (us ++ t :: vs).head? = (us ++ t :: ws).head? := by
  cases us <;> rfl

theorem head?_append (us : List Token) {vs ws : List Token} (h : vs.head? = ws.head?) :
    (us ++ vs).head? = (us ++ ws).head? := by
  cases us
  · exact h
  · rfl

theorem foresees_stop {a : α} (h : ∀ ts', ts'.head? = ts.head? → p ts' = .ok (a, ts')) (hD : D []) :
    Foresees length p D ts where
  takes := by
    intro b rest hq
    rw [h ts rfl] at hq
    cases hq
    exact ⟨[], rfl, hD, h⟩
  fails := by
    intro e hq
    rw [h ts rfl] at hq
    cases hq

theorem foresees_refuse {e : CodeError} (h : ∀ ts', ts'.head? = ts.head? → p ts' = .error e)
    (he : e.found? = some (ts.head?.getD (Tokens.stop length))) (hD : Completable D []) :
    Foresees length p D ts where
  takes := by
    intro b rest hq
    rw [h ts rfl] at hq
    cases hq
  fails := by
    intro e' hq
    rw [h ts rfl] at hq
    cases hq
    cases ts with
    | nil => exact .inr ⟨he, hD⟩
    | cons t us => exact .inl ⟨[], t, us, rfl, he, hD, fun after' => h _ rfl⟩

theorem Foresees.congr {q : Reader α} {D' : List Token → Prop} (h : Foresees length p D ts)
    (hq : ∀ ts', ts'.head? = ts.head? → q ts' = p ts') (hD : ∀ us, D us → D' us) :
    Foresees length q D' ts where
  takes := by
    intro a rest hok
    rw [hq ts rfl] at hok
    obtain ⟨us, rfl, hus, hsame⟩ := h.takes a rest hok
    exact ⟨us, rfl, hD us hus,
      fun rest' hrest => (hq _ (head?_append us hrest)).trans (hsame rest' hrest)⟩
  fails := by
    intro e herror
    rw [hq ts rfl] at herror
    rcases h.fails e herror with ⟨before, t, after, rfl, he, hbefore, hsame⟩ | ⟨he, hts⟩
    · exact .inl ⟨before, t, after, rfl, he, hbefore.append fun us hus => .of (hD us hus),
          fun after' =>
        (hq _ (head?_append_cons before t after' after)).trans (hsame after')⟩
    · exact .inr ⟨he, hts.append fun us hus => .of (hD us hus)⟩

theorem Foresees.cons {q : Reader α} {D' : List Token → Prop} {t : Token}
    (h : Foresees length p D ts) (hq : ∀ ts', q (t :: ts') = p ts')
    (hD : ∀ us, D us → D' (t :: us)) :
    Foresees length q D' (t :: ts) where
  takes := by
    intro a rest hok
    rw [hq] at hok
    obtain ⟨us, rfl, hus, hsame⟩ := h.takes a rest hok
    exact ⟨t :: us, rfl, hD us hus, fun rest' hrest => (hq _).trans (hsame rest' hrest)⟩
  fails := by
    intro e herror
    rw [hq] at herror
    rcases h.fails e herror with ⟨before, u, after, rfl, he, hbefore, hsame⟩ | ⟨he, hts⟩
    · exact .inl ⟨t :: before, u, after, rfl, he, hbefore.after [t] hD,
        fun after' => (hq _).trans (hsame after')⟩
    · exact .inr ⟨he, hts.after [t] hD⟩

theorem foresees_token {t : Token} {a : α} (hq : ∀ ts', p (t :: ts') = .ok (a, ts')) (hD : D [t]) :
    Foresees length p D (t :: ts) := by
  refine (foresees_stop (p := fun ts => .ok (a, ts)) (D := (· = [])) (fun _ _ => rfl) rfl).cons hq ?_
  rintro _ rfl
  exact hD

/-- One reader goes on where another has stopped. -/
theorem Foresees.bind {g : α → Reader β} {q : Reader β} {E F : List Token → Prop}
    (h : Foresees length p D ts)
    (hnext : ∀ a rest, p ts = .ok (a, rest) → Foresees length (g a) E rest)
    (hq : ∀ ts', q ts' = (p ts').bind fun r => g r.1 r.2) (hfirst : ∀ us, D us → Completable F us)
    (hboth : ∀ us vs, D us → E vs → F (us ++ vs)) : Foresees length q F ts where
  takes := by
    intro b rest hok
    rw [hq] at hok
    obtain ⟨⟨a, mid⟩, ha, hb⟩ := bind_eq_ok hok
    obtain ⟨us, hus, hD, hsame⟩ := h.takes a mid ha
    obtain ⟨vs, rfl, hE, hsame₁⟩ := (hnext a mid ha).takes b rest hb
    refine ⟨us ++ vs, by rw [hus, List.append_assoc], hboth us vs hD hE, ?_⟩
    intro rest' hrest
    rw [hq, List.append_assoc, hsame _ (head?_append vs hrest)]
    exact hsame₁ rest' hrest
  fails := by
    intro e herror
    rw [hq] at herror
    cases hfound : p ts with
    | error e' =>
        rw [hfound] at herror
        cases herror
        rcases h.fails e hfound with ⟨before, t, after, rfl, he, hbefore, hsame⟩ | ⟨he, hts⟩
        · exact .inl ⟨before, t, after, rfl, he, hbefore.append hfirst,
            fun after' => by rw [hq, hsame]; rfl⟩
        · exact .inr ⟨he, hts.append hfirst⟩
    | ok p =>
        obtain ⟨a, mid⟩ := p
        rw [hfound] at herror
        obtain ⟨us, rfl, hD, hsame⟩ := h.takes a mid hfound
        rcases (hnext a mid hfound).fails e herror with ⟨before, t, after, rfl, he, hbefore, hsame₁⟩
          | ⟨he, hmid⟩
        · refine .inl ⟨us ++ before, t, after,
            by rw [List.append_assoc], he, hbefore.after us (hboth us · hD), ?_⟩
          intro after'
          rw [hq, List.append_assoc, hsame _ (head?_append_cons before t after' after)]
          exact hsame₁ after'
        · exact .inr ⟨he, hmid.after us (hboth us · hD)⟩

theorem Foresees.map {q : Reader β} {D' : List Token → Prop} (f : α → β)
    (h : Foresees length p D ts) (hq : ∀ ts', q ts' = (p ts').map fun r => (f r.1, r.2))
    (hD : ∀ us, D us → D' us) :
    Foresees length q D' ts := by
  refine h.bind (g := fun a rest => .ok (f a, rest)) (E := (· = []))
    (fun a rest _ => foresees_stop (fun _ _ => rfl) rfl) ?_ ?_ ?_
  · intro ts'
    rw [hq]
    cases p ts' <;> rfl
  · exact fun us hus => .of (hD us hus)
  · rintro us _ hus rfl
    rw [List.append_nil]
    exact hD us hus

def Enclosed (close : TokenKind) (D : List Token → Prop) (ts : List Token) : Prop :=
  ∃ us v, ts = us ++ [v] ∧ v.kind = close ∧ D us

def Listed (ts : List Token) : Prop := ∃ us vs, ts = us ++ vs ∧ Derives .sum us ∧ Derives .items vs

def Raised (ts : List Token) : Prop :=
  ts = [] ∨ ∃ t us, ts = t :: us ∧ t.kind = .power ∧ Derives .unary us

def IsCloser (close : TokenKind) : Prop := close = .rightParen ∨ close = .rightBracket

theorem derives_unary (h : Derives .primary ts) : Derives .unary ts := .unsigned (.base h)

theorem derives_product (h : Derives .unary ts) : Derives .product ts := by
  simpa only [List.append_nil] using Derives.product h .noFactors

theorem derives_sum (h : Derives .product ts) : Derives .sum ts := by
  simpa only [List.append_nil] using Derives.sum h .noTerms

theorem completable_primary : Completable (Derives .primary) [] :=
  ⟨[⟨.number, "1", 0⟩], by simp [fillers], .number rfl⟩

theorem completable_unary : Completable (Derives .unary) [] :=
  completable_primary.append fun _ h => .of (derives_unary h)

theorem completable_enclosed {close : TokenKind} (hclose : IsCloser close) (h : D ts) :
    Completable (Enclosed close D) ts := by
  rcases hclose with rfl | rfl
  · exact ⟨[⟨.rightParen, ")", 0⟩], by simp [fillers], ts, _, rfl, rfl, h⟩
  · exact ⟨[⟨.rightBracket, "]", 0⟩], by simp [fillers], ts, _, rfl, rfl, h⟩

theorem cons_of_head? {t : Token} {ts' : List Token} (h : ts'.head? = some t) :
    ∃ us, ts' = t :: us := by
  cases ts' with
  | nil => cases h
  | cons u us =>
      cases h
      exact ⟨us, rfl⟩

theorem nil_of_head? {ts' : List Token} (h : ts'.head? = none) : ts' = [] :=
  List.head?_eq_none_iff.mp h

variable (length)

theorem foresees_expect {close : TokenKind} (hclose : IsCloser close) (ts : List Token) :
    Foresees length (fun ts => outcome (expect length close ts)) (Enclosed close (· = [])) ts := by
  cases ts with
  | nil =>
      refine foresees_refuse (e := .expected close (Tokens.stop length)) ?_ rfl
        (completable_enclosed hclose rfl)
      intro ts' h
      rw [nil_of_head? h]
      rfl
  | cons v rest =>
      by_cases hv : v.kind = close
      · refine foresees_token (a := ()) (fun ts' => ?_) ⟨[], v, rfl, hv, rfl⟩
        rw [expect, if_pos hv]
        rfl
      · refine foresees_refuse (e := .expected close v) ?_ rfl (completable_enclosed hclose rfl)
        intro ts' h
        obtain ⟨us, rfl⟩ := cons_of_head? h
        rw [expect, if_neg hv]
        rfl

structure Foreseen (ts : List Token) : Prop where
  sum : Foresees length (fun ts => outcome (sum length ts)) (Derives .sum) ts
  terms : ∀ l, Foresees length (fun ts => outcome (sumLoop length l ts)) (Derives .terms) ts
  product : Foresees length (fun ts => outcome (product length ts)) (Derives .product) ts
  factors : ∀ l, Foresees length (fun ts => outcome (productLoop length l ts)) (Derives .factors) ts
  unary : Foresees length (fun ts => outcome (unary length ts)) (Derives .unary) ts
  sequence : ∀ close, IsCloser close →
    Foresees length (fun ts => outcome (sequence length close ts))
      (Enclosed close (Derives .sequence)) ts
  items : ∀ close, IsCloser close →
    Foresees length (fun ts => outcome (items length close ts)) (Enclosed close Listed) ts

variable {length} (ih : ∀ us : List Token, us.length < ts.length → Foreseen length us)

include ih

theorem foresees_arguments {t : Token} (ht : t.kind = .identifier) :
    Foresees length (arguments length t.text) (fun us => Derives .primary (t :: us)) ts := by
  cases ts with
  | nil => exact foresees_stop (fun ts' h => by rw [nil_of_head? h]; rfl) (.name ht)
  | cons u rest =>
      by_cases hu : u.kind = .leftParen
      · have hsequence := (ih rest (Nat.lt_succ_self _)).sequence .rightParen (.inl rfl)
        refine (hsequence.map (Code.call t.text) (fun _ => rfl) fun _ h => h).cons
          (fun ts' => if_pos hu) ?_
        rintro _ ⟨us, v, rfl, hv, hus⟩
        exact .call ht hu hus hv
      · refine foresees_stop (a := .name t.text) (fun ts' h => ?_) (.name ht)
        obtain ⟨us, rfl⟩ := cons_of_head? h
        exact if_neg hu

theorem foresees_primary :
    Foresees length (fun ts => outcome (primary length ts)) (Derives .primary) ts := by
  cases ts with
  | nil =>
      refine foresees_refuse (e := .unexpected (Tokens.stop length)) ?_ rfl completable_primary
      intro ts' h
      rw [nil_of_head? h, primary]
      rfl
  | cons t rest =>
      have hrest := ih rest (Nat.lt_succ_self _)
      cases ht : t.kind with
      | number =>
          refine foresees_token (a := .number t.text) (fun ts' => ?_) (.number ht)
          rw [primary.eq_def]
          simp only [ht]
          rfl
      | imaginary =>
          refine foresees_token (a := .imaginary t.text) (fun ts' => ?_) (.imaginary ht)
          rw [primary.eq_def]
          simp only [ht]
          rfl
      | identifier =>
          have harguments : Foresees length (arguments length t.text)
              (fun us => Derives .primary (t :: us)) rest :=
            foresees_arguments (fun us hus => ih us (Nat.lt_succ_of_lt hus)) ht
          exact harguments.cons (outcome_primary_identifier length ht) fun _ h => h
      | leftParen =>
          have hinner : Foresees length
              (fun ts => (outcome (Grammar.sum length ts)).bind fun p =>
                (outcome (expect length .rightParen p.2)).map fun q => (Code.paren p.1, q.2))
              (Enclosed .rightParen (Derives .sum)) rest := by
            refine hrest.sum.bind
              (g := fun c ts =>
                (outcome (expect length .rightParen ts)).map fun q => (Code.paren c, q.2))
              (fun c us _ => (foresees_expect length (.inl rfl) us).map (fun _ => Code.paren c)
                (fun _ => rfl) fun _ h => h)
              (fun _ => rfl) (fun us hus => completable_enclosed (.inl rfl) hus) ?_
            rintro us _ hus ⟨_, v, rfl, hv, rfl⟩
            exact ⟨us, v, rfl, hv, hus⟩
          refine hinner.cons (outcome_primary_paren length ht) ?_
          rintro _ ⟨us, v, rfl, hv, hus⟩
          exact .paren ht hus hv
      | leftBracket =>
          refine ((hrest.sequence .rightBracket (.inr rfl)).map Code.list (fun _ => rfl) fun _ h =>
            h).cons (outcome_primary_list length ht) ?_
          rintro _ ⟨us, v, rfl, hv, hus⟩
          exact .list ht hus hv
      | rightParen | rightBracket | plus | minus | star | power | slash | comma | stop =>
          refine foresees_refuse (e := .unexpected t) (fun ts' h => ?_) rfl completable_primary
          obtain ⟨us, rfl⟩ := cons_of_head? h
          rw [primary.eq_def]
          simp only [ht]
          rfl

theorem foresees_exponent (base : Code) : Foresees length (exponent length base) Raised ts := by
  cases ts with
  | nil => exact foresees_stop (fun ts' h => by rw [nil_of_head? h]; rfl) (.inl rfl)
  | cons t rest =>
      by_cases ht : t.kind = .power
      · refine ((ih rest (Nat.lt_succ_self _)).unary.map (Code.power base) (fun _ => rfl) fun _ h =>
          h).cons (fun ts' => if_pos ht) ?_
        exact fun us hus => .inr ⟨t, us, rfl, ht, hus⟩
      · refine foresees_stop (a := base) (fun ts' h => ?_) (.inl rfl)
        obtain ⟨us, rfl⟩ := cons_of_head? h
        exact if_neg ht

theorem foresees_power :
    Foresees length (fun ts => outcome (power length ts)) (Derives .power) ts := by
  refine (foresees_primary ih).bind (E := Raised)
    (fun c us h => foresees_exponent
      (fun vs hvs => ih vs (Nat.lt_trans hvs (length_lt_of_outcome h))) c)
    (outcome_power length) (fun us hus => .of (.base hus)) ?_
  rintro us vs hus (rfl | ⟨t, ws, rfl, ht, hws⟩)
  · rw [List.append_nil]
    exact .base hus
  · exact .power hus ht hws

theorem foresees_unary :
    Foresees length (fun ts => outcome (unary length ts)) (Derives .unary) ts := by
  cases ts with
  | nil =>
      refine foresees_refuse (e := .unexpected (Tokens.stop length)) ?_ rfl completable_unary
      intro ts' h
      rw [nil_of_head? h, unary]
      rfl
  | cons t rest =>
      have hrest := (ih rest (Nat.lt_succ_self _)).unary
      by_cases hminus : t.kind = .minus
      · exact (hrest.map Code.negative (fun _ => rfl) fun _ h => h).cons
          (outcome_unary_minus length hminus) fun _ h => .negative hminus h
      · by_cases hplus : t.kind = .plus
        · exact (hrest.map Code.positive (fun _ => rfl) fun _ h => h).cons
            (outcome_unary_plus length hplus) fun _ h => .positive hplus h
        · refine (foresees_power ih).congr (fun ts' h => ?_) fun _ h => .unsigned h
          obtain ⟨us, rfl⟩ := cons_of_head? h
          exact outcome_unary_power length hminus hplus us

omit ih in
/-- A chain: an operand after each mark, until there is no mark. -/
theorem foresees_chain {loop operand : Reader Code} {g : Token → Code → Reader Code}
    {Marked : Token → Prop} {Ds : List Token → Prop}
    {l : Code} (hstop : ∀ us : List Token, (∀ t ∈ us.head?, ¬ Marked t) → loop us = .ok (l, us))
    (hstep : ∀ t us, Marked t → loop (t :: us) = (operand us).bind fun p => g t p.1 p.2)
    (hnil : Ds []) (hcons : ∀ t us vs, Marked t → D us → Ds vs → Ds (t :: (us ++ vs)))
    (hoperand : ∀ t rest, ts = t :: rest → Foresees length operand D rest)
    (hnext : ∀ t rest c us, ts = t :: rest → operand rest = .ok (c, us) →
      Foresees length (g t c) Ds us) :
    Foresees length loop Ds ts := by
  by_cases h : ∀ t ∈ ts.head?, ¬ Marked t
  · exact foresees_stop (fun ts' hts => hstop ts' (hts ▸ h)) hnil
  · cases ts with
    | nil => exact absurd nofun h
    | cons t rest =>
        have ht : Marked t := by
          refine Classical.byContradiction fun hnot => h ?_
          rintro _ ⟨⟩
          exact hnot
        have hinner : Foresees length (fun us => (operand us).bind fun p => g t p.1 p.2)
            (fun us => Ds (t :: us)) rest := by
          refine (hoperand t rest rfl).bind (E := Ds) (hnext t rest · · rfl) (fun _ => rfl)
            (fun us hus => .of ?_) fun us vs => hcons t us vs ht
          simpa only [List.append_nil] using hcons t us [] ht hus hnil
        exact hinner.cons (hstep t · ht) fun _ h => h

theorem foresees_factors (l : Code) :
    Foresees length (fun ts => outcome (productLoop length l ts)) (Derives .factors) ts := by
  refine foresees_chain
    (g := fun t c us =>
      outcome (productLoop length (if t.kind = .star then .mul l c else .div l c) us))
    (fun _ => outcome_productLoop_stop length l)
    (fun t us ht => outcome_productLoop_step length ht l us) .noFactors (fun _ _ _ => .factor) ?_ ?_
  · rintro t rest rfl
    exact (ih rest (Nat.lt_succ_self _)).unary
  · rintro t rest c us rfl h
    exact (ih us (Nat.lt_succ_of_lt (length_lt_of_outcome h))).factors _

theorem foresees_product :
    Foresees length (fun ts => outcome (product length ts)) (Derives .product) ts :=
  (foresees_unary ih).bind (fun c us h => (ih us (length_lt_of_outcome h)).factors c)
    (outcome_product length) (fun _ hus => .of (derives_product hus)) fun _ _ => .product

theorem foresees_terms (l : Code) :
    Foresees length (fun ts => outcome (sumLoop length l ts)) (Derives .terms) ts := by
  refine foresees_chain (g :=
    fun t c us => outcome (sumLoop length (if t.kind = .plus then .add l c else .sub l c) us))
    (fun _ => outcome_sumLoop_stop length l) (fun t us ht => outcome_sumLoop_step length ht l us)
      .noTerms (fun _ _ _ => .term) ?_ ?_
  · rintro t rest rfl
    exact (ih rest (Nat.lt_succ_self _)).product
  · rintro t rest c us rfl h
    exact (ih us (Nat.lt_succ_of_lt (length_lt_of_outcome h))).terms _

theorem foresees_sum : Foresees length (fun ts => outcome (sum length ts)) (Derives .sum) ts :=
  (foresees_product ih).bind (fun c us h => (ih us (length_lt_of_outcome h)).terms c)
    (outcome_sum length) (fun _ hus => .of (derives_sum hus)) fun _ _ => .sum

theorem foresees_further {close : TokenKind} (hclose : IsCloser close) (c : Code) :
    Foresees length (further length close c) (Enclosed close (Derives .items)) ts := by
  cases ts with
  | nil =>
      refine foresees_refuse (e := .expected close (Tokens.stop length)) ?_ rfl
        (completable_enclosed hclose .noItems)
      intro ts' h
      rw [nil_of_head? h]
      rfl
  | cons t rest =>
      by_cases hcomma : t.kind = .comma
      · refine (((ih rest (Nat.lt_succ_self _)).items close hclose).map (c :: ·) (fun _ => rfl)
          fun _ h => h).cons (fun ts' => if_pos hcomma) ?_
        rintro _ ⟨_, v, rfl, hv, us, vs, rfl, hus, hvs⟩
        exact ⟨t :: (us ++ vs), v, rfl, hv, .item hcomma hus hvs⟩
      · by_cases ht : t.kind = close
        · exact foresees_token (a := [c]) (fun ts' => (if_neg hcomma).trans (if_pos ht)) ⟨[], t,
            rfl, ht, .noItems⟩
        · refine foresees_refuse (e := .expected close t) ?_ rfl
            (completable_enclosed hclose .noItems)
          intro ts' h
          obtain ⟨us, rfl⟩ := cons_of_head? h
          exact (if_neg hcomma).trans (if_neg ht)

theorem foresees_items {close : TokenKind} (hclose : IsCloser close) :
    Foresees length (fun ts => outcome (items length close ts)) (Enclosed close Listed) ts := by
  refine (foresees_sum ih).bind
    (fun c us h => foresees_further
      (fun vs hvs => ih vs (Nat.lt_trans hvs (length_lt_of_outcome h))) hclose c)
    (outcome_items length close)
    (fun us hus => completable_enclosed hclose ⟨us, [], by rw [List.append_nil], hus, .noItems⟩) ?_
  rintro us _ hus ⟨vs, v, rfl, hv, hvs⟩
  exact ⟨us ++ vs, v, by rw [List.append_assoc], hv, us, vs, rfl, hus, hvs⟩

theorem foresees_sequence {close : TokenKind} (hclose : IsCloser close) :
    Foresees length (fun ts => outcome (sequence length close ts))
      (Enclosed close (Derives .sequence)) ts := by
  by_cases h : ∀ t ∈ ts.head?, t.kind ≠ close
  · refine (foresees_items ih hclose).congr (fun ts' hts => outcome_sequence_items length (hts ▸ h))
      ?_
    rintro _ ⟨_, v, rfl, hv, us, vs, rfl, hus, hvs⟩
    exact ⟨us ++ vs, v, rfl, hv, .sequence hus hvs⟩
  · cases ts with
    | nil => exact absurd nofun h
    | cons t rest =>
        have ht : t.kind = close := by simpa using h
        exact foresees_token (outcome_sequence_close length ht) ⟨[], t, rfl, ht, .nothing⟩

omit ih in
/-- Every function calls the others on fewer tokens, or on the same after the functions that take
fewer have been dealt with. -/
theorem foreseen (ts : List Token) : Foreseen length ts := by
  induction hn : ts.length using Nat.strongRecOn generalizing ts with
  | ind n ih =>
      subst hn
      have ih (us : List Token) (hus : us.length < ts.length) : Foreseen length us :=
        ih us.length hus us rfl
      exact ⟨foresees_sum ih, foresees_terms ih, foresees_product ih, foresees_factors ih,
        foresees_unary ih, fun _ => foresees_sequence ih, fun _ => foresees_items ih⟩

end Grammar

def ending (c : Code) : List Token → Except CodeError (Code × List Token)
  | [] => .ok (c, [])
  | t :: _ => .error (.expected .stop t)

theorem ofTokens_eq_bind (ts : Tokens) :
    (ofTokens ts).map (·, []) = (Grammar.outcome (Grammar.sum ts.length ts.tokens)).bind fun p =>
      ending p.1 p.2 := by
  rw [ofTokens]
  cases Grammar.sum ts.length ts.tokens with
  | error e => rfl
  | ok p =>
      obtain ⟨c, rest, below⟩ := p
      cases rest <;> rfl

theorem foresees_ofTokens (length : Nat) (ts : List Token) :
    Grammar.Foresees length (fun ts => (ofTokens ⟨ts, length⟩).map (·, [])) (Derives .sum) ts := by
  refine (Grammar.foreseen ts).sum.bind (g := ending) (E := (· = [])) (fun c rest _ => ?_)
    (fun ts' => ofTokens_eq_bind ⟨ts', length⟩) (fun us hus => .of hus) ?_
  · cases rest with
    | nil =>
      exact Grammar.foresees_stop (a := c) (fun ts' h => by rw [Grammar.nil_of_head? h]; rfl) rfl
    | cons t rest =>
        refine Grammar.foresees_refuse (e := .expected .stop t) (fun ts' h => ?_) rfl (.of rfl)
        obtain ⟨us, rfl⟩ := Grammar.cons_of_head? h
        rfl
  · rintro us _ hus rfl
    rwa [List.append_nil]

/-- The reader accepts what derives from a sum, and the tree it returns is the only one that the
tokens spell. -/
theorem ofTokens_iff (ts : Tokens) :
    ((∃ c, ofTokens ts = .ok c) ↔ Derives .sum ts.tokens) ∧
      ∀ c, ofTokens ts = .ok c ↔ Spelled (.code .sum c) ts.tokens := by
  have hderives (c : Code) (h : ofTokens ts = .ok c) : Derives .sum ts.tokens := by
    obtain ⟨us, hus, hsum, -⟩ := (foresees_ofTokens ts.length ts.tokens).takes c [] (by rw [h]; rfl)
    rwa [hus, List.append_nil]
  have hspells (h : Derives .sum ts.tokens) :
      ∃ c, ofTokens ts = .ok c ∧ Spelled (.code .sum c) ts.tokens := by
    obtain ⟨c, hc⟩ := h.spells
    exact ⟨c, ofTokens_of_spelled hc, hc⟩
  refine ⟨⟨fun ⟨c, hc⟩ => hderives c hc, fun h => ?_⟩, fun c => ⟨fun h => ?_, ofTokens_of_spelled⟩⟩
  · obtain ⟨c, hc, -⟩ := hspells h
    exact ⟨c, hc⟩
  · obtain ⟨d, hd, hspelled⟩ := hspells (hderives c h)
    obtain rfl : d = c := Except.ok.inj (hd.symm.trans h)
    exact hspelled

end Code

end Formulary
