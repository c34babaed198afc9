import Formulary.Proofs.Assumption.Bound
import Formulary.Proofs.Assumption.Clause
import Mathlib

namespace Formulary.Assumptions

def separators : List (List Char) := [['&', '&'], [',']]

def Unseparated (cs : List Char) : Prop := ∀ s ∈ separators, ¬ s <:+: cs

instance : DecidablePred Unseparated :=
  fun cs => inferInstanceAs (Decidable (∀ s ∈ separators, ¬ s <:+: cs))

/-- A text and its pieces: every separator is the first that there is in what is left of the text. -/
inductive Splits : List Char → List (List Char) → Prop
  | last {cs} : Unseparated cs → Splits cs [cs]
  | more {s p rest ps} : s ∈ separators → Unseparated (p ++ s.dropLast) → Splits rest ps →
    Splits (p ++ s ++ rest) (p :: ps)

variable {c : Char} {cs p s rest : List Char} {ps : List (List Char)}

theorem forall_separators {P : List Char → Prop} :
    (∀ s ∈ separators, P s) ↔ P ['&', '&'] ∧ P [','] := by
  simp [separators]

theorem unseparated_cons : Unseparated (c :: cs) ↔ (c ≠ ',' ∧ ¬ (c = '&' ∧ cs.head? = some '&')) ∧
    Unseparated cs := by
  have hcomma : [','] <+: c :: cs ↔ c = ',' := by
    rw [List.cons_prefix_cons, eq_comm, and_iff_left List.nil_prefix]
  have hpair : ['&', '&'] <+: c :: cs ↔ c = '&' ∧ cs.head? = some '&' := by
    rw [List.cons_prefix_cons, eq_comm]
    cases cs with
    | nil => simp
    | cons d ds => simp [eq_comm]
  rw [Unseparated, Unseparated, forall_separators, forall_separators, List.infix_cons_iff,
    List.infix_cons_iff, hcomma, hpair]
  tauto

theorem pieces_comma (cs : List Char) : pieces (',' :: cs) = [] :: pieces cs := by
  rw [pieces]
  · rfl
  · rintro _ ⟨⟩

theorem pieces_cons (h : c ≠ ',' ∧ ¬ (c = '&' ∧ cs.head? = some '&')) (hcs : pieces cs = p :: ps) :
    pieces (c :: cs) = (c :: p) :: ps := by
  rw [pieces, hcs, if_neg (by simpa using h.1)]
  rintro ds rfl rfl
  exact h.2 ⟨rfl, rfl⟩

theorem pieces_of_unseparated (h : Unseparated cs) : pieces cs = [cs] := by
  induction cs with
  | nil => rfl
  | cons c cs ih =>
      obtain ⟨hc, hcs⟩ := unseparated_cons.mp h
      exact pieces_cons hc (ih hcs)

/-- The first character of a separator is seen before the separator is whole. -/
theorem head_dropLast (hs : s ∈ separators) :
    (p ++ s.dropLast).head? = some '&' ↔ (p ++ s ++ rest).head? = some '&' := by
  cases p with
  | cons d p => exact Iff.rfl
  | nil =>
      revert s
      rw [forall_separators]
      exact ⟨iff_of_true rfl rfl, iff_of_false nofun (by simp)⟩

theorem pieces_append (hs : s ∈ separators) (h : Unseparated (p ++ s.dropLast)) :
    pieces (p ++ s ++ rest) = p :: pieces rest := by
  induction p with
  | nil =>
      revert s
      rw [forall_separators]
      exact ⟨fun _ => rfl, fun _ => pieces_comma rest⟩
  | cons c p ih =>
      obtain ⟨⟨hcomma, hpair⟩, hrest⟩ := unseparated_cons.mp h
      exact pieces_cons ⟨hcomma, fun ⟨hc, hhead⟩ => hpair ⟨hc, (head_dropLast hs).mpr hhead⟩⟩
        (ih hrest)

theorem splits_cons (h : c ≠ ',' ∧ ¬ (c = '&' ∧ cs.head? = some '&')) (hcs : Splits cs (p :: ps)) :
    Splits (c :: cs) ((c :: p) :: ps) := by
  cases hcs with
  | last hp => exact .last (unseparated_cons.mpr ⟨h, hp⟩)
  | @more s _ _ _ hs hp hrest =>
      have hfirst : Unseparated (c :: p ++ s.dropLast) :=
        unseparated_cons.mpr ⟨⟨h.1, fun ⟨hc, hhead⟩ => h.2 ⟨hc, (head_dropLast hs).mp hhead⟩⟩, hp⟩
      exact .more hs hfirst hrest

theorem splits_pieces (cs : List Char) : Splits cs (pieces cs) := by
  fun_induction pieces cs with
  | case1 => exact .last (by decide)
  | case2 cs ih => exact .more (s := ['&', '&']) (p := []) (by decide) (by decide) ih
  | case3 c cs _ hcomma ih =>
      obtain rfl := beq_iff_eq.mp hcomma
      exact .more (s := [',']) (p := []) (by decide) (by decide) ih
  | case4 c cs _ _ hnil ih =>
      rw [hnil] at ih
      cases ih
  | case5 c cs hpair hcomma p ps hcs ih =>
      rw [hcs] at ih
      refine splits_cons ⟨fun hc => hcomma (beq_iff_eq.mpr hc), fun ⟨hc, hhead⟩ => ?_⟩ ih
      obtain ⟨ds, rfl⟩ := List.head?_eq_some_iff.mp hhead
      exact hpair ds hc rfl

theorem splits_iff : Splits cs ps ↔ pieces cs = ps := by
  constructor
  · intro h
    induction h with
    | last h => exact pieces_of_unseparated h
    | more hs h _ ih => rw [pieces_append hs h, ih]
  · rintro rfl
    exact splits_pieces cs

section Sequences

variable {α β ε : Type} {f : α → Except ε β} {as : List α}

theorem forall₂_of_mapM {bs : List β} (h : as.mapM f = .ok bs) :
    List.Forall₂ (fun a b => f a = .ok b) as bs := by
  induction as generalizing bs with
  | nil =>
      cases h
      exact .nil
  | cons a as ih =>
      rw [List.mapM_cons] at h
      cases ha : f a with
      | error e =>
          rw [ha] at h
          cases h
      | ok b =>
          cases has : as.mapM f with
          | error e =>
              rw [ha, has] at h
              cases h
          | ok bs =>
              rw [ha, has] at h
              cases h
              exact .cons ha (ih has)

theorem mapM_of_forall₂ {bs : List β} (h : List.Forall₂ (fun a b => f a = .ok b) as bs) :
    as.mapM f = .ok bs := by
  induction h with
  | nil => rfl
  | cons ha _ ih =>
      rw [List.mapM_cons, ha, ih]
      rfl

theorem exists_of_mapM_error {e : ε} (h : as.mapM f = .error e) :
    ∃ front a back, as = front ++ a :: back ∧ (∀ b ∈ front, ∃ y, f b = .ok y) ∧ f a = .error e := by
  induction as with
  | nil => cases h
  | cons a as ih =>
      rw [List.mapM_cons] at h
      cases ha : f a with
      | error e' =>
          rw [ha] at h
          cases h
          exact ⟨[], a, as, rfl, nofun, ha⟩
      | ok b =>
          cases has : as.mapM f with
          | ok bs =>
              rw [ha, has] at h
              cases h
          | error e' =>
              rw [ha, has] at h
              cases h
              obtain ⟨front, a', back, rfl, hfront, ha'⟩ := ih has
              exact ⟨a :: front, a', back, rfl, List.forall_mem_cons.mpr ⟨⟨b, ha⟩, hfront⟩, ha'⟩

end Sequences

def IsClause (p : List Char) : Prop := ∃ c : Clause, c.WellFormed ∧ c.chars = p

/-- The pieces without the white space around them, and those with nothing else left out. -/
def nonblank (ps : List (List Char)) : List (List Char) := (ps.map Text.trim).filter (!·.isEmpty)

theorem trimmed_of_mem_nonblank (h : p ∈ nonblank ps) : Text.Trimmed p := by
  obtain ⟨q, -, rfl⟩ := List.mem_map.mp (List.mem_of_mem_filter h)
  exact Text.trimmed_trim q

/-- A number is read at a place beside it. -/
theorem SignedNumeral.exists_place (n : SignedNumeral) :
    ∃ y, (Number.toExact (n.bound : Float)).toEReal? = some y ∧ Double.Adjacent n.value y := by
  obtain ⟨y, hy, hadjacent⟩ := Double.adjacent_ofDecimal n.literal.value
  have hread : (Number.toExact (Number.ofDecimal n.literal.value : Float)).toEReal? = some y := hy
  rw [bound, value]
  split
  · refine ⟨-y, ?_, hadjacent.neg⟩
    rw [Double.toEReal?_neg, hread]
    rfl
  · exact ⟨y, hread, hadjacent⟩

/-- The fact is about the name, and it holds of a value of the name exactly when the comparison
does, with the number at the place where it is read. -/
structure Clause.Kept (c : Clause) (f : Fact Float) : Prop where
  subject : f.subject = .symbol (String.ofList c.name)
  holds : ∃ y, (Number.toExact (c.numeral.bound : Float)).toEReal? = some y ∧
    Double.Adjacent c.numeral.value y ∧
    ∀ (I : Interpretation ℂ) (v : ℝ), I.symbol (String.ofList c.name) = some (v : ℂ) →
      (f.Satisfied I ↔ c.Holds v y)

theorem Clause.kept_fact {c : Clause} {r : Relation} (hr : (c.token, r) ∈ relationTokens) :
    c.Kept (c.fact r) := by
  obtain ⟨y, hy, hadjacent⟩ := c.numeral.exists_place
  refine ⟨rfl, y, hy, hadjacent, fun I v hv => ?_⟩
  have hvalue : I.value (c.fact r : Fact Float).subject = some (v : ℂ) := hv
  rw [Fact.Satisfied, ← c.holdsOf_iff (ν := Float) hr hy, hvalue]
  constructor
  · rintro ⟨w, hw, hholds⟩
    rwa [Complex.ofReal_injective (Option.some.inj hw)]
  · exact fun hholds => ⟨v, rfl, hholds⟩

theorem Clause.WellFormed.exists_relation {c : Clause} (hc : c.WellFormed) :
    ∃ r, (c.token, r) ∈ relationTokens := by
  have htoken := hc.token
  rw [tokens_eq] at htoken
  obtain ⟨⟨t, r⟩, hr, ht⟩ := List.mem_map.mp htoken
  exact ⟨r, ht ▸ hr⟩

theorem IsClause.exists_fact (h : IsClause p) : ∃ f : Fact Float, readClause p = .ok f := by
  obtain ⟨c, hc, rfl⟩ := h
  obtain ⟨r, hr⟩ := hc.exists_relation
  exact ⟨c.fact r, hc.readClause_eq hr⟩

theorem isClause_of_readClause {f : Fact Float} (hp : Text.Trimmed p) (h : readClause p = .ok f) :
    IsClause p := by
  obtain ⟨c, -, hc, hchars, -⟩ := (readClause_eq_ok_iff hp).mp h
  exact ⟨c, hc, hchars⟩

/-- In whatever way a text is a clause, the fact that is read says the same. -/
theorem Clause.WellFormed.kept {c : Clause} (hc : c.WellFormed) {f : Fact Float}
    (h : readClause c.chars = .ok f) : c.Kept f := by
  obtain ⟨r, hr⟩ := hc.exists_relation
  obtain rfl := Except.ok.inj ((hc.readClause_eq hr).symm.trans h)
  exact kept_fact hr

variable {text : String}

theorem read_eq (hempty : Text.trim text.toList ≠ [])
    (htrue : Text.trim text.toList ≠ ['T', 'r', 'u', 'e']) :
    (read text : Except ClauseError (Assumptions Float)) =
      ((nonblank (pieces (Text.trim text.toList))).mapM readClause).map .stated := by
  rw [read, if_neg (not_or.mpr ⟨hempty, htrue⟩)]
  have hclauses : clauses (Text.trim text.toList) = nonblank (pieces (Text.trim text.toList)) := rfl
  rw [hclauses]
  cases (nonblank (pieces (Text.trim text.toList))).mapM (readClause (ν := Float)) <;> rfl

/-- A text is read exactly if its pieces are clauses, the blank ones apart. Then it states one fact
for each of these, in order, that says what the clause says; else the first piece that is no clause
is reported. -/
theorem read_exact (hempty : Text.trim text.toList ≠ [])
    (htrue : Text.trim text.toList ≠ ['T', 'r', 'u', 'e']) :
    ∃ ps, (∀ qs, Splits (Text.trim text.toList) qs ↔ ps = qs) ∧
      ((∃ a : Assumptions Float, read text = .ok a) ↔ ∀ p ∈ nonblank ps, IsClause p) ∧
      (∀ a : Assumptions Float, read text = .ok a → ∃ facts, a = .stated facts ∧
        List.Forall₂ (fun p f => ∀ c : Clause, c.WellFormed → c.chars = p → c.Kept f)
          (nonblank ps) facts) ∧
      ∀ e, (read text : Except ClauseError (Assumptions Float)) = .error e →
        ∃ front p back, nonblank ps = front ++ p :: back ∧ (∀ q ∈ front, IsClause q) ∧
          ¬ IsClause p ∧ e.clause = String.ofList p := by
  refine ⟨pieces (Text.trim text.toList), fun qs => splits_iff, ?_⟩
  have hread := read_eq hempty htrue
  generalize hps : nonblank (pieces (Text.trim text.toList)) = ps at hread ⊢
  have htrimmed (p : List Char) (hp : p ∈ ps) : Text.Trimmed p := trimmed_of_mem_nonblank (hps ▸ hp)
  cases hfacts : ps.mapM (readClause (ν := Float)) with
  | ok facts =>
      rw [hfacts] at hread
      have hall := forall₂_of_mapM hfacts
      have hclauses : List.Forall₂ (fun p f => IsClause p ∧ readClause p = .ok f) ps facts :=
        ((List.forall₂_and_left ps facts).mpr ⟨htrimmed, hall⟩).imp fun p f h =>
          ⟨isClause_of_readClause h.1 h.2, h.2⟩
      refine ⟨iff_of_true ⟨_, hread⟩ ((List.forall₂_and_left ps facts).mp hclauses).1, ?_, ?_⟩
      · intro a ha
        obtain rfl := Except.ok.inj (hread.symm.trans ha)
        refine ⟨facts, rfl, hall.imp ?_⟩
        rintro _ f hf c hc rfl
        exact hc.kept hf
      · intro e he
        rw [hread] at he
        cases he
  | error e =>
      rw [hfacts] at hread
      obtain ⟨front, p, back, rfl, hfront, hp⟩ := exists_of_mapM_error hfacts
      have hnot : ¬ IsClause p := by
        intro h
        obtain ⟨f, hf⟩ := h.exists_fact
        rw [hf] at hp
        cases hp
      refine ⟨iff_of_false ?_ fun h => hnot (h p (by simp)), ?_, ?_⟩
      · rintro ⟨a, ha⟩
        rw [hread] at ha
        cases ha
      · intro a ha
        rw [hread] at ha
        cases ha
      · intro e' he'
        obtain rfl := Except.error.inj (hread.symm.trans he')
        refine ⟨front, p, back, rfl, fun q hq => ?_, hnot, clause_of_error hp⟩
        obtain ⟨f, hf⟩ := hfront q hq
        exact isClause_of_readClause (htrimmed q (by simp [hq])) hf

/-- Both pieces are clauses, and each of the two facts says what its clause says. -/
theorem read_exact_pair :
    (Text.trim "x > 0, 1 <= y".toList ≠ [] ∧
        Text.trim "x > 0, 1 <= y".toList ≠ ['T', 'r', 'u', 'e']) ∧
      (read "x > 0, 1 <= y" : Except ClauseError (Assumptions Float)) =
        .ok (.stated [⟨.symbol "x", .gt, 0⟩, ⟨.symbol "y", .ge, 1⟩]) ∧
      ∃ ps, Splits (Text.trim "x > 0, 1 <= y".toList) ps ∧ (∀ p ∈ nonblank ps, IsClause p) ∧
        List.Forall₂ (fun p f => ∀ c : Clause, c.WellFormed → c.chars = p → c.Kept f) (nonblank ps)
          ([⟨.symbol "x", .gt, 0⟩, ⟨.symbol "y", .ge, 1⟩] : List (Fact Float)) := by
  have hempty : Text.trim "x > 0, 1 <= y".toList ≠ [] := by decide
  have htrue : Text.trim "x > 0, 1 <= y".toList ≠ ['T', 'r', 'u', 'e'] := by decide
  have hread : (read "x > 0, 1 <= y" : Except ClauseError (Assumptions Float)) =
      .ok (.stated [⟨.symbol "x", .gt, 0⟩, ⟨.symbol "y", .ge, 1⟩]) := rfl
  obtain ⟨ps, hps, hclauses, hfacts, -⟩ := read_exact hempty htrue
  obtain ⟨facts, hstated, hkept⟩ := hfacts _ hread
  cases hstated
  exact ⟨⟨hempty, htrue⟩, hread, ps, (hps ps).mpr rfl, hclauses.mp ⟨_, hread⟩, hkept⟩

/-- A comparison with a number that no double but zero is near. -/
def underflow : Clause :=
  ⟨['x'], ⟨none, ⟨['1'], none, some ⟨'e', some '-', ['5', '0', '0']⟩⟩⟩, false, [' '], ['<'], [' ']⟩

theorem wellFormed_underflow : underflow.WellFormed := by
  have hblank : Text.IsBlank [' '] := List.forall_mem_singleton.mpr rfl
  have hliteral : underflow.numeral.literal.WellFormed := by
    refine ⟨List.forall_mem_singleton.mpr rfl, nofun, fun h => List.cons_ne_nil _ _ h.1, ?_⟩
    rintro _ ⟨⟩
    exact ⟨.inl rfl, .inr (.inr rfl), List.all_eq_true.mp rfl, List.cons_ne_nil _ _⟩
  exact ⟨isName_iff.mp rfl, ⟨.inl rfl, hliteral⟩, hblank, by decide, hblank⟩

theorem bound_underflow : (underflow.numeral.bound : Float) = 0 := by
  rw [SignedNumeral.bound, if_neg (by decide)]
  change Double.ofDecimal ⟨1, -500⟩ = 0
  have hcount : Decimal.digitCount 1 = 1 := by decide
  simp [Double.ofDecimal, hcount]

/-- The number is read as zero, and zero itself is not below that. -/
theorem read_underflow :
    underflow.WellFormed ∧ underflow.chars = "x < 1e-500".toList ∧
      ∃ f : Fact Float, read "x < 1e-500" = .ok (.stated [f]) ∧
        underflow.Holds ((0 : ℝ) : EReal) ((underflow.numeral.value : ℝ) : EReal) ∧
        ∀ I : Interpretation ℂ, I.symbol "x" = some 0 → ¬ f.Satisfied I := by
  have hr : (underflow.token, Relation.lt) ∈ relationTokens := by decide
  have hvalue : underflow.numeral.value = 1 * 10 ^ (-500 : ℤ) := rfl
  refine ⟨wellFormed_underflow, rfl, underflow.fact .lt, ?_, ?_, ?_⟩
  · have hpieces : nonblank (pieces (Text.trim "x < 1e-500".toList)) = [underflow.chars] := rfl
    rw [read_eq (by decide) (by decide), hpieces, List.mapM_cons,
      wellFormed_underflow.readClause_eq hr]
    rfl
  · rw [hvalue]
    change ((0 : ℝ) : EReal) < _
    rw [EReal.coe_lt_coe_iff]
    positivity
  · rintro I hI ⟨v, hv, hholds⟩
    have hplace : (Number.toExact (underflow.fact .lt : Fact Float).bound).toEReal? = some 0 := by
      change (Number.toExact (underflow.numeral.bound : Float)).toEReal? = some 0
      have hzero : Number.toExact (0 : Float) = Number.zero := Number.toExact_zero
      rw [bound_underflow, hzero, Exact.toEReal?_zero]
    have hx : I.symbol "x" = some (v : ℂ) := hv
    obtain rfl : v = 0 := by
      rw [hI, Option.some.injEq] at hx
      exact_mod_cast hx.symm
    rw [underflow.holdsOf_iff hr hplace] at hholds
    exact lt_irrefl _ hholds

end Formulary.Assumptions
