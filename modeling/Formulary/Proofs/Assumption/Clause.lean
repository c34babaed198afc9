import Formulary.Proofs.Assumption.Word
import Formulary.Proofs.Sign.Facts
import Mathlib

namespace Formulary.Assumptions

def tokens : List (List Char) :=
  [['>', '='], ['≥'], ['<', '='], ['≤'], ['=', '='], ['!', '='], ['≠'], ['>'], ['<']]

def Says : List Char → EReal → EReal → Prop
  | ['>', '='], x, y => y ≤ x
  | ['≥'], x, y => y ≤ x
  | ['<', '='], x, y => x ≤ y
  | ['≤'], x, y => x ≤ y
  | ['=', '='], x, y => x = y
  | ['!', '='], x, y => x ≠ y
  | ['≠'], x, y => x ≠ y
  | ['>'], x, y => y < x
  | ['<'], x, y => x < y
  | _, _, _ => False

/-- A comparison as it is written: a name and a number in either order, and white space around the
relation between them. -/
structure Clause where
  name : List Char
  numeral : SignedNumeral
  numberFirst : Bool
  before : List Char
  token : List Char
  after : List Char

namespace Clause

def left (c : Clause) : List Char := if c.numberFirst then c.numeral.chars else c.name

def right (c : Clause) : List Char := if c.numberFirst then c.name else c.numeral.chars

def chars (c : Clause) : List Char := c.left ++ c.before ++ c.token ++ (c.after ++ c.right)

structure WellFormed (c : Clause) : Prop where
  name : IsName c.name
  numeral : c.numeral.WellFormed
  before : Text.IsBlank c.before
  token : c.token ∈ tokens
  after : Text.IsBlank c.after

def Holds (c : Clause) (x y : EReal) : Prop :=
  if c.numberFirst then Says c.token y x else Says c.token x y

def fact {ν : Type} [Number ν] (c : Clause) (r : Relation) : Fact ν :=
  ⟨.symbol (String.ofList c.name), if c.numberFirst then r.flip else r, c.numeral.bound⟩

end Clause

section Tokens

variable {t : List Char} {r : Relation} {x : ℝ} {y : EReal} {bound : Exact}

theorem tokens_eq : tokens = relationTokens.map Prod.fst := rfl

theorem marks_of_mem (ht : t ∈ tokens) : t ≠ [] ∧ ∀ m ∈ t, m ∈ marks := by
  revert t
  simp [tokens, marks]

theorem pairwise_relationTokens : relationTokens.Pairwise fun p q => ¬ p.1 <:+: q.1 := by
  decide +kernel

/-- A relation of the table holds as it is written, and from the other side when it is turned
around. -/
theorem says_iff (ht : (t, r) ∈ relationTokens) (hy : bound.toEReal? = some y) :
    (r.HoldsOf x bound ↔ Says t x y) ∧ (r.flip.HoldsOf x bound ↔ Says t y x) := by
  rw [Relation.HoldsOf, Relation.HoldsOf, hy]
  simp only [relationTokens, List.mem_cons, Prod.mk.injEq, List.not_mem_nil, or_false] at ht
  rcases ht with ⟨rfl, rfl⟩ | ⟨rfl, rfl⟩ | ⟨rfl, rfl⟩ | ⟨rfl, rfl⟩ | ⟨rfl, rfl⟩ | ⟨rfl, rfl⟩
    | ⟨rfl, rfl⟩ | ⟨rfl, rfl⟩ | ⟨rfl, rfl⟩
  all_goals
    refine ⟨Iff.rfl, ?_⟩
    first | exact Iff.rfl | exact eq_comm | exact ne_comm

end Tokens

section Splitting

variable {t cs l r : List Char} {m : Char}

theorem append_of_splitAt? (h : splitAt? t cs = some (l, r)) : cs = l ++ t ++ r := by
  induction cs generalizing l with
  | nil =>
      rw [splitAt?] at h
      split at h
      · next hempty =>
        cases h
        rw [List.isEmpty_iff.mp hempty]
        rfl
      · cases h
  | cons c cs ih =>
      rw [splitAt?] at h
      split at h
      · next rest hprefix =>
        cases h
        exact (List.isPrefixOf?_eq_some_iff_append_eq.mp hprefix).symm
      · obtain ⟨⟨l, r⟩, hsplit, h⟩ := Option.map_eq_some_iff.mp h
        cases h
        rw [ih hsplit]
        rfl

theorem splitAt?_append (hl : m ∉ l) : splitAt? (m :: t) (l ++ m :: t ++ r) = some (l, r) := by
  induction l with
  | nil =>
      have hprefix : (m :: t).isPrefixOf? (m :: (t ++ r)) = some r :=
        List.isPrefixOf?_eq_some_iff_append_eq.mpr rfl
      change splitAt? (m :: t) (m :: (t ++ r)) = some ([], r)
      rw [splitAt?, hprefix]
  | cons c l ih =>
      obtain ⟨hc, hl⟩ := not_or.mp (mt List.mem_cons.mpr hl)
      have hprefix : (m :: t).isPrefixOf? (c :: (l ++ m :: t ++ r)) = none := by
        rw [List.isPrefixOf?, if_neg (by simpa using hc)]
      change splitAt? (m :: t) (c :: (l ++ m :: t ++ r)) = some (c :: l, r)
      rw [splitAt?, hprefix, ih hl]
      rfl

/-- The marks of a clause are those of its relation. -/
theorem infix_of_markless {t' : List Char} (hl : ∀ c ∈ l, c ∉ marks) (hr : ∀ c ∈ r, c ∉ marks)
    (ht : ∀ c ∈ t, c ∈ marks) (ht' : ∀ c ∈ t', c ∈ marks) (h : t' <:+: l ++ t ++ r) :
    t' <:+: t := by
  have hfilter := h.filter (decide <| · ∈ marks)
  have hwords (w : List Char) (hw : ∀ c ∈ w, c ∉ marks) : w.filter (decide <| · ∈ marks) = [] :=
    List.filter_eq_nil_iff.mpr fun c hc => by simpa using hw c hc
  have hall (w : List Char) (hw : ∀ c ∈ w, c ∈ marks) : w.filter (decide <| · ∈ marks) = w :=
    List.filter_eq_self.mpr fun c hc => by simpa using hw c hc
  rwa [List.filter_append, List.filter_append, hwords l hl, hwords r hr, hall t ht, hall t' ht',
    List.nil_append, List.append_nil] at hfilter

variable {ν : Type} [Number ν] {relation : Relation}

/-- A clause with one relation is split there. -/
theorem readClause_append (ht : (t, relation) ∈ relationTokens) (hl : ∀ c ∈ l, c ∉ marks)
    (hr : ∀ c ∈ r, c ∉ marks) {f : Fact ν}
    (hf : readSides (Text.trim l) (Text.trim r) relation = some f) :
    readClause (l ++ t ++ r) = .ok f := by
  have marked {p : List Char × Relation} (hp : p ∈ relationTokens) :
      p.1 ≠ [] ∧ ∀ c ∈ p.1, c ∈ marks :=
    marks_of_mem (by rw [tokens_eq]; exact List.mem_map_of_mem hp)
  obtain ⟨front, back, htable⟩ := List.append_of_mem ht
  have hpairwise := pairwise_relationTokens
  rw [htable] at hpairwise
  have hfirst : relationTokens.findSome? (fun p => (splitAt? p.1 (l ++ t ++ r)).map fun sides =>
      (p, sides)) = some ((t, relation), (l, r)) := by
    rw [List.findSome?_eq_some_iff]
    refine ⟨front, (t, relation), back, htable, ?_, fun p hp => ?_⟩
    · obtain ⟨hne, hmarks⟩ := marked ht
      obtain ⟨m, ms, rfl⟩ := List.exists_cons_of_ne_nil hne
      rw [splitAt?_append fun hm => hl m hm (hmarks m List.mem_cons_self)]
      rfl
    · have hnot := (List.pairwise_append.mp hpairwise).2.2 p hp (t, relation) List.mem_cons_self
      have hp' : p ∈ relationTokens := by
        rw [htable]
        exact List.mem_append_left _ hp
      rw [Option.map_eq_none_iff, Option.eq_none_iff_forall_ne_some]
      rintro ⟨l', r'⟩ hsplit
      exact hnot (infix_of_markless hl hr (marked ht).2 (marked hp').2 ⟨l', r',
        (append_of_splitAt? hsplit).symm⟩)
  rw [readClause, hfirst]
  simp only [hf]

theorem readSides_eq_some {f : Fact ν} (h : readSides l r relation = some f) :
    (∃ x, number? r = some x ∧ isName l = true ∧ f = ⟨.symbol (String.ofList l), relation, x⟩) ∨
      ∃ x, number? l = some x ∧ isName r = true ∧
      f = ⟨.symbol (String.ofList r), relation.flip, x⟩ := by
  unfold readSides at h
  split at h
  · next x hnumber hname =>
    exact .inl ⟨x, hnumber, hname, (Option.some.inj h).symm⟩
  · next x hnumber hname _ =>
    exact .inr ⟨x, hnumber, hname, (Option.some.inj h).symm⟩
  · cases h

end Splitting

section Reading

variable {ν : Type} [Number ν] {c : Clause} {cs : List Char} {r : Relation} {f : Fact ν}

namespace Clause.WellFormed

theorem left_solid (hc : c.WellFormed) : ∀ d ∈ c.left, IsSolid d := by
  rw [left]
  split
  · exact hc.numeral.solid
  · exact hc.name.solid

theorem right_solid (hc : c.WellFormed) : ∀ d ∈ c.right, IsSolid d := by
  rw [right]
  split
  · exact hc.name.solid
  · exact hc.numeral.solid

theorem readSides_eq (hc : c.WellFormed) (r : Relation) :
    readSides c.left c.right r = some (c.fact r : Fact ν) := by
  have hname := isName_iff.mpr hc.name
  have hnumeral : number? c.numeral.chars = some (c.numeral.bound : ν) :=
    SignedNumeral.number?_eq_some_iff.mpr ⟨c.numeral, hc.numeral, rfl, rfl⟩
  have hnone : (number? c.name : Option ν) = none := hc.name.number?_eq_none
  rw [readSides, left, right, fact]
  cases c.numberFirst with
  | true =>
      simp only [if_true]
      rw [hnone, hnumeral, hname]
  | false =>
      simp only [Bool.false_eq_true, if_false]
      rw [hnumeral, hname]

theorem readClause_eq (hc : c.WellFormed) (hr : (c.token, r) ∈ relationTokens) :
    readClause c.chars = .ok (c.fact r : Fact ν) := by
  have hnone : Text.IsBlank [] := nofun
  have hleft : Text.trim (c.left ++ c.before) = c.left :=
    Text.trim_append hnone hc.before (Text.trimmed_of_forall fun d hd => (hc.left_solid d hd).1)
  have hright : Text.trim (c.after ++ c.right) = c.right := by
    have h := Text.trim_append hc.after hnone (Text.trimmed_of_forall fun d hd =>
      (hc.right_solid d hd).1)
    rwa [List.append_nil] at h
  refine readClause_append hr ?_ ?_ ?_
  · exact List.forall_mem_append.mpr ⟨fun d hd => (hc.left_solid d hd).2,
      fun d hd => not_mem_marks_of_isBlank (hc.before d hd)⟩
  · exact List.forall_mem_append.mpr ⟨fun d hd => not_mem_marks_of_isBlank (hc.after d hd),
      fun d hd => (hc.right_solid d hd).2⟩
  · rw [hleft, hright, hc.readSides_eq]

end Clause.WellFormed

theorem exists_of_readClause (hcs : Text.Trimmed cs) (h : readClause cs = .ok f) :
    ∃ (c : Clause) (r : Relation), c.WellFormed ∧ c.chars = cs ∧ (c.token, r) ∈ relationTokens ∧
    c.fact r = f := by
  unfold readClause at h
  split at h
  · cases h
  · next t r left right hfirst =>
    obtain ⟨p, hp, hsplit⟩ := List.exists_of_findSome?_eq_some hfirst
    obtain ⟨sides, hsplit, heq⟩ := Option.map_eq_some_iff.mp hsplit
    cases heq
    have happend := append_of_splitAt? hsplit
    have htoken : t ∈ tokens := by
      rw [tokens_eq]
      exact List.mem_map_of_mem hp
    -- The clause has no white space at its ends, so what the sides have stands around the relation.
    obtain ⟨front, before, hleft, hfront, hbefore, -⟩ := Text.exists_trim left
    obtain ⟨after, back, hright, hafter, hback, -⟩ := Text.exists_trim right
    rw [hleft, hright] at happend
    obtain rfl : front = [] := by
      have hfirst : Text.Trimmed (front ++
          (Text.trim left ++ before ++ t ++ (after ++ Text.trim right ++ back))) := by
        rwa [happend, List.append_assoc front, List.append_assoc front, List.append_assoc front]
          at hcs
      exact hfirst.front_eq_nil hfront
    obtain rfl : back = [] := by
      have hlast : Text.Trimmed (Text.trim left ++ before ++ t ++
          (after ++ Text.trim right) ++ back) := by
        rwa [happend, ← List.append_assoc _ _ back] at hcs
      exact hlast.back_eq_nil hback
    rw [List.append_nil, List.nil_append] at happend
    split at h
    · next f' hsides =>
      obtain rfl := Except.ok.inj h
      rcases readSides_eq_some hsides with ⟨x, hnumber, hname, rfl⟩ | ⟨x, hnumber, hname, rfl⟩
      · obtain ⟨n, hn, hchars, rfl⟩ := SignedNumeral.number?_eq_some_iff.mp hnumber
        refine ⟨⟨Text.trim left, n, false, before, t, after⟩, r,
          ⟨isName_iff.mp hname, hn, hbefore, htoken, hafter⟩, ?_, hp, rfl⟩
        rw [happend, ← hchars]
        rfl
      · obtain ⟨n, hn, hchars, rfl⟩ := SignedNumeral.number?_eq_some_iff.mp hnumber
        refine ⟨⟨Text.trim right, n, true, before, t, after⟩, r,
          ⟨isName_iff.mp hname, hn, hbefore, htoken, hafter⟩, ?_, hp, rfl⟩
        rw [happend, ← hchars]
        rfl
    · cases h

/-- A trimmed text is read as a clause exactly if it is one. -/
theorem readClause_eq_ok_iff (hcs : Text.Trimmed cs) : readClause cs = .ok f ↔
    ∃ (c : Clause) (r : Relation), c.WellFormed ∧ c.chars = cs ∧ (c.token, r) ∈ relationTokens ∧
    c.fact r = f := by
  constructor
  · exact exists_of_readClause hcs
  · rintro ⟨c, r, hc, rfl, hr, rfl⟩
    exact hc.readClause_eq hr

theorem clause_of_error {e : ClauseError}
    (h : (readClause cs : Except ClauseError (Fact ν)) = .error e) :
    e.clause = String.ofList cs := by
  unfold readClause at h
  split at h
  · cases h
    rfl
  · split at h
    · cases h
    · cases h
      rfl

theorem Clause.holdsOf_iff (hr : (c.token, r) ∈ relationTokens) {x : ℝ} {y : EReal} {bound : Exact}
    (hy : bound.toEReal? = some y) : (c.fact r : Fact ν).relation.HoldsOf x bound ↔ c.Holds x y := by
  rw [fact, Holds]
  cases c.numberFirst with
  | true => exact (says_iff hr hy).2
  | false => exact (says_iff hr hy).1

end Reading

end Formulary.Assumptions
