import Formulary.Number.Double
import Formulary.Proofs.Expr.Equality
import Formulary.Proofs.Number.Addition
import Formulary.Proofs.Number.Written
import Formulary.Radical.Combine
import Mathlib

namespace Formulary

open Number

variable {ν : Type} [Number ν]

namespace Radical

def turnsOver (rs : List (Radical ν)) (b : Expr ν) : List ν :=
  (rs.filter fun r => b == r.base).map turns

structure FirstAt (rs : List (Radical ν)) (b : Expr ν) (i : ℕ) : Prop where
  here : ∃ r, rs[i]? = some r ∧ r.base = b
  before : ∀ r ∈ rs.take i, (b == r.base) = false

/-- The classes of equal bases: each is there once, in the place and by the base of its first
member. -/
structure Classes (rs : List (Radical ν)) (bs : List (Expr ν)) : Prop where
  each : ∀ r ∈ rs, ∃ b ∈ bs, (b == r.base) = true
  once : bs.Pairwise fun b c => (b == c) = false
  first : ∀ b ∈ bs, ∃ i, FirstAt rs b i
  order : bs.Pairwise fun b c => ∀ i j, FirstAt rs b i → FirstAt rs c j → i < j

/-- One radical for each class of equal bases, with the turns of all its members. -/
structure Merged (rs ms : List (Radical ν)) : Prop where
  classes : Classes rs (ms.map base)
  turns : ∀ m ∈ ms, m.turns = total (turnsOver rs m.base)

variable {rs ms : List (Radical ν)} {r : Radical ν} {b : Expr ν} {bs : List (Expr ν)} {i : ℕ}

theorem FirstAt.lt_length (h : FirstAt rs b i) : i < rs.length := by
  obtain ⟨r, hr, -⟩ := h.here
  exact (List.getElem?_eq_some_iff.mp hr).1

theorem FirstAt.exists_mem (h : FirstAt rs b i) : ∃ r ∈ rs, r.base = b := by
  obtain ⟨r, hr, hb⟩ := h.here
  exact ⟨r, List.mem_of_getElem? hr, hb⟩

theorem FirstAt.concat (h : FirstAt rs b i) (r : Radical ν) : FirstAt (rs ++ [r]) b i where
  here := by
    rw [List.getElem?_append_left h.lt_length]
    exact h.here
  before := by
    rw [List.take_append_of_le_length h.lt_length.le]
    exact h.before

theorem firstAt_length (h : ∀ x ∈ rs, (r.base == x.base) = false) :
    FirstAt (rs ++ [r]) r.base rs.length where
  here := ⟨r, List.getElem?_concat_length, rfl⟩
  before := by
    rw [List.take_left']
    · exact h
    · rfl

theorem FirstAt.of_concat (h : FirstAt (rs ++ [r]) b i) :
    FirstAt rs b i ∨ i = rs.length ∧ ∀ x ∈ rs, (b == x.base) = false := by
  have hlt := h.lt_length
  rw [List.length_append, List.length_singleton] at hlt
  by_cases hi : i < rs.length
  · refine .inl ⟨?_, ?_⟩
    · have hhere := h.here
      rwa [List.getElem?_append_left hi] at hhere
    · have hbefore := h.before
      rwa [List.take_append_of_le_length hi.le] at hbefore
  · obtain rfl : i = rs.length := by omega
    have hbefore := h.before
    rw [List.take_left' rfl] at hbefore
    exact .inr ⟨rfl, hbefore⟩

theorem merge_cases (ms : List (Radical ν)) (r : Radical ν) :
    (∃ pre m post, ms = pre ++ m :: post ∧ (m.base == r.base) = true ∧
      merge ms r = pre ++ ⟨m.base, m.turns + r.turns⟩ :: post) ∨
    (∀ m ∈ ms, (m.base == r.base) = false) ∧ merge ms r = ms ++ [r] := by
  induction ms with
  | nil => exact .inr ⟨nofun, rfl⟩
  | cons m ms ih =>
      rw [merge]
      split
      · next hm => exact .inl ⟨[], m, ms, rfl, hm, rfl⟩
      · next hm =>
        obtain ⟨pre, m', post, rfl, hm', hmerge⟩ | ⟨hnone, hmerge⟩ := ih
        · exact .inl ⟨m :: pre, m', post, rfl, hm', by rw [hmerge]; rfl⟩
        · refine .inr ⟨List.forall_mem_cons.mpr ⟨Bool.eq_false_of_not_eq_true hm, hnone⟩, ?_⟩
          rw [hmerge]
          rfl

theorem turnsOver_concat (rs : List (Radical ν)) (r : Radical ν) (b : Expr ν) :
    turnsOver (rs ++ [r]) b = turnsOver rs b ++ if b == r.base then [r.turns] else [] := by
  rw [turnsOver, List.filter_append, List.map_append, turnsOver, List.filter_singleton]
  split <;> simp_all

section Steps

variable (hdefinite : ∀ x ∈ rs, x.base.Definite)

include hdefinite in
theorem FirstAt.of_concat_old (hb : ∃ k, FirstAt rs b k) (h : FirstAt (rs ++ [r]) b i) :
    FirstAt rs b i := by
  obtain hi | ⟨-, hnone⟩ := h.of_concat
  · exact hi
  · obtain ⟨k, hk⟩ := hb
    obtain ⟨x, hx, rfl⟩ := hk.exists_mem
    exact absurd (Expr.beq_refl (hdefinite x hx)) (Bool.eq_false_iff.mp (hnone x hx))

include hdefinite in
theorem turnsOver_ne_nil (h : FirstAt rs b i) : turnsOver rs b ≠ [] := by
  obtain ⟨x, hx, rfl⟩ := h.exists_mem
  have hself : x ∈ rs.filter fun y => x.base == y.base :=
    List.mem_filter.mpr ⟨hx, Expr.beq_refl (hdefinite x hx)⟩
  exact List.ne_nil_of_mem (List.mem_map_of_mem hself)

theorem Classes.first_concat (h : Classes rs bs) (r : Radical ν) :
    ∀ b ∈ bs, ∃ i, FirstAt (rs ++ [r]) b i := by
  intro b hb
  obtain ⟨i, hi⟩ := h.first b hb
  exact ⟨i, hi.concat r⟩

include hdefinite in
theorem Classes.order_concat (h : Classes rs bs) (r : Radical ν) :
    bs.Pairwise fun b c => ∀ i j, FirstAt (rs ++ [r]) b i → FirstAt (rs ++ [r]) c j → i < j := by
  refine h.order.imp_of_mem fun {b c} hb hc hlt i j hi hj => ?_
  exact hlt i j (hi.of_concat_old hdefinite (h.first b hb))
    (hj.of_concat_old hdefinite (h.first c hc))

include hdefinite in
theorem Classes.concat_old (h : Classes rs bs) (hb : ∃ b ∈ bs, (b == r.base) = true) :
    Classes (rs ++ [r]) bs where
  each := by
    intro x hx
    rcases List.mem_append.mp hx with hx | hx
    · exact h.each x hx
    · rwa [List.mem_singleton.mp hx]
  once := h.once
  first := h.first_concat r
  order := h.order_concat hdefinite r

variable [OrderedNumber ν]

/-- A base that differs from one member of every class differs from all of them. -/
theorem Classes.ne_of_ne (h : Classes rs bs) (hb : ∀ b ∈ bs, (b == r.base) = false) :
    ∀ x ∈ rs, (r.base == x.base) = false := by
  intro x hx
  obtain ⟨c, hc, hcx⟩ := h.each x hx
  rw [← Expr.beq_congr_right hcx, Expr.beq_comm, hb c hc]

include hdefinite in
theorem Classes.concat_new (h : Classes rs bs) (hb : ∀ b ∈ bs, (b == r.base) = false)
    (hr : r.base.Definite) : Classes (rs ++ [r]) (bs ++ [r.base]) := by
  have hnone := h.ne_of_ne hb
  constructor
  · intro x hx
    rcases List.mem_append.mp hx with hx | hx
    · obtain ⟨c, hc, hcx⟩ := h.each x hx
      exact ⟨c, List.mem_append_left _ hc, hcx⟩
    · rw [List.mem_singleton.mp hx]
      exact ⟨r.base, List.mem_append_right _ (List.mem_singleton_self _), Expr.beq_refl hr⟩
  · exact List.pairwise_append.mpr ⟨h.once, List.pairwise_singleton ..,
      fun c hc d hd => by rw [List.mem_singleton.mp hd, hb c hc]⟩
  · intro c hc
    rcases List.mem_append.mp hc with hc | hc
    · exact h.first_concat r c hc
    · rw [List.mem_singleton.mp hc]
      exact ⟨rs.length, firstAt_length hnone⟩
  · refine List.pairwise_append.mpr ⟨h.order_concat hdefinite r, List.pairwise_singleton ..,
      fun c hc d hd i j hi hj => ?_⟩
    rw [List.mem_singleton.mp hd] at hj
    obtain hj | ⟨rfl, -⟩ := hj.of_concat
    · obtain ⟨x, hx, hxr⟩ := hj.exists_mem
      rw [← hxr] at hnone
      exact absurd (Expr.beq_refl (hdefinite x hx)) (Bool.eq_false_iff.mp (hnone x hx))
    · exact (hi.of_concat_old hdefinite (h.first c hc)).lt_length

include hdefinite in
/-- The turns of a radical go to the entry that has its base. -/
theorem Merged.concat_old {pre post : List (Radical ν)} {m : Radical ν}
    (h : Merged rs (pre ++ m :: post)) (hm : (m.base == r.base) = true) :
    Merged (rs ++ [r]) (pre ++ ⟨m.base, m.turns + r.turns⟩ :: post) := by
  have hmem : m ∈ pre ++ m :: post := List.mem_append_right _ List.mem_cons_self
  have hother (x : Radical ν) (hx : x ∈ pre ++ m :: post) (hne : (x.base == m.base) = false) :
      x.turns = total (turnsOver (rs ++ [r]) x.base) := by
    rw [turnsOver_concat, ← Expr.beq_congr_right hm, if_neg (Bool.eq_false_iff.mp hne),
      List.append_nil]
    exact h.turns x hx
  have honce := h.classes.once
  rw [List.map_append, List.map_cons, List.pairwise_append, List.pairwise_cons] at honce
  obtain ⟨-, ⟨hpost, -⟩, hpre⟩ := honce
  constructor
  · simpa using h.classes.concat_old hdefinite ⟨m.base, List.mem_map_of_mem hmem, hm⟩
  · intro x hx
    rcases List.mem_append.mp hx with hx | hx
    · exact hother x (List.mem_append_left _ hx)
        (hpre _ (List.mem_map_of_mem hx) _ List.mem_cons_self)
    · rcases List.mem_cons.mp hx with rfl | hx
      · obtain ⟨i, hi⟩ := h.classes.first m.base (List.mem_map_of_mem hmem)
        rw [turnsOver_concat, if_pos hm, total_concat (turnsOver_ne_nil hdefinite hi), h.turns m hmem]
      · refine hother x (List.mem_append_right _ (List.mem_cons_of_mem _ hx)) ?_
        rw [Expr.beq_comm, hpost _ (List.mem_map_of_mem hx)]

include hdefinite in
theorem Merged.concat_new (h : Merged rs ms) (hne : ∀ m ∈ ms, (m.base == r.base) = false)
    (hr : r.base.Definite) : Merged (rs ++ [r]) (ms ++ [r]) := by
  have hbases : ∀ b ∈ ms.map base, (b == r.base) = false := List.forall_mem_map.mpr hne
  constructor
  · simpa using h.classes.concat_new hdefinite hbases hr
  · intro x hx
    rcases List.mem_append.mp hx with hx | hx
    · rw [turnsOver_concat, if_neg (Bool.eq_false_iff.mp (hne x hx)), List.append_nil]
      exact h.turns x hx
    · have hnew : turnsOver rs r.base = [] := by
        rw [turnsOver, List.map_eq_nil_iff, List.filter_eq_nil_iff]
        exact fun y hy => Bool.eq_false_iff.mp (h.classes.ne_of_ne hbases y hy)
      rw [List.mem_singleton.mp hx, turnsOver_concat, hnew, if_pos (Expr.beq_refl hr)]
      rfl

include hdefinite in
theorem Merged.concat (h : Merged rs ms) (hr : r.base.Definite) :
    Merged (rs ++ [r]) (merge ms r) := by
  obtain ⟨pre, m, post, rfl, hm, hmerge⟩ | ⟨hnone, hmerge⟩ := merge_cases ms r
  · rw [hmerge]
    exact h.concat_old hdefinite hm
  · rw [hmerge]
    exact h.concat_new hdefinite hnone hr

end Steps

theorem merged_mergeAll [OrderedNumber ν] (h : ∀ r ∈ rs, r.base.Definite) :
    Merged rs (mergeAll rs) := by
  induction rs using List.reverseRecOn with
  | nil => exact ⟨⟨nofun, .nil, nofun, .nil⟩, nofun⟩
  | append_singleton rs r ih =>
      have hrs (x : Radical ν) (hx : x ∈ rs) : x.base.Definite := h x (List.mem_append_left _ hx)
      rw [mergeAll, List.foldl_concat]
      exact (ih hrs).concat hrs (h r (List.mem_append_right _ (List.mem_singleton_self r)))

/-- The entries without turns left are dropped, and these only. -/
theorem radicand_eq_kept [OrderedNumber ν] (rs : List (Radical ν)) :
    ∃ kept : List (Radical ν), kept.Sublist (mergeAll rs) ∧ radicand rs = .mul (kept.map squared) ∧
      ∀ m ∈ mergeAll rs, m ∉ kept ↔ toRat? m.turns = some 0 := by
  refine ⟨(mergeAll rs).filter fun m => !isZero m.turns, List.filter_sublist, rfl, fun m hm => ?_⟩
  have hmem : m ∉ (mergeAll rs).filter (fun m => !isZero m.turns) ↔ isZero m.turns = true := by
    rw [List.mem_filter, Bool.not_eq_true', not_and, Bool.not_eq_false]
    exact ⟨fun h => h hm, fun h _ => h⟩
  rw [hmem]
  constructor
  · intro hzero
    rw [RationalNumber.toRat?_eq_of_beq hzero, RationalNumber.toRat?_zero]
  · intro hvalue
    rw [← isZero_toExact, toExact_of_toRat? hvalue]
    rfl

section Exactly

variable [RationalNumber ν] [SummingNumber ν] {qs : List ℚ} {n : ℤ}

theorem toInt?_turnsOf (h : SumsExactly (rs.map turns) qs) (hn : qs.sum = n) :
    toInt? (turnsOf rs) = some n := by
  apply toInt?_of_toRat?
  have hfold : turnsOf rs = (rs.map turns).foldl (· + ·) zero := List.foldl_map.symm
  rw [hfold, ← hn, ← zero_add qs.sum]
  refine toRat?_foldl RationalNumber.toRat?_zero h.values fun ps hps => ?_
  rw [zero_add]
  exact h.partialSums ps hps

/-- The half turns are counted from the exact sum of the quarter turns. -/
theorem halfTurnsOdd_turnsOf (h : SumsExactly (rs.map turns) qs) (hn : qs.sum = n) :
    halfTurnsOdd (turnsOf rs) = (n / 2 % 2 == 1) := by
  rw [halfTurnsOdd, toInt?_turnsOf h hn]

theorem isOdd_turnsOf (h : SumsExactly (rs.map turns) qs) (hn : qs.sum = n) :
    isOdd (turnsOf rs) = true ↔ Odd n := by
  rw [isOdd, toInt?_turnsOf h hn, Int.odd_iff]
  exact beq_iff_eq

end Exactly

end Radical

theorem Pass.combineFactors_of_changed {options : RadicalOptions ν} {facts : List (Fact ν)}
    {fs : List (Expr ν)} (h : (combineFactors options (.stated facts) fs).changed = true) :
    (combineFactors options (.stated facts) fs).result = (Lifted.ofExprs fs).combined.signed
    ((Lifted.ofExprs fs).negated ^^
      Radical.halfTurnsOdd
      (Radical.quarterTurns (fun x => options.signRule x (.stated facts))
      (Lifted.ofExprs fs).radicals)) := by
  simp only [combineFactors] at h ⊢
  split at h
  · cases h
  · next hmany =>
    rw [if_neg hmany]
    split at h
    · rfl
    · cases h

namespace Radical

/-- Merging conserves turns. Equality of bases is an equivalence; the merged list has each class of
equal bases once, with the turns of its members added up, which is their exact sum where the partial
sums are numbers; the classes that add up to zero are dropped from the radicand; and the sign of the
product still goes by the turns that the radicals had by themselves. -/
theorem mergeAll_conserves [OrderedNumber ν] [SummingNumber ν] :
    (Equivalence fun x y : {x : Expr ν // x.Definite} => (x.1 == y.1) = true) ∧
      ∀ rs : List (Radical ν), (∀ r ∈ rs, r.base.Definite) →
        Merged rs (mergeAll rs) ∧
          (∀ m ∈ mergeAll rs, ∀ qs, SumsExactly (turnsOver rs m.base) qs →
            toRat? m.turns = some qs.sum) ∧
          (∃ kept : List (Radical ν), kept.Sublist (mergeAll rs) ∧
            radicand rs = .mul (kept.map squared) ∧ ∀ m ∈ mergeAll rs, m ∉ kept ↔ toRat? m.turns = some 0) ∧
          ∀ (options : RadicalOptions ν) (facts : List (Fact ν)) (fs : List (Expr ν)),
            (Lifted.ofExprs fs).radicals = rs →
            (Pass.combineFactors options (.stated facts) fs).changed = true →
              let negatives := rs.filter fun r => options.signRule r.base (.stated facts) == .negative
              (Pass.combineFactors options (.stated facts) fs).result =
                  (Expr.mul ((Lifted.ofExprs fs).others ++ [root rs])).signed
                    ((Lifted.ofExprs fs).negated ^^ halfTurnsOdd (turnsOf negatives)) ∧
                ∀ (qs : List ℚ) (n : ℤ), SumsExactly (negatives.map turns) qs → qs.sum = n →
                  halfTurnsOdd (turnsOf negatives) = (n / 2 % 2 == 1) := by
  refine ⟨Expr.beq_equivalence, fun rs hrs => ?_⟩
  have hmerged := merged_mergeAll hrs
  refine ⟨hmerged, fun m hm qs hqs => ?_, radicand_eq_kept rs, ?_⟩
  · rw [hmerged.turns m hm]
    exact hqs.total
  · rintro options facts fs rfl hchanged
    exact ⟨Pass.combineFactors_of_changed hchanged, fun qs n hqs hn => halfTurnsOdd_turnsOf hqs hn⟩

def cancelling : List (Expr Float) :=
  [.power (.symbol "x") (.number ⟨3, 2⟩), .power (.symbol "y") (.number ⟨1, 2⟩),
    .power (.symbol "x") (.number ⟨-3, 2⟩), .power (.symbol "y") (.number ⟨1, 2⟩)]

def cancellingRadicals : List (Radical Float) :=
  [⟨.symbol "x", 3⟩, ⟨.symbol "y", 1⟩, ⟨.symbol "x", -3⟩, ⟨.symbol "y", 1⟩]

theorem mergeAll_conserves_cancelling :
    let options : RadicalOptions Float := ⟨Sign.fromFacts, .preserve⟩
    let facts : List (Fact Float) := [⟨.symbol "x", .gt, 0⟩, ⟨.symbol "y", .lt, 0⟩]
    (∀ r ∈ cancellingRadicals, r.base.Definite) ∧
      Merged cancellingRadicals (mergeAll cancellingRadicals) ∧
      (∀ m ∈ mergeAll cancellingRadicals, m.base = .symbol "x" → toRat? m.turns = some 0) ∧
      (Lifted.ofExprs cancelling).radicals = cancellingRadicals ∧
      (Pass.combineFactors options (.stated facts) cancelling).changed = true ∧
      halfTurnsOdd
        (quarterTurns (fun x => options.signRule x (.stated facts)) cancellingRadicals) = true := by
  intro options facts
  have hdefinite : ∀ r ∈ cancellingRadicals, r.base.Definite := by
    intro r hr
    have hleaf : r.base = .symbol "x" ∨ r.base = .symbol "y" := by
      simp only [cancellingRadicals, List.mem_cons, List.not_mem_nil, or_false] at hr
      rcases hr with rfl | rfl | rfl | rfl <;> simp
    rcases hleaf with h | h <;> rw [h] <;> exact .leaf trivial rfl
  obtain ⟨hmerged, hexact, -, hsign⟩ := mergeAll_conserves.2 cancellingRadicals hdefinite
  have hover : turnsOver cancellingRadicals (.symbol "x") = [3, -3] := by rfl
  have hthree : toRat? (3 : Float) = some 3 := Double.toRat?_ofNat (by norm_num)
  have hfewer : toRat? (-3 : Float) = some (-3) := Double.toRat?_neg_ofNat (by norm_num)
  have hone : toRat? (1 : Float) = some 1 := RationalNumber.toRat?_one
  have hcancel : SumsExactly ([3, -3] : List Float) [3, -3] :=
    sumsExactly_pair hthree hfewer (RationalNumber.toRat?_zero.trans (by norm_num))
  have hroots : SumsExactly ([1, 1] : List Float) [1, 1] :=
    sumsExactly_pair hone hone (RationalNumber.toRat?_two.trans (by norm_num))
  have hradicals : (Lifted.ofExprs cancelling).radicals = cancellingRadicals := by rfl
  have hchanged : (Pass.combineFactors options (.stated facts) cancelling).changed = true := by
    decide +kernel
  refine ⟨hdefinite, hmerged, fun m hm hx => ?_, hradicals, hchanged, ?_⟩
  · have hturns := hexact m hm [3, -3] (by rw [hx, hover]; exact hcancel)
    rwa [show ([3, -3] : List ℚ).sum = 0 by norm_num] at hturns
  · have hx : options.signRule (.symbol "x") (.stated facts) = .positive := by decide +kernel
    have hy : options.signRule (.symbol "y") (.stated facts) = .negative := by decide +kernel
    have hnegatives : (cancellingRadicals.filter fun r => options.signRule r.base (.stated facts)
        == .negative).map turns = [1, 1] := by
      simp [cancellingRadicals, hx, hy]
    exact (hsign options facts cancelling hradicals hchanged).2 [1,
      1] 2 (by rw [hnegatives]; exact hroots) (by norm_num)

def absorbing : List (Radical Float) :=
  [⟨.symbol "x", 9007199254740991⟩, ⟨.symbol "x", 1⟩, ⟨.symbol "x", 1⟩,
    ⟨.symbol "x", -9007199254740991⟩, ⟨.symbol "x", -1⟩]

/-- The second one is lost beside `2 ^ 53`, and the base is dropped as if its turns added up to
zero. -/
theorem mergeAll_absorbing :
    (∀ r ∈ absorbing, r.base.Definite) ∧
      ∃ m ∈ mergeAll absorbing, ∃ qs : List ℚ, List.Forall₂ (fun t q => toRat? t = some q)
        (turnsOver absorbing m.base) qs ∧
          qs.sum = 1 ∧ toRat? m.turns = some 0 ∧ (radicand absorbing).isOne = true := by
  have hdefinite : ∀ r ∈ absorbing, r.base.Definite := by
    intro r hr
    have hbase : r.base = .symbol "x" :=
      (by simp [absorbing] : ∀ r ∈ absorbing, r.base = .symbol "x") r hr
    rw [hbase]
    exact .leaf trivial rfl
  obtain ⟨t, ht⟩ : ∃ t, mergeAll absorbing = [⟨.symbol "x", t⟩] := ⟨_, rfl⟩
  have htotal : (mergeAll absorbing).map (fun m => toRat? m.turns) = [some 0] := by decide +kernel
  have hmany : toRat? (9007199254740991 : Float) = some 9007199254740991 :=
    Double.toRat?_ofNat (by norm_num)
  have hfewer : toRat? (-9007199254740991 : Float) = some (-9007199254740991) :=
    Double.toRat?_neg_ofNat (by norm_num)
  have hone : toRat? (1 : Float) = some 1 := RationalNumber.toRat?_one
  have hless : toRat? (-1 : Float) = some (-1) := RationalNumber.toRat?_minusOne
  rw [ht] at htotal ⊢
  refine ⟨hdefinite, _, List.mem_singleton_self _, [9007199254740991, 1, 1, -9007199254740991, -1],
    ?_, by norm_num, (List.cons.inj htotal).1, by decide +kernel⟩
  exact .cons hmany (.cons hone (.cons hone (.cons hfewer (.cons hless .nil))))

end Radical

end Formulary
