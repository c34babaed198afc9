import Formulary.Proofs.Code.Value

namespace Formulary

open Number Interpretation

namespace Table

variable {t : Table} {key value : String}

theorem mem_of_own? (h : t.own? key = some value) : (key, value) ∈ t := by
  rw [own?, Option.map_eq_some_iff] at h
  obtain ⟨p, hp, rfl⟩ := h
  have hkey := List.find?_some hp
  rw [← eq_of_beq hkey]
  exact List.mem_of_find?_eq_some hp

theorem contains_eq : t.contains key = (t.get? key).isSome := by rw [contains]

theorem get?_eq_own? (hkey : isInherited key = false) : t.get? key = t.own? key := by
  rw [isInherited, Option.isSome_eq_false_iff, Option.isNone_iff_eq_none] at hkey
  rw [get?, hkey, Option.or_none]

theorem mem_of_get? (hkey : isInherited key = false) (h : t.get? key = some value) :
    (key, value) ∈ t :=
  mem_of_own? ((get?_eq_own? hkey).symm.trans h)

/-- What is inherited is written as no name can be. -/
theorem isName_inherited (h : inherited? key = some value) : Lexeme.isName value = false := by
  have hmethods : ∀ m ∈ inheritedMethods, Lexeme.isName (native m) = false := by decide
  unfold inherited? at h
  split at h
  · next hmethod =>
    obtain rfl := Option.some.inj h
    exact hmethods key (by simpa using hmethod)
  · split at h
    · obtain rfl := Option.some.inj h
      decide
    · split at h
      · obtain rfl := Option.some.inj h
        decide
      · cases h

/-- A name that is found is found among a table's own entries. -/
theorem mem_of_get?_of_isName (hvalue : Lexeme.isName value = true) (h : t.get? key = some value) :
    (key, value) ∈ t := by
  rcases Option.or_eq_some_iff.mp h with hown | ⟨-, hinherited⟩
  · exact mem_of_own? hown
  · rw [isName_inherited hinherited] at hvalue
    cases hvalue

theorem keyOf?_eq_none (h : value ∉ t.values) : t.keyOf? value = none := by
  rw [keyOf?, Option.map_eq_none_iff, List.find?_eq_none]
  intro p hp hvalue
  rw [List.mem_reverse] at hp
  rw [beq_iff_eq] at hvalue
  exact h (hvalue ▸ List.mem_map_of_mem hp)

end Table

theorem Code.ofText_of_isName {s : String} (hs : Lexeme.isName s = true) :
    Code.ofText s = .name s := by
  obtain ⟨d, ds, hchars, hstart, -⟩ := Lexeme.exists_cons_of_isName hs
  obtain ⟨hdigit, hpoint, -⟩ := Tokens.isDigit_of_isNameStart hstart
  rw [Code.ofText, hchars, Lexeme.literal_scan_eq_none ds hdigit hpoint]

namespace Identifier

theorem isNameStart_of_isNameChar {c : Char} (h : Lexeme.isNameChar c = true)
    (hdigit : ¬ c.isDigit = true) : Lexeme.isNameStart c = true := by
  rw [Bool.not_eq_true] at hdigit
  rw [Lexeme.isNameChar, Char.isAlphanum, hdigit, Bool.or_false] at h
  exact h

theorem exists_cons_mended {cs : List Char} (h : ∀ c ∈ cs, Lexeme.isNameChar c = true) :
    ∃ d ds, mended cs = d :: ds ∧ Lexeme.isNameStart d = true ∧
    ∀ e ∈ d :: ds, Lexeme.isNameChar e = true := by
  cases cs with
  | nil => exact ⟨'_', [], rfl, by decide, List.forall_mem_singleton.mpr (by decide)⟩
  | cons c cs =>
      rw [mended]
      split
      · refine ⟨'_', c :: cs, rfl, by decide, ?_⟩
        rintro e (_ | ⟨_, he⟩)
        · decide
        · exact h e he
      · next hdigit =>
          exact ⟨c, cs, rfl, isNameStart_of_isNameChar (h c List.mem_cons_self) hdigit, h⟩

theorem isIdentifier_ofName (t : Target) (name : String) :
    Lexeme.isIdentifier (ofName t name) = true := by
  have hletters : ∀ c ∈ letters name, Lexeme.isNameChar c = true := fun c hc =>
    (List.mem_filter.mp hc).2
  obtain ⟨d, ds, hmended, hstart, hchars⟩ := exists_cons_mended hletters
  simp only [ofName]
  rw [hmended]
  split
  · have happend : String.ofList (d :: ds) ++ "_" = String.ofList (d :: (ds ++ ['_'])) :=
      String.ofList_append.symm
    rw [happend]
    refine Lexeme.isIdentifier_ofList hstart fun e he => ?_
    rw [← List.cons_append, List.mem_append] at he
    rcases he with he | he
    · exact hchars e he
    · rw [List.mem_singleton.mp he]
      decide
  · exact Lexeme.isIdentifier_ofList hstart hchars

theorem localPart_eq_self {cs : List Char} (h : ∀ c ∈ cs, c ≠ '\x60') : localPart cs = cs := by
  have hall : cs.reverse.takeWhile (· != '\x60') = cs.reverse := by
    rw [List.takeWhile_eq_self_iff]
    intro c hc
    exact bne_iff_ne.mpr (h c (List.mem_reverse.mp hc))
  rw [localPart, hall, List.reverse_reverse]

theorem spellGlyphs_eq_self {cs : List Char} (h : ∀ c ∈ cs, c ≠ '\\') : spellGlyphs cs = cs := by
  induction cs with
  | nil => rw [spellGlyphs]
  | cons c cs ih =>
      have hc : c ≠ '\\' := h c List.mem_cons_self
      rw [spellGlyphs, ih fun d hd => h d (List.mem_cons_of_mem _ hd)]
      rintro rest rfl
      exact absurd rfl hc

theorem letters_eq_toList {s : String} (h : ∀ c ∈ s.toList, Lexeme.isNameChar c = true) :
    letters s = s.toList := by
  have hne {d : Char} (hd : Lexeme.isNameChar d = false) : ∀ c ∈ s.toList, c ≠ d := by
    rintro c hc rfl
    rw [h c hc] at hd
    cases hd
  rw [letters, localPart_eq_self (hne (by decide)), spellGlyphs_eq_self (hne (by decide)),
    List.filter_eq_self]
  exact h

theorem ofName_eq_self {t : Target} {s : String} (h : Lexeme.isIdentifier s = true)
    (hfree : s ∉ t.takenNames) : ofName t s = s := by
  obtain ⟨d, ds, hchars, hstart, -⟩ := Lexeme.exists_cons_of_isName (Bool.and_eq_true_iff.mp h).1
  have hdigit : d.isDigit = false := (Tokens.isDigit_of_isNameStart hstart).1
  have hplain : String.ofList (mended (letters s)) = s := by
    rw [letters_eq_toList (Lexeme.isNameChar_of_isIdentifier h), hchars, mended, hdigit,
      if_neg Bool.false_ne_true, ← hchars, String.ofList_toList]
  simp only [ofName, hplain]
  rw [List.contains_eq_mem, decide_eq_false hfree, if_neg Bool.false_ne_true]

end Identifier

namespace Target

/-- Tables whose names are read as what they stand for, and host names that no identifier is. -/
structure Invertible (t : Target) : Prop where
  functions : ∀ p ∈ t.functions, t.functions.keyOf? p.2 = some p.1
  callables : ∀ c ∈ t.callables, Lexeme.isName c = true
  root : ∀ p ∈ t.functions, p.2 = t.rootCall → p.1 = "Sqrt"
  apart : ∀ p ∈ t.functions, p.2 ≠ t.arctangentCall ∧ some p.2 ≠ t.arrayCall
  array : t.arrayCall ≠ some t.rootCall
  constants : ∀ p ∈ t.constants, p = ("I", "1j") ∨ Lexeme.isName p.2 = true ∧ p.2 ≠ t.nan ∧
    t.constants.keyOf? p.2 = some p.1
  foreign : ∀ s ∈ t.nan :: t.infinity :: t.rootCall :: t.arctangentCall :: (t.arrayCall.toList ++
    t.constants.values), Lexeme.isIdentifier s = false

theorem Invertible.eq_sqrt {t : Target} (ht : t.Invertible) {head : String}
    (hget : t.functions.get? head = some t.rootCall) : head = "Sqrt" :=
  ht.root _ (Table.mem_of_get?_of_isName (ht.callables _ (by simp [Target.callables])) hget) rfl

theorem Invertible.ne_of_isIdentifier {t : Target} (ht : t.Invertible) {s host : String}
    (hs : Lexeme.isIdentifier s = true)
    (hhost : host ∈ t.nan :: t.infinity :: t.rootCall :: t.arctangentCall :: (t.arrayCall.toList ++
      t.constants.values)) :
    s ≠ host := by
  rintro rfl
  rw [ht.foreign s hhost] at hs
  cases hs

/-- Targets that are known by name, with either form of square roots. -/
def IsPreset (t : Target) : Prop := ∃ preset ∈ presets, t = { preset with radical := t.radical }

theorem IsPreset.invertible {t : Target} (ht : t.IsPreset) : t.Invertible := by
  have hall : ∀ preset ∈ presets, Invertible preset := by
    have hnumpy : Invertible numpy := by constructor <;> decide +kernel
    have hmath : Invertible math := by constructor <;> decide +kernel
    simp [presets, hnumpy, hmath]
  obtain ⟨preset, hmem, heq⟩ := ht
  have h := hall preset hmem
  rw [heq]
  exact ⟨h.functions, h.callables, h.root, h.apart, h.array, h.constants, h.foreign⟩

structure Conventional (t : Target) : Prop extends Invertible t where
  isName_nan : Lexeme.isName t.nan = true
  isName_infinity : Lexeme.isName t.infinity = true
  infinity_ne_nan : t.infinity ≠ t.nan
  keyOf?_infinity : t.constants.keyOf? t.infinity = some "Infinity"
  sqrt : t.functions.get? "Sqrt" = some t.rootCall
  log : t.functions.contains "Log" = true
  constantNames : t.constants.map Prod.fst = ["Pi", "E", "I", "Infinity"]

theorem IsPreset.conventional {t : Target} (ht : t.IsPreset) : t.Conventional := by
  have hall : ∀ preset ∈ presets, Conventional preset := by
    have hnumpy : Conventional numpy :=
      ⟨IsPreset.invertible ⟨numpy, by decide, rfl⟩,
        by decide, by decide, by decide, by decide, by decide, by decide, by decide⟩
    have hmath : Conventional math :=
      ⟨IsPreset.invertible ⟨math, by decide, rfl⟩,
        by decide, by decide, by decide, by decide, by decide, by decide, by decide⟩
    simp [presets, hnumpy, hmath]
  have hinvertible := ht.invertible
  obtain ⟨preset, hmem, heq⟩ := ht
  have h := hall preset hmem
  rw [heq] at hinvertible ⊢
  exact ⟨hinvertible, h.isName_nan, h.isName_infinity, h.infinity_ne_nan, h.keyOf?_infinity, h.sqrt,
    h.log, h.constantNames⟩

/-- Heads that calls may have: those with a callable, and identifiers that are no callable. -/
def IsHead (t : Target) (head : String) : Prop :=
  Table.isInherited head = false ∧
    (t.functions.contains head = true ∨ Lexeme.isIdentifier head = true ∧ head ∉ t.functions.values)

def readName (t : Target) (s : String) : String :=
  if t.constants.contains s then s else Identifier.ofName t s

def Nests (t : Target) (head : String) : Prop :=
  t.functions.contains head = true ∧ t.binaryHeads.contains head = true

instance (t : Target) (head : String) : Decidable (t.Nests head) :=
  inferInstanceAs (Decidable (_ ∧ _))

def callee (t : Target) (head : String) : String := (t.functions.get? head).getD head

section Shapes

variable (t : Target) (head : String)

theorem callCode_nil : t.callCode head [] = .call (t.callee head) [] := by
  rw [callCode.eq_def, callee]
  cases t.functions.get? head <;> rfl

theorem callCode_single (x : Code) : t.callCode head [x] = .call (t.callee head) [x] := by
  rw [callCode.eq_def, callee]
  cases t.functions.get? head <;> rfl

theorem callCode_pair (base x : Code) :
    t.callCode head [base, x] =
      if head = "Log" ∧ t.functions.contains head
        then .div (.call (t.callee head) [x]) (.call (t.callee head) [base])
      else if head = "ArcTan" then .call t.arctangentCall [x, base]
      else .call (t.callee head) [base, x] := by
  rw [callCode.eq_def, callee, Table.contains_eq]
  cases t.functions.get? head <;> simp

theorem callCode_more (first second third : Code) (rest : List Code) :
    t.callCode head (first :: second :: third :: rest) =
      if t.Nests head then .call (t.callee head) [first, t.callCode head (second :: third :: rest)]
      else .call (t.callee head) (first :: second :: third :: rest) := by
  rw [callCode.eq_def, callee]
  simp only [Nests, Table.contains_eq]
  cases t.functions.get? head <;> simp

end Shapes

variable {t : Target} {head : String}

section Callees

variable (ht : t.Invertible) (hhead : t.IsHead head)

include ht hhead

theorem isName_callee : Lexeme.isName (t.callee head) = true := by
  rw [callee]
  cases hget : t.functions.get? head with
  | some f =>
      apply ht.callables
      rw [callables, List.append_assoc, List.mem_append]
      exact .inl (List.mem_map_of_mem (Table.mem_of_get? hhead.1 hget))
  | none =>
      rcases hhead.2 with hcontains | ⟨hident, -⟩
      · rw [Table.contains_eq, hget] at hcontains
        cases hcontains
      · exact (Bool.and_eq_true_iff.mp hident).1

/-- The callee of a head is read as the head, and stands for nothing else; only the callee of square
roots is a root. -/
theorem callee_spec : (t.functions.keyOf? (t.callee head)).getD (t.callee head) = head ∧
    t.callee head ≠ t.arctangentCall ∧
    some (t.callee head) ≠ t.arrayCall ∧
    (t.callee head = t.rootCall ↔ t.functions.get? head = some t.rootCall) := by
  rw [callee]
  cases hget : t.functions.get? head with
  | some f =>
      have hmem := Table.mem_of_get? hhead.1 hget
      obtain ⟨harctangent, harray⟩ := ht.apart _ hmem
      refine ⟨?_, harctangent, harray, ?_⟩
      · rw [Option.getD_some, ht.functions _ hmem, Option.getD_some]
      · rw [Option.getD_some, Option.some.injEq]
  | none =>
      rcases hhead.2 with hcontains | ⟨hident, hvalues⟩
      · rw [Table.contains_eq, hget] at hcontains
        cases hcontains
      · rw [Option.getD_none, Table.keyOf?_eq_none hvalues, Option.getD_none]
        refine ⟨rfl, ht.ne_of_isIdentifier hident (by simp), ?_, ?_⟩
        · intro harray
          exact ht.ne_of_isIdentifier hident (by simp [← harray]) rfl
        · simp [ht.ne_of_isIdentifier hident]

/-- A call is read back where its arguments are. -/
theorem callCode_readable (args : List Code) (hargs : ∀ c ∈ args, Code.Readable .sum c) :
    Code.Readable (t.callCode head args).binding (t.callCode head args) := by
  have hname := isName_callee ht hhead
  match args with
  | [] =>
      rw [callCode_nil]
      exact Code.readable_call hname hargs
  | [x] =>
      rw [callCode_single]
      exact Code.readable_call hname hargs
  | [base, x] =>
      obtain ⟨hbase, hx⟩ := List.forall_mem_cons.mp hargs
      rw [callCode_pair]
      split
      · have hleft := Code.readable_call hname hx
        have hright := Code.readable_call hname (List.forall_mem_singleton.mpr hbase)
        exact (hleft.mono (by decide)).div (hright.mono (by decide))
      · split
        · refine Code.readable_call (ht.callables _ (by simp [callables]))
            (List.forall_mem_cons.mpr ⟨?_, ?_⟩)
          · exact hx _ List.mem_cons_self
          · exact List.forall_mem_singleton.mpr hbase
        · exact Code.readable_call hname hargs
  | first :: second :: third :: rest =>
      obtain ⟨hfirst, hrest⟩ := List.forall_mem_cons.mp hargs
      rw [callCode_more]
      split
      · have hinner : Code.Readable .sum (t.callCode head (second :: third :: rest)) :=
          (callCode_readable (second :: third :: rest) hrest).mono
            (by cases Code.binding _ <;> decide)
        exact Code.readable_call hname
          (List.forall_mem_cons.mpr ⟨hfirst, List.forall_mem_singleton.mpr hinner⟩)
      · exact Code.readable_call hname hargs

end Callees

variable {ν : Type} [Number ν]

def treeOfHead (t : Target) (head : String) : List (Expr ν) → Expr ν
  | [] => .call head []
  | [x] => if t.functions.get? head = some t.rootCall then .sqrt x else .call head [x]
  | [base, x] =>
    if head = "Log" ∧ t.functions.contains head
      then treeOfQuotient (.call head [x]) (.call head [base])
    else .call head [base, x]
  | first :: second :: third :: rest =>
    if t.Nests head then .call head [first, t.treeOfHead head (second :: third :: rest)]
    else .call head (first :: second :: third :: rest)

theorem treeOfCode_root (t : Target) (c : Code) :
    (t.treeOfCode (.call t.rootCall [c]) : Expr ν) = .sqrt (t.treeOfCode c) := by
  rw [treeOfCode_call, List.map_cons, List.map_nil, treeOfCall, if_pos rfl]

variable (ht : t.Invertible)

include ht

theorem treeOfName_of_isIdentifier {s : String} (hs : Lexeme.isIdentifier s = true) :
    (t.treeOfName s : Expr ν) = .symbol s := by
  have hconstant : t.constants.keyOf? s = none := by
    apply Table.keyOf?_eq_none
    intro hmem
    exact ht.ne_of_isIdentifier hs (by simp [hmem]) rfl
  rw [treeOfName, if_neg (ht.ne_of_isIdentifier hs (by simp)), hconstant]
  simp only
  rw [if_neg (ht.ne_of_isIdentifier hs (by simp))]

theorem treeOfCode_array {c : String} (hc : t.arrayCall = some c) (cs : List Code) :
    (t.treeOfCode (.call c [.list cs]) : Expr ν) = t.treeOfCode (.list cs) := by
  have hroot : c ≠ t.rootCall := by
    rintro rfl
    exact ht.array hc
  rw [treeOfCode_call, List.map_cons, List.map_nil, treeOfCall, if_neg hroot, treeOfCode_list,
    if_pos ⟨hc.symm, rfl⟩]

theorem treeOfCode_listPiece (cs : List Code) :
    (t.treeOfCode (t.listPiece cs).rendering.code : Expr ν) = t.treeOfCode (.list cs) := by
  simp only [listPiece, Rendering.atom]
  split
  · next c hc => exact treeOfCode_array ht hc cs
  · rfl

theorem symbolCode_spec (ν : Type) [Number ν] [WrittenNumber ν] {s : String}
    (hs : Table.isInherited s = false) (b : Binding) :
    Code.Readable b (t.symbolCode s) ∧ (t.treeOfCode (t.symbolCode s) : Expr ν) = .symbol
    (t.readName s) := by
  rw [symbolCode, readName, Table.contains_eq]
  cases hget : t.constants.get? s with
  | none =>
      have hidentifier := Identifier.isIdentifier_ofName t s
      exact ⟨Code.readable_name (Bool.and_eq_true_iff.mp hidentifier).1,
        treeOfName_of_isIdentifier ht hidentifier⟩
  | some c =>
      rcases ht.constants _ (Table.mem_of_get? hs hget) with hI | ⟨hname, hnan, hkey⟩
      · rw [Prod.mk.injEq] at hI
        obtain ⟨rfl, rfl⟩ := hI
        have hcode : Code.ofText "1j" = .imaginary (Decimal.Literal.text ⟨['1'], none, none⟩) := rfl
        have hone : (numberOf (Decimal.Literal.text ⟨['1'], none, none⟩) : ν) = ofDecimal ⟨1, 0⟩ :=
          rfl
        simp only
        rw [hcode]
        refine ⟨Code.readable_imaginary Decimal.Literal.plain_one, ?_⟩
        rw [treeOfCode_imaginary, treeOfImaginary, hone, WrittenNumber.ofDecimal_one, if_pos rfl]
        rfl
      · simp only
        rw [Code.ofText_of_isName hname]
        refine ⟨Code.readable_name hname, ?_⟩
        rw [treeOfCode_name, treeOfName, if_neg hnan, hkey]
        rfl

theorem treeOfCode_callee (hhead : t.IsHead head) (cs : List Code) :
    (t.treeOfCode (.call (t.callee head) cs) : Expr ν) =
      match (cs.map t.treeOfCode : List (Expr ν)) with
      | [x] => if t.functions.get? head = some t.rootCall then .sqrt x else .call head [x]
      | xs => .call head xs := by
  obtain ⟨hkey, harctangent, harray, hroot⟩ := callee_spec ht hhead
  rw [treeOfCode_call]
  match cs with
  | [] => simp only [List.map_nil, treeOfCall, hkey]
  | [c] =>
    simp only [List.map_cons, List.map_nil, treeOfCall, hkey, hroot, harray, false_and, if_false]
  | [c, d] => simp only [List.map_cons, List.map_nil, treeOfCall, hkey, harctangent, if_false]
  | c :: d :: e :: es => simp only [List.map_cons, treeOfCall, hkey]

theorem treeOfCode_callCode (hhead : t.IsHead head) (args : List Code) :
    (t.treeOfCode (t.callCode head args) : Expr ν) = t.treeOfHead head (args.map t.treeOfCode) := by
  match args with
  | [] =>
      rw [callCode_nil, treeOfCode_callee ht hhead]
      rfl
  | [x] =>
      rw [callCode_single, treeOfCode_callee ht hhead]
      rfl
  | [base, x] =>
      rw [callCode_pair, List.map_cons, List.map_cons, List.map_nil, treeOfHead]
      split
      · next hlog =>
        have hroot : ¬ t.functions.get? head = some t.rootCall := by
          intro hget
          exact absurd (hlog.1.symm.trans (ht.eq_sqrt hget)) (by decide)
        rw [treeOfCode_div, treeOfCode_callee ht hhead, treeOfCode_callee ht hhead]
        simp only [List.map_cons, List.map_nil, hroot, if_false]
      · split
        · next harctangent =>
          rw [treeOfCode_call, List.map_cons, List.map_cons, List.map_nil, treeOfCall, if_pos rfl,
            harctangent]
        · rw [treeOfCode_callee ht hhead]
          rfl
  | first :: second :: third :: rest =>
      rw [callCode_more, List.map_cons, List.map_cons, List.map_cons, treeOfHead]
      split
      · rw [treeOfCode_callee ht hhead, List.map_cons, List.map_cons, List.map_nil,
          treeOfCode_callCode hhead (second :: third :: rest)]
        rfl
      · rw [treeOfCode_callee ht hhead]
        rfl

end Target

namespace Interpretation

variable {ν K : Type} [Number ν] [WrittenNumber ν] [Field K] [CharZero K] {I : Interpretation K}
    {t : Target}

/-- A call that is read back has the value of its head at the values of the arguments. -/
theorem value_treeOfHead (ht : t.Invertible) (hI : I.Lawful ν t) (head : String)
    (xs : List (Expr ν)) : I.value (t.treeOfHead head xs) = (I.values xs).bind (I.call head) := by
  match xs with
  | [] => rfl
  | [x] =>
      rw [Target.treeOfHead]
      split
      · next hget =>
        rw [Reading.value_sqrt, ht.eq_sqrt hget, values_cons, values_nil]
        cases I.value x with
        | none => rfl
        | some v => exact (hI.sqrt v).symm
      · exact value_call ..
  | [base, x] =>
      rw [Target.treeOfHead]
      split
      · next hlog =>
        rw [Reading.value_treeOfQuotient hI.power_minusOne, value_call, value_call, hlog.1]
        simp only [values_cons, values_nil]
        cases hb : I.value base <;> cases hv : I.value x <;> simp [hI.log, divide]
      · exact value_call ..
  | first :: second :: third :: rest =>
      rw [Target.treeOfHead]
      split
      · next hnested =>
        rw [value_call, values_cons, values_cons, values_nil,
          value_treeOfHead ht hI head (second :: third :: rest), values_cons, values_cons,
          values_cons, values_cons, values_cons]
        exact hI.bind_nested (by simpa using hnested.2) _ _ _ _
      · exact value_call ..

end Interpretation

namespace Reading

variable {ν K : Type} [Number ν] [WrittenNumber ν] [Field K] [CharZero K] {R : Reading ν K}

theorem value_root (c : Code) : R.value (.call R.target.rootCall [c]) = (R.value c).bind fun v =>
    R.meaning.power v (1 / 2) := by
  rw [value, Target.treeOfCode_root, value_sqrt]
  rfl

variable (ht : R.target.Invertible)

include ht

omit [CharZero K] in
theorem symbolCode_readable {s : String} (hs : Table.isInherited s = false) (b : Binding) :
    Code.Readable b (R.target.symbolCode s) ∧
      R.value (R.target.symbolCode s) = R.meaning.symbol (R.target.readName s) := by
  obtain ⟨hreadable, htree⟩ := Target.symbolCode_spec ht ν hs b
  exact ⟨hreadable, by rw [value, htree, Interpretation.value_symbol]⟩

theorem value_callCode (hR : R.meaning.Lawful ν R.target) {head : String}
    (hhead : R.target.IsHead head) (args : List Code) :
    R.value (R.target.callCode head args) = (R.values args).bind (R.meaning.call head) := by
  rw [value, Target.treeOfCode_callCode ht hhead, value_treeOfHead ht hR, values]

end Reading

end Formulary
