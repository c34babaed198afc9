import Formulary.Text.Blank
import Mathlib

namespace Formulary.Text

def IsGraphic (c : Char) : Prop := 0x21 ≤ c.toNat ∧ c.toNat ≤ 0x7E

instance : DecidablePred IsGraphic :=
  fun c => inferInstanceAs (Decidable (0x21 ≤ c.toNat ∧ c.toNat ≤ 0x7E))

theorem isGraphic_of_isAlphanum {c : Char} (h : c.isAlphanum = true) : IsGraphic c := by
  simp only [Char.isAlphanum, Char.isAlpha, Char.isUpper, Char.isLower, Char.isDigit,
    Bool.or_eq_true, Bool.and_eq_true, decide_eq_true_eq, UInt32.le_iff_toNat_le, ge_iff_le] at h
  change ((65 ≤ c.toNat ∧ c.toNat ≤ 90) ∨ (97 ≤ c.toNat ∧ c.toNat ≤ 122)) ∨
    (48 ≤ c.toNat ∧ c.toNat ≤ 57) at h
  exact ⟨by omega, by omega⟩

theorem isDigit_of_isAlpha {c : Char} (h : c.isAlpha = true) : c.isDigit = false := by
  simp only [Char.isAlpha, Char.isUpper, Char.isLower, Bool.or_eq_true, Bool.and_eq_true,
    decide_eq_true_eq, UInt32.le_iff_toNat_le, ge_iff_le] at h
  change (65 ≤ c.toNat ∧ c.toNat ≤ 90) ∨ (97 ≤ c.toNat ∧ c.toNat ≤ 122) at h
  rw [Char.isDigit, Bool.and_eq_false_iff, decide_eq_false_iff_not, decide_eq_false_iff_not,
    UInt32.le_iff_toNat_le]
  right
  change ¬ c.toNat ≤ 57
  omega

theorem isBlank_of_isGraphic {c : Char} (h : IsGraphic c) : isBlank c = false := by
  obtain ⟨hlow, hhigh⟩ := h
  simp only [isBlank]
  generalize c.toNat = n at hlow hhigh
  simp
  omega

def IsBlank (cs : List Char) : Prop := ∀ c ∈ cs, isBlank c = true

structure Trimmed (cs : List Char) : Prop where
  head : ∀ c ∈ cs.head?, isBlank c = false
  last : ∀ c ∈ cs.getLast?, isBlank c = false

variable {cs front mid back : List Char}

theorem dropWhile_of_head (h : ∀ c ∈ cs.head?, isBlank c = false) : cs.dropWhile isBlank = cs := by
  cases cs with
  | nil => rfl
  | cons c cs => exact List.dropWhile_cons_of_neg (by rw [h c rfl]; decide)

theorem head_dropWhile (cs : List Char) : ∀ c ∈ (cs.dropWhile isBlank).head?, isBlank c = false := by
  intro c hc
  have hnot := List.head?_dropWhile_not isBlank cs
  rw [Option.mem_def.mp hc] at hnot
  exact Bool.eq_false_of_not_eq_true (by simpa using hnot)

theorem trim_append (hfront : IsBlank front) (hback : IsBlank back) (hmid : Trimmed mid) :
    trim (front ++ mid ++ back) = mid := by
  have hlast : ∀ c ∈ mid.reverse.head?, isBlank c = false := by
    rw [List.head?_reverse]
    exact hmid.last
  have hdrop : (front ++ mid ++ back).dropWhile isBlank = (mid ++ back).dropWhile isBlank := by
    rw [List.append_assoc, List.dropWhile_append_of_pos hfront]
  rw [trim, hdrop]
  cases mid with
  | nil => rw [List.nil_append, ← List.append_nil back, List.dropWhile_append_of_pos hback]; rfl
  | cons c mid =>
      have hhead : (c :: mid ++ back).dropWhile isBlank = c :: mid ++ back :=
        dropWhile_of_head hmid.head
      rw [hhead, List.reverse_append,
        List.dropWhile_append_of_pos fun d hd =>
          hback d (List.mem_reverse.mp hd), dropWhile_of_head hlast, List.reverse_reverse]

theorem Trimmed.trim_append (h : Trimmed cs) (hback : IsBlank back) : trim (cs ++ back) = cs := by
  have hfront : IsBlank [] := nofun
  exact Text.trim_append hfront hback h

theorem Trimmed.trim_eq (h : Trimmed cs) : trim cs = cs := by
  have hback : IsBlank [] := nofun
  have htrim := h.trim_append hback
  rwa [List.append_nil] at htrim

theorem exists_trim (cs : List Char) :
    ∃ front back, cs = front ++ trim cs ++ back ∧ IsBlank front ∧ IsBlank back ∧
    Trimmed (trim cs) := by
  have hfront := List.takeWhile_append_dropWhile (p := isBlank) (l := cs)
  have hback := List.takeWhile_append_dropWhile (p := isBlank) (l := (cs.dropWhile isBlank).reverse)
  have hsplit : cs.dropWhile isBlank = trim cs ++
      ((cs.dropWhile isBlank).reverse.takeWhile isBlank).reverse := by
    rw [trim, ← List.reverse_append, hback, List.reverse_reverse]
  refine ⟨cs.takeWhile isBlank, ((cs.dropWhile isBlank).reverse.takeWhile isBlank).reverse, ?_,
    ?_, ?_, ?_, ?_⟩
  · rw [List.append_assoc, ← hsplit, hfront]
  · exact fun c hc => List.mem_takeWhile_imp hc
  · exact fun c hc => List.mem_takeWhile_imp (List.mem_reverse.mp hc)
  · intro c hc
    refine head_dropWhile cs c ?_
    rw [hsplit, List.head?_append, Option.mem_def.mp hc]
    rfl
  · intro c hc
    rw [trim, List.getLast?_reverse] at hc
    exact head_dropWhile _ c hc

theorem trimmed_trim (cs : List Char) : Trimmed (trim cs) := by
  obtain ⟨-, -, -, -, -, h⟩ := exists_trim cs
  exact h

theorem Trimmed.front_eq_nil (h : Trimmed (front ++ cs)) (hfront : IsBlank front) : front = [] := by
  cases front with
  | nil => rfl
  | cons c front =>
      have hc := hfront c List.mem_cons_self
      rw [h.head c rfl] at hc
      cases hc

theorem Trimmed.back_eq_nil (h : Trimmed (cs ++ back)) (hback : IsBlank back) : back = [] := by
  rcases List.eq_nil_or_concat back with rfl | ⟨init, c, rfl⟩
  · rfl
  · have hc := hback c (by simp)
    rw [h.last c (by simp)] at hc
    cases hc

theorem trimmed_of_forall (h : ∀ c ∈ cs, isBlank c = false) : Trimmed cs where
  head c hc := h c (List.mem_of_mem_head? hc)
  last c hc := h c (List.mem_of_getLast? hc)

theorem Trimmed.append (hfront : Trimmed front) (hne : front ≠ []) (hback : Trimmed back)
    (hne' : back ≠ []) : Trimmed (front ++ mid ++ back) where
  head c hc := by
    rw [List.append_assoc, List.head?_append_of_ne_nil _ hne] at hc
    exact hfront.head c hc
  last c hc := by
    rw [List.getLast?_append_of_ne_nil _ hne'] at hc
    exact hback.last c hc

end Formulary.Text
