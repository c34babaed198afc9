import Formulary.Proofs.Code.Lexeme

namespace Formulary

def Token.source (t : Token) : List Char := t.kind.source t.text

def Token.finish (t : Token) : Nat := t.position + t.source.length

/-- The token stands in the text where it says, and no text of a token that could stand there is
longer. -/
structure Token.LongestIn (t : Token) (cs : List Char) : Prop where
  written : Lexeme.Written t.kind t.source
  stands : t.source <+: cs.drop t.position
  longest : ∀ k s, Lexeme.Written k s → s <+: cs.drop t.position → s.length ≤ t.source.length

namespace Tokens

/-- The tokens of the first characters of a text, with nothing but white space between them. All
these characters are of the basic plane, so that the position of a token is also a number of
sixteen-bit units. -/
structure Cover (cs : List Char) (ts : List Token) (length : Nat) : Prop where
  longest : ∀ t ∈ ts, t.LongestIn cs
  ordered : ts.Pairwise fun t u => t.position < u.position ∧ t.finish ≤ u.position
  within : ∀ t ∈ ts, t.finish ≤ length
  blank : ∀ i < length, (∀ t ∈ ts, ¬ (t.position ≤ i ∧ i < t.finish)) → ∃ c, cs[i]? = some c ∧
    Text.isBlank c = true
  basic : ∀ c ∈ cs.take length, c.toNat < 0x10000

variable {cs rest : List Char} {c : Char} {ts : List Token} {t : Token} {p : Nat}

theorem cover_nil (cs : List Char) : Cover cs [] 0 :=
  ⟨nofun, .nil, nofun, nofun, nofun⟩

theorem lt_of_isBlank (h : Text.isBlank c = true) : c.toNat < 0x10000 := by
  simp only [Text.isBlank] at h
  generalize c.toNat = n at h
  simp at h
  omega

theorem take_of_drop {front : List Char} (h : cs.drop p = front ++ rest) :
    cs.take (p + front.length) = cs.take p ++ front := by
  rw [List.take_add, h, List.take_left]

theorem Cover.skip (h : Cover cs ts p) (hdrop : cs.drop p = c :: rest)
    (hc : Text.isBlank c = true) : Cover cs ts (p + 1) where
  longest := h.longest
  ordered := h.ordered
  within := fun t ht => Nat.le_succ_of_le (h.within t ht)
  blank := by
    intro i hi hnone
    rcases Nat.lt_succ_iff_lt_or_eq.mp hi with hi | rfl
    · exact h.blank i hi hnone
    · exact ⟨c, by rw [← List.head?_drop, hdrop]; rfl, hc⟩
  basic := by
    have hdrop : cs.drop p = [c] ++ rest := hdrop
    have htake : cs.take (p + 1) = cs.take p ++ [c] := take_of_drop hdrop
    rw [htake]
    exact List.forall_mem_append.mpr ⟨h.basic, List.forall_mem_singleton.mpr (lt_of_isBlank hc)⟩

theorem Cover.snoc (h : Cover cs ts t.position) (ht : t.LongestIn cs) :
    Cover cs (ts ++ [t]) t.finish := by
  obtain ⟨rest, hdrop⟩ := ht.stands
  have hpos : t.position < t.finish :=
    Nat.lt_add_of_pos_right (List.length_pos_of_ne_nil ht.written.ne_nil)
  refine ⟨?_, ?_, ?_, ?_, ?_⟩
  · exact List.forall_mem_append.mpr ⟨h.longest, List.forall_mem_singleton.mpr ht⟩
  · refine List.pairwise_append.mpr ⟨h.ordered, List.pairwise_singleton _ _, ?_⟩
    intro u hu v hv
    obtain rfl := List.mem_singleton.mp hv
    have hle := h.within u hu
    have hlt : u.position < u.finish :=
      Nat.lt_add_of_pos_right (List.length_pos_of_ne_nil (h.longest u hu).written.ne_nil)
    exact ⟨Nat.lt_of_lt_of_le hlt hle, hle⟩
  · exact List.forall_mem_append.mpr ⟨fun u hu => (h.within u hu).trans hpos.le,
      List.forall_mem_singleton.mpr le_rfl⟩
  · intro i hi hnone
    obtain ⟨hnone, hlast⟩ := List.forall_mem_append.mp hnone
    have hlast := List.forall_mem_singleton.mp hlast
    exact h.blank i (by omega) hnone
  · rw [Token.finish, take_of_drop hdrop.symm]
    refine List.forall_mem_append.mpr ⟨h.basic, fun c hc => ?_⟩
    have := (ht.written.graphic c hc).2
    omega

theorem longestIn_of_scan {l : Lexeme} (h : Lexeme.scan c rest = some l)
    (hdrop : cs.drop p = c :: rest) : (⟨l.kind, l.text, p⟩ : Token).LongestIn cs := by
  obtain ⟨hwritten, hchars⟩ := Lexeme.scan_written h
  refine ⟨hwritten, ⟨l.rest, hchars.trans hdrop.symm⟩, ?_⟩
  rintro k s hs ⟨after, hafter⟩
  obtain ⟨l', hl', hshort⟩ := Lexeme.scan_longest hs (hafter.trans hdrop)
  obtain rfl : l = l' := Option.some.inj (h.symm.trans hl')
  have hle : l.rest.length ≤ after.length := hshort.elim le_of_lt fun heq => by rw [heq.2]
  have hlength := congrArg List.length (hchars.trans (hafter.trans hdrop).symm)
  rw [List.length_append, List.length_append] at hlength
  change s.length ≤ (l.kind.source l.text).length
  omega

def Exact (cs : List Char) (ts : List Token) : Except CodeError Tokens → Prop
  | .ok us => Cover cs (ts ++ us.tokens) us.length ∧ us.length = cs.length
  | .error e => ∃ c p us, e = .character c p ∧ Cover cs (ts ++ us) p ∧ cs[p]? = some c ∧
      Text.isBlank c = false ∧ ∀ k s, Lexeme.Written k s → ¬ s <+: cs.drop p

theorem Exact.prepend {r : Except CodeError Tokens} (h : Exact cs (ts ++ [t]) r) :
    Exact cs ts (r.map (prepend [t])) := by
  cases r with
  | ok us =>
      obtain ⟨hcover, hlength⟩ := h
      rw [List.append_assoc] at hcover
      exact ⟨hcover, hlength⟩
  | error e =>
      obtain ⟨c, p, us, he, hcover, hrest⟩ := h
      rw [List.append_assoc] at hcover
      exact ⟨c, p, _, he, hcover, hrest⟩

theorem scan_exact (h : Cover cs ts p) (hdrop : cs.drop p = rest) (hp : p ≤ cs.length) :
    Exact cs ts (scan p rest) := by
  induction hn : rest.length using Nat.strongRecOn generalizing rest p ts with
  | ind n ih =>
      subst hn
      cases rest with
      | nil =>
          rw [scan]
          exact ⟨by rwa [List.append_nil], le_antisymm hp (List.drop_eq_nil_iff.mp hdrop)⟩
      | cons c rest =>
          have hlength := congrArg List.length hdrop
          rw [List.length_drop, List.length_cons] at hlength
          cases hblank : Text.isBlank c with
          | true =>
              have hnext : cs.drop (p + 1) = rest := by rw [← List.tail_drop, hdrop, List.tail_cons]
              rw [scan_blank hblank]
              exact ih _ (Nat.lt_succ_self _) (h.skip hdrop hblank) hnext (by omega) rfl
          | false =>
              cases hscan : Lexeme.scan c rest with
              | none =>
                  rw [scan_none hblank hscan]
                  refine ⟨c, p, [], rfl,
                    by rwa [List.append_nil], by rw [← List.head?_drop, hdrop]; rfl, hblank, ?_⟩
                  rintro k s hs ⟨after, hafter⟩
                  obtain ⟨l, hl, -⟩ := Lexeme.scan_longest hs (hafter.trans hdrop)
                  rw [hscan] at hl
                  cases hl
              | some l =>
                  obtain ⟨-, hchars⟩ := Lexeme.scan_written hscan
                  have hsource := congrArg List.length hchars
                  rw [List.length_append, List.length_cons] at hsource
                  have hfinish : (⟨l.kind, l.text, p⟩ : Token).finish =
                      p + ((rest.length + 1) - l.rest.length) := by
                    rw [Token.finish, Token.source]
                    simp only
                    omega
                  have hle := Lexeme.length_le_of_scan hscan
                  have hnext : cs.drop (⟨l.kind, l.text, p⟩ : Token).finish = l.rest := by
                    rw [Token.finish, ← List.drop_drop, hdrop, ← hchars]
                    exact List.drop_left
                  rw [scan_some hblank hscan, ← hfinish]
                  apply Exact.prepend
                  exact ih _ (Nat.lt_succ_of_le hle) (h.snoc (longestIn_of_scan hscan hdrop)) hnext
                    (by omega) rfl

theorem exact_ofText (text : String) : Exact text.toList [] (ofText text) :=
  scan_exact (cover_nil _) rfl (Nat.zero_le _)

theorem cover_of_ofText {text : String} {us : Tokens} (h : ofText text = .ok us) :
    Cover text.toList us.tokens text.toList.length ∧ us.length = text.toList.length := by
  have hexact := exact_ofText text
  rw [h] at hexact
  obtain ⟨hcover, hlength⟩ := hexact
  exact ⟨hlength ▸ hcover, hlength⟩

/-- On success the tokens cover the text, and the end stands at its length. A text is refused at a
character that is no white space and with which no token begins, where the characters before it are
covered. -/
theorem ofText_exact (text : String) :
    match ofText text with
    | .ok ts =>
      Cover text.toList ts.tokens text.toList.length ∧
        (stop ts.length).position = text.toList.length
    | .error e =>
      ∃ c p ts, e = .character c p ∧ Cover text.toList ts p ∧ text.toList[p]? = some c ∧
        Text.isBlank c = false ∧ ∀ k s, Lexeme.Written k s → ¬ s <+: text.toList.drop p := by
  have hexact := exact_ofText text
  cases hscan : ofText text with
  | ok ts => exact cover_of_ofText hscan
  | error e =>
      rw [hscan] at hexact
      exact hexact

end Tokens

end Formulary
