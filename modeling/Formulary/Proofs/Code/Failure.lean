import Formulary.Proofs.Code.Denotation
import Formulary.Proofs.Code.Tokenization

namespace Formulary

def Token.word (t : Token) : TokenKind × String := (t.kind, t.text)

theorem CodeError.position_of_found {e : CodeError} {t : Token} (h : e.found? = some t) :
    e.position = t.position := by
  cases e with
  | character c p => cases h
  | expected k u | unexpected u =>
      cases h
      rfl

namespace Tokens

def spaced (ts : List Token) : List Char := ts.flatMap fun t => t.source ++ [' ']

variable {t : Token} {ts : List Token}

theorem source_inj {k : TokenKind} {s s' : String} (h : k.source s = k.source s') : s = s' := by
  by_cases hk : k = .imaginary
  · rw [TokenKind.source, TokenKind.source, if_pos hk, if_pos hk] at h
    exact String.toList_inj.mp (List.append_cancel_right h)
  · rw [TokenKind.source_eq_toList hk, TokenKind.source_eq_toList hk] at h
    exact String.toList_inj.mp h

/-- A space is no part of a token. -/
theorem scan_source (h : Lexeme.Written t.kind t.source) (rest : List Char) (position : Nat) :
    ∃ position', scan position (t.source ++ ' ' :: rest) =
      (scan position' rest).map (prepend [{ t with position }]) := by
  obtain ⟨c, cs, hsource⟩ := List.exists_cons_of_ne_nil h.ne_nil
  have hblank : Text.isBlank c = false :=
    Text.isBlank_of_isGraphic (h.graphic c (by rw [hsource]; exact List.mem_cons_self))
  have hfront : t.source ++ ' ' :: rest = c :: (cs ++ ' ' :: rest) := by
    rw [hsource, List.cons_append]
  obtain ⟨l, hl, hlongest⟩ := Lexeme.scan_longest h hfront
  obtain ⟨hwritten, hchars⟩ := Lexeme.scan_written hl
  rw [← hfront] at hchars
  have hrest : l.kind = t.kind ∧ l.rest = ' ' :: rest := by
    refine hlongest.resolve_left fun hlt => ?_
    -- a longer token would hold the space
    obtain ⟨more, hmore⟩ : t.source <+: l.kind.source l.text := by
      refine List.prefix_of_prefix_length_le ⟨_, rfl⟩ ⟨_, hchars⟩ ?_
      have hlength := congrArg List.length hchars
      rw [List.length_append, List.length_append] at hlength
      omega
    rw [← hmore, List.append_assoc] at hchars
    have hspace := List.append_cancel_left hchars
    cases more with
    | nil =>
        rw [List.nil_append] at hspace
        rw [hspace] at hlt
        exact Nat.lt_irrefl _ hlt
    | cons d more =>
        obtain rfl : d = ' ' := (List.cons.inj hspace).1
        have hmem : ' ' ∈ l.kind.source l.text := by
          rw [← hmore]
          exact List.mem_append_right _ List.mem_cons_self
        exact absurd (hwritten.graphic _ hmem) (by decide)
  obtain ⟨hkind, hrest⟩ := hrest
  rw [hkind, hrest] at hchars
  have htext : l.text = t.text := source_inj (List.append_cancel_right hchars)
  have hscan := scan_some hblank hl position
  rw [hkind, hrest, htext, scan_blank (c := ' ') (by decide)] at hscan
  rw [hfront]
  exact ⟨_, hscan⟩

theorem scan_spaced (hts : ∀ t ∈ ts, Lexeme.Written t.kind t.source) (position : Nat) :
    ∃ us, scan position (spaced ts) = .ok us ∧ us.tokens.map Token.word = ts.map Token.word := by
  induction ts generalizing position with
  | nil => exact ⟨⟨[], position⟩, by rw [spaced, List.flatMap_nil, scan], rfl⟩
  | cons t ts ih =>
      obtain ⟨ht, hts⟩ := List.forall_mem_cons.mp hts
      obtain ⟨position', hscan⟩ := scan_source ht (spaced ts) position
      obtain ⟨us, hus, hwords⟩ := ih hts position'
      rw [hus] at hscan
      have hfront : spaced (t :: ts) = t.source ++ ' ' :: spaced ts := by
        rw [spaced, List.flatMap_cons, List.append_assoc]
        rfl
      rw [hfront]
      exact ⟨_, hscan, congrArg (t.word :: ·) hwords⟩

/-- Any tokens in any order are the tokens of some text. -/
theorem exists_ofText (hts : ∀ t ∈ ts, Lexeme.Written t.kind t.source) :
    ∃ text us, ofText text = .ok us ∧ us.tokens.map Token.word = ts.map Token.word := by
  obtain ⟨us, hus, hwords⟩ := scan_spaced hts 0
  exact ⟨String.ofList (spaced ts), us, by rw [ofText, String.toList_ofList, hus], hwords⟩

end Tokens

namespace Code

/-- The reader fails at a token, or at the end. What stands before could go on to be an expression,
and what follows the token does not matter. -/
theorem ofTokens_error {ts : Tokens} {e : CodeError} (h : ofTokens ts = .error e) :
    (∃ before t after, ts.tokens = before ++ t :: after ∧ e.found? = some t ∧
        Grammar.Completable (Derives .sum) before ∧
        ∀ after', ¬ Derives .sum (before ++ t :: after')) ∨
      e.found? = some (Tokens.stop ts.length) ∧ Grammar.Completable (Derives .sum) ts.tokens ∧
      ¬ Derives .sum ts.tokens := by
  have hrefused : ¬ Derives .sum ts.tokens := fun hderives => by
    obtain ⟨c, hc⟩ := (ofTokens_iff ts).1.mpr hderives
    rw [h] at hc
    cases hc
  rcases (foresees_ofTokens ts.length ts.tokens).fails e (by rw [h]; rfl)
    with ⟨before, t, after, hts, he, hbefore, hsame⟩ | ⟨he, hts⟩
  · refine .inl ⟨before, t, after, hts, he, hbefore, fun after' hderives => ?_⟩
    obtain ⟨c, hc⟩ := (ofTokens_iff ⟨before ++ t :: after', ts.length⟩).1.mpr hderives
    have herror : (ofTokens ⟨before ++ t :: after', ts.length⟩).map (·, []) = .error e := hsame after'
    rw [hc] at herror
    cases herror
  · exact .inr ⟨he, hts, hrefused⟩

end Code

namespace Target

def Accepts (t : Target) (ws : List (TokenKind × String)) : Prop :=
  ∃ (text : String) (ts : Tokens) (x : Expr Float), Tokens.ofText text = .ok ts ∧
    ts.tokens.map Token.word = ws ∧ t.read text = .ok x

def Begins (t : Target) (ws : List (TokenKind × String)) : Prop := ∃ more, t.Accepts (ws ++ more)

variable {t : Target} {ts : List Token}

open Code (Derives)

theorem exists_read_iff {text : String} {ts : Tokens} (htokens : Tokens.ofText text = .ok ts) :
    (∃ x : Expr Float, t.read text = .ok x) ↔ Derives .sum ts.tokens := by
  have hread := t.read_iff text
  rw [htokens] at hread
  exact hread.1

theorem derives_of_accepts (h : t.Accepts (ts.map Token.word)) : Derives .sum ts := by
  obtain ⟨text, us, x, htokens, hwords, hread⟩ := h
  have hkinds := congrArg (List.map Prod.fst) hwords
  rw [List.map_map, List.map_map] at hkinds
  exact ((exists_read_iff htokens).mp ⟨x, hread⟩).congr hkinds.symm

theorem accepts_of_derives (h : Derives .sum ts) (hts : ∀ t ∈ ts, Lexeme.Written t.kind t.source) :
    t.Accepts (ts.map Token.word) := by
  obtain ⟨text, us, htokens, hwords⟩ := Tokens.exists_ofText hts
  have hkinds := congrArg (List.map Prod.fst) hwords
  rw [List.map_map, List.map_map] at hkinds
  obtain ⟨x, hx⟩ := (exists_read_iff (t := t) htokens).mpr (h.congr hkinds)
  exact ⟨text, us, x, htokens, hwords, hx⟩

theorem written_fillers : ∀ t ∈ Code.Grammar.fillers, Lexeme.Written t.kind t.source := by
  have written {c : Char} {k : TokenKind} {text : String}
      (h : Lexeme.scan c [] = some ⟨k, text, []⟩) :
      Lexeme.Written k (k.source text) := (Lexeme.scan_written h).1
  refine List.forall_mem_cons.mpr ⟨?_,
    List.forall_mem_cons.mpr ⟨?_, List.forall_mem_singleton.mpr ?_⟩⟩
  · exact written (c := '1') rfl
  · exact written (c := ')') rfl
  · exact written (c := ']') rfl

/-- What can be completed begins an accepted text. -/
theorem begins_of_completable (h : Code.Grammar.Completable (Derives .sum) ts)
    (hts : ∀ t ∈ ts, Lexeme.Written t.kind t.source) : t.Begins (ts.map Token.word) := by
  obtain ⟨us, hus, hderives⟩ := h
  refine ⟨us.map Token.word, ?_⟩
  rw [← List.map_append]
  exact accepts_of_derives hderives
    (List.forall_mem_append.mpr ⟨hts, fun u hu => written_fillers u (hus hu)⟩)

/-- What no tokens complete begins no accepted text. -/
theorem not_begins (h : ∀ us, ¬ Derives .sum (ts ++ us)) : ¬ t.Begins (ts.map Token.word) := by
  rintro ⟨more, haccepts⟩
  obtain ⟨text, us, x, htokens, hwords, hread⟩ := haccepts
  obtain ⟨vs, ws, hus, hvs, -⟩ := List.map_eq_append_iff.mp hwords
  have hkinds := congrArg (List.map Prod.fst) hvs
  rw [List.map_map, List.map_map] at hkinds
  have hderives := (exists_read_iff htokens).mp ⟨x, hread⟩
  refine h ws (hderives.congr ?_)
  rw [hus, List.map_append, List.map_append]
  exact congrArg (· ++ ws.map Token.kind) hkinds.symm

theorem read_eq_map (t : Target) {text : String} {ts : Tokens}
    (htokens : Tokens.ofText text = .ok ts) :
    (t.read text : Except CodeError (Expr Float)) = (Code.ofTokens ts).map t.treeOfCode := by
  rw [read, Code.parse, htokens]

theorem read_error_iff {text : String} {ts : Tokens} {e : CodeError}
    (htokens : Tokens.ofText text = .ok ts) :
    (t.read text : Except CodeError (Expr Float)) = .error e ↔ Code.ofTokens ts = .error e := by
  rw [read_eq_map t htokens]
  cases Code.ofTokens ts with
  | error e' => exact ⟨fun h => by cases h; rfl, fun h => by cases h; rfl⟩
  | ok c => exact ⟨nofun, nofun⟩

/-- Where a text of tokens is refused, the error names a token, at its place in the text, or the
end. The tokens before it begin a text that is read, and together with that token they do not; at
the end all the tokens begin one without being one. -/
theorem read_error_exact (t : Target) {text : String} {ts : Tokens} {e : CodeError}
    (htokens : Tokens.ofText text = .ok ts)
    (h : (t.read text : Except CodeError (Expr Float)) = .error e) :
    (∃ before token after, ts.tokens = before ++ token :: after ∧ e.found? = some token ∧
        e.position = token.position ∧
        token.source <+: text.toList.drop token.position ∧ t.Begins (before.map Token.word) ∧
        ¬ t.Begins ((before ++ [token]).map Token.word)) ∨
      e.found? = some (Tokens.stop text.toList.length) ∧ e.position = text.toList.length ∧
        t.Begins (ts.tokens.map Token.word) ∧ ¬ t.Accepts (ts.tokens.map Token.word) := by
  obtain ⟨hcover, hlength⟩ := Tokens.cover_of_ofText htokens
  have herror := (read_error_iff htokens).mp h
  have hwritten (us : List Token) (hus : us ⊆ ts.tokens) : ∀ t ∈ us, Lexeme.Written t.kind t.source :=
    fun u hu => (hcover.longest u (hus hu)).written
  rcases Code.ofTokens_error herror with ⟨before, token, after, hts, he, hbefore, hrefused⟩
    | ⟨he, hbegun, hrefused⟩
  · refine .inl ⟨before, token, after, hts, he, CodeError.position_of_found he, ?_, ?_, ?_⟩
    · exact (hcover.longest token (by rw [hts]; simp)).stands
    · exact begins_of_completable hbefore (hwritten before (by rw [hts]; simp))
    · exact not_begins fun us => by
        rw [List.append_assoc]
        exact hrefused us
  · rw [hlength] at he
    exact .inr ⟨he, CodeError.position_of_found he,
      begins_of_completable hbegun (hwritten _ fun _ h => h),
      fun haccepts => hrefused (derives_of_accepts haccepts)⟩

/-- Between two names in the arguments of a call a comma is missing. -/
theorem read_error_exact_juxtaposed :
    (numpy.read "f(a b)" : Except CodeError (Expr Float)) =
      .error (.expected .rightParen ⟨.identifier, "b", 4⟩) ∧
      numpy.Begins [(.identifier, "f"), (.leftParen, "("), (.identifier, "a")] ∧
      ¬ numpy.Begins [(.identifier, "f"), (.leftParen, "("), (.identifier, "a"),
        (.identifier, "b")] := by
  let front : List Token := [⟨.identifier, "f", 0⟩, ⟨.leftParen, "(", 1⟩, ⟨.identifier, "a", 2⟩]
  let b : Token := ⟨.identifier, "b", 4⟩
  have htokens : Tokens.ofText "f(a b)" = .ok ⟨front ++ [b, ⟨.rightParen, ")", 5⟩], 6⟩ := by
    decide +kernel
  have hparsed : (match Code.ofTokens ⟨front ++ [b, ⟨.rightParen, ")", 5⟩], 6⟩ with
      | .error e => decide (e = .expected .rightParen b)
      | .ok _ => false) = true := by decide +kernel
  have hread :
      (numpy.read "f(a b)" : Except CodeError (Expr Float)) = .error (.expected .rightParen b) := by
    refine (read_error_iff htokens).mpr ?_
    split at hparsed
    · next e he => rw [he, of_decide_eq_true hparsed]
    · cases hparsed
  refine ⟨hread, ?_⟩
  rcases read_error_exact numpy htokens hread
    with ⟨before, token, after, hts, he, -, -, hbegins, hnot⟩ | ⟨he, -⟩
  · obtain rfl : b = token := Option.some.inj he
    obtain rfl : before = front := by
      rcases before with _ | ⟨t₁, _ | ⟨t₂, _ | ⟨t₃, _ | ⟨t₄, before⟩⟩⟩⟩ <;> simp [front, b] at hts
      · obtain ⟨rfl, rfl, rfl, -⟩ := hts
        rfl
      · have hlast := List.mem_append_right before (List.mem_cons_self (a := b) (l := after))
        rw [← hts.2.2.2.2] at hlast
        simp [b] at hlast
    exact ⟨hbegins, hnot⟩
  · exact absurd (Option.some.inj he) (by decide)

end Target

end Formulary
