import Formulary.Code.Render
import Formulary.Proofs.Code.Token

namespace Formulary

namespace Tokens

def Runs (position : Nat) (cs : List Char) (ts : List Token) (position' : Nat) (rest : List Char) :
    Prop :=
  scan position cs = (scan position' rest).map (prepend ts)

theorem Runs.trans {p p' p'' : Nat} {cs cs' cs'' : List Char} {ts us : List Token}
    (h : Runs p cs ts p' cs') (h' : Runs p' cs' us p'' cs'') : Runs p cs (ts ++ us) p'' cs'' := by
  rw [Runs] at h h' ⊢
  rw [h, h', map_prepend]

theorem Runs.blank (position : Nat) (cs : List Char) :
    Runs position (' ' :: cs) [] (position + 1) cs := by
  rw [Runs, scan_blank (by decide)]
  cases scan (position + 1) cs <;> rfl

theorem runs_mark {c : Char} {cs rest : List Char} {k : TokenKind} {s : String}
    (hc : c ∈ ['*', '(', ')', '[', ']', '+', '-', '/', ','])
    (h : Lexeme.scan c cs = some ⟨k, s, rest⟩) (position : Nat) :
    ∃ t position', t.kind = k ∧ Runs position (c :: cs) [t] position' rest := by
  have hblank : ∀ c ∈ ['*', '(', ')', '[', ']', '+', '-', '/', ','], Text.isBlank c = false := by
    rw [← List.all_iff_forall_prop]
    decide
  obtain ⟨position', hscan⟩ := scan_lexeme (hblank c hc) h position
  exact ⟨_, position', rfl, hscan⟩

end Tokens

namespace Code

open Tokens

def Scanned (p : Phrase) (cs : List Char) : Prop :=
  ∀ (position : Nat) (rest : List Char), Boundary rest → ∃ ts position', Spelled p ts ∧
    Runs position (cs ++ rest) ts position' rest

structure Readable (b : Binding) (c : Code) : Prop where
  scanned : Scanned (.code b c) c.text.toList
  starts : ∃ d ds, c.text.toList = d :: ds ∧ d ≠ '*'

theorem Readable.mono {b b' : Binding} {c : Code} (h : Readable b c) (hb : b' ≤ b) :
    Readable b' c := by
  refine ⟨fun position rest hrest => ?_, h.starts⟩
  obtain ⟨ts, position', hts, hruns⟩ := h.scanned position rest hrest
  exact ⟨ts, position', hts.mono hb, hruns⟩

theorem starts_append {s u : String} (h : ∃ d ds, s.toList = d :: ds ∧ d ≠ '*') :
    ∃ d ds, (s ++ u).toList = d :: ds ∧ d ≠ '*' := by
  obtain ⟨d, ds, hs, hd⟩ := h
  exact ⟨d, ds ++ u.toList, by rw [String.toList_append, hs, List.cons_append], hd⟩

theorem readable_number {b : Binding} {l : Decimal.Literal} (hl : l.Plain) :
    Readable b (.number l.text) := by
  have hchars : l.text.toList = l.chars := String.toList_ofList
  refine ⟨fun position rest hrest => ?_, ?_⟩
  · obtain ⟨position', hscan⟩ := scan_number hl hrest position
    refine ⟨_, position', .number (t := ⟨.number, l.text, position⟩) rfl, ?_⟩
    rw [text, hchars]
    exact hscan
  · obtain ⟨c, cs, hcs, hdigit⟩ := hl.exists_cons
    refine ⟨c, cs, by rw [text, hchars, hcs], ?_⟩
    rintro rfl
    exact absurd hdigit (by decide)

theorem readable_imaginary {b : Binding} {l : Decimal.Literal} (hl : l.Plain) :
    Readable b (.imaginary l.text) := by
  have hchars : l.text.toList = l.chars := String.toList_ofList
  refine ⟨fun position rest _ => ?_, ?_⟩
  · obtain ⟨position', hscan⟩ := scan_imaginary hl rest position
    refine ⟨_, position', .imaginary (t := ⟨.imaginary, l.text, position⟩) rfl, ?_⟩
    rw [text, String.toList_append, hchars, List.append_assoc]
    exact hscan
  · obtain ⟨c, cs, hcs, hdigit⟩ := hl.exists_cons
    rw [text]
    apply starts_append
    refine ⟨c, cs, by rw [hchars, hcs], ?_⟩
    rintro rfl
    exact absurd hdigit (by decide)

theorem starts_name {s : String} (hs : Lexeme.isName s = true) :
    ∃ d ds, s.toList = d :: ds ∧ d ≠ '*' := by
  obtain ⟨c, cs, hchars, hstart, -⟩ := Lexeme.exists_cons_of_isName hs
  refine ⟨c, cs, hchars, ?_⟩
  rintro rfl
  exact absurd hstart (by decide)

theorem readable_name {b : Binding} {s : String} (hs : Lexeme.isName s = true) :
    Readable b (.name s) := by
  refine ⟨fun position rest hrest => ?_, starts_name hs⟩
  obtain ⟨position', hscan⟩ := scan_name hs hrest position
  exact ⟨_, position', .name (t := ⟨.identifier, s, position⟩) rfl, hscan⟩

def Marks (k : TokenKind) (cs next : List Char) : Prop :=
  ∀ position, ∃ t position', t.kind = k ∧ Runs position (cs ++ next) [t] position' next

theorem marks_of_mem {c : Char} {k : TokenKind} {s : String}
    (hc : c ∈ ['(', ')', '[', ']', '+', '-', '/', ','])
    (h : ∀ cs, Lexeme.ofMark c cs = some ⟨k, s, cs⟩) (next : List Char) : Marks k [c] next := by
  intro position
  have hlexeme : Lexeme.scan c next = some ⟨k, s, next⟩ := by rw [Lexeme.scan_mark hc, h]
  exact runs_mark (List.mem_cons_of_mem _ hc) hlexeme position

theorem marks_star {c : Char} (hc : c ≠ '*') (cs : List Char) : Marks .star ['*'] (c :: cs) := by
  intro position
  exact runs_mark (by decide) (Lexeme.scan_star hc cs) position

theorem marks_power (next : List Char) : Marks .power ['*', '*'] next := by
  intro position
  exact runs_mark (by decide) (Lexeme.scan_power next) position

theorem Marks.spaced {k : TokenKind} {c : Char} {next : List Char} (h : ∀ next, Marks k [c] next) :
    Marks k [' ', c, ' '] next := by
  intro position
  obtain ⟨t, position', ht, hruns⟩ := h (' ' :: next) (position + 1)
  exact ⟨t, position' + 1, ht,
    ((Runs.blank position _).trans hruns).trans (Runs.blank position' next)⟩

variable {b : Binding} {l r c : Code}

theorem Readable.joined {b₁ b₂ : Binding} (hl : Readable b₁ l) (hr : Readable b₂ r) {k : TokenKind}
    (op : List Char)
    (htext : c.text.toList = l.text.toList ++ (op ++ r.text.toList))
    (hop : ∀ rest, Marks k op (r.text.toList ++ rest))
    (hboundary : ∀ rest, Boundary (op ++ rest))
    (hspelled : ∀ {ts us t}, Spelled (.code b₁ l) ts → t.kind = k → Spelled (.code b₂ r) us →
      Spelled (.code b c) (ts ++ t :: us)) :
    Readable b c := by
  refine ⟨fun position rest hrest => ?_, ?_⟩
  · obtain ⟨ts, p₁, hts, hruns₁⟩ := hl.scanned position (op ++ (r.text.toList ++ rest)) (hboundary _)
    obtain ⟨t, p₂, ht, hruns₂⟩ := hop rest p₁
    obtain ⟨us, p₃, hus, hruns₃⟩ := hr.scanned p₂ rest hrest
    refine ⟨_, p₃, hspelled hts ht hus, ?_⟩
    rw [htext, List.append_assoc, List.append_assoc]
    exact hruns₁.trans (hruns₂.trans hruns₃)
  · obtain ⟨d, ds, hchars, hd⟩ := hl.starts
    rw [htext, hchars]
    exact ⟨d, _, List.cons_append, hd⟩

theorem Readable.power (hl : Readable .atom l) (hr : Readable .unary r) :
    Readable .power (.power l r) := by
  refine hl.joined hr ['*', '*'] (by simp [text]) (fun _ => marks_power _)
    (fun _ => boundary_cons (by decide) _) ?_
  exact .power (by decide)

theorem Readable.mul (hl : Readable .product l) (hr : Readable .unary r) :
    Readable .product (.mul l r) := by
  have hstar (rest : List Char) : Marks .star ['*'] (r.text.toList ++ rest) := by
    obtain ⟨d, ds, hchars, hd⟩ := hr.starts
    rw [hchars]
    exact marks_star hd _
  refine hl.joined hr ['*'] (by simp [text]) hstar (fun _ => boundary_cons (by decide) _) ?_
  exact .mul (by decide)

theorem Readable.div (hl : Readable .product l) (hr : Readable .unary r) :
    Readable .product (.div l r) := by
  refine hl.joined hr ['/'] (by simp [text]) (fun _ => marks_of_mem (by decide) (fun _ => rfl) _)
    (fun _ => boundary_cons (by decide) _) ?_
  exact .div (by decide)

theorem Readable.add (hl : Readable .sum l) (hr : Readable .product r) :
    Readable .sum (.add l r) := by
  refine hl.joined hr [' ', '+', ' '] (by simp [text])
    (fun _ => .spaced fun _ => marks_of_mem (by decide) (fun _ => rfl) _)
    (fun _ => boundary_cons (by decide) _) ?_
  exact .add (by decide)

theorem Readable.sub (hl : Readable .sum l) (hr : Readable .product r) :
    Readable .sum (.sub l r) := by
  refine hl.joined hr [' ', '-', ' '] (by simp [text])
    (fun _ => .spaced fun _ => marks_of_mem (by decide) (fun _ => rfl) _)
    (fun _ => boundary_cons (by decide) _) ?_
  exact .sub (by decide)

theorem Readable.negative (h : Readable .unary c) : Readable .unary (.negative c) := by
  refine ⟨fun position rest hrest => ?_, starts_append ⟨'-', [], rfl, by decide⟩⟩
  obtain ⟨t, p₁, ht, hruns⟩ :=
    marks_of_mem (c := '-') (by decide) (fun _ => rfl) (c.text.toList ++ rest) position
  obtain ⟨ts, p₂, hts, hruns'⟩ := h.scanned p₁ rest hrest
  refine ⟨_, p₂, .negative (by decide) ht hts, ?_⟩
  simpa [text] using hruns.trans hruns'

theorem Scanned.enclosed {p : Phrase} {cs : List Char} (h : Scanned p cs) {k k' : TokenKind}
    {o e : Char} (ho : ∀ next, Marks k [o] next) (he : ∀ next, Marks k' [e] next)
    (hboundary : Lexeme.isNameChar e = false ∧ e ≠ '.') (position : Nat) (rest : List Char) :
    ∃ t ts u position', t.kind = k ∧ Spelled p ts ∧ u.kind = k' ∧
      Runs position (o :: (cs ++ e :: rest)) (t :: (ts ++ [u])) position' rest := by
  obtain ⟨t, p₁, ht, hruns₁⟩ := ho (cs ++ e :: rest) position
  obtain ⟨ts, p₂, hts, hruns₂⟩ := h p₁ (e :: rest) (boundary_cons hboundary rest)
  obtain ⟨u, p₃, hu, hruns₃⟩ := he rest p₂
  exact ⟨t, ts, u, p₃, ht, hts, hu, hruns₁.trans (hruns₂.trans hruns₃)⟩

theorem Readable.paren (h : Readable .sum c) : Readable .atom (.paren c) := by
  refine ⟨fun position rest _ => ?_, starts_append (starts_append ⟨'(', [], rfl, by decide⟩)⟩
  obtain ⟨t, ts, u, position', ht, hts, hu, hruns⟩ := h.scanned.enclosed (o := '(') (e := ')')
    (fun _ => marks_of_mem (by decide) (fun _ => rfl) _)
    (fun _ => marks_of_mem (by decide) (fun _ => rfl) _) (by decide) position rest
  refine ⟨_, position', .paren ht hts hu, ?_⟩
  simpa [text] using hruns

theorem scanned_sequence {cs : List Code} (h : ∀ c ∈ cs, Readable .sum c) :
    Scanned (.sequence cs) (", ".intercalate (texts cs)).toList := by
  induction cs with
  | nil =>
      intro position rest _
      refine ⟨[], position, .nothing, ?_⟩
      rw [texts, String.intercalate_nil, Runs]
      cases h : scan position rest <;> simp [Except.map, prepend, h]
  | cons c cs ih =>
      have hc := (h c List.mem_cons_self).scanned
      cases cs with
      | nil =>
          intro position rest hrest
          obtain ⟨ts, position', hts, hruns⟩ := hc position rest hrest
          refine ⟨ts, position', .last hts, ?_⟩
          rwa [texts, texts, String.intercalate_singleton]
      | cons d ds =>
          intro position rest hrest
          have htail := ih fun c hc => h c (List.mem_cons_of_mem _ hc)
          generalize htext : (", ".intercalate (texts (d :: ds))).toList = tail at htail
          have hboundary : Boundary (',' :: ' ' :: (tail ++ rest)) := boundary_cons (by decide) _
          obtain ⟨ts, p₁, hts, hruns₁⟩ := hc position _ hboundary
          obtain ⟨t, p₂, ht, hruns₂⟩ :=
            marks_of_mem (c := ',') (by decide) (fun _ => rfl) (' ' :: (tail ++ rest)) p₁
          obtain ⟨us, p₃, hus, hruns₃⟩ := htail (p₂ + 1) rest hrest
          have hruns := hruns₁.trans (hruns₂.trans ((Runs.blank p₂ _).trans hruns₃))
          refine ⟨_, p₃, .more hts ht (List.cons_ne_nil d ds) hus, ?_⟩
          have hchars : (", ".intercalate (texts (c :: d :: ds))).toList = c.text.toList ++
              ',' :: ' ' :: tail := by
            rw [texts, texts, String.intercalate_cons_cons, String.toList_append,
              String.toList_append, ← htext, texts]
            simp
          rw [hchars]
          simpa using hruns

theorem readable_list {cs : List Code} (h : ∀ c ∈ cs, Readable .sum c) :
    Readable .atom (.list cs) := by
  refine ⟨fun position rest _ => ?_, starts_append (starts_append ⟨'[', [], rfl, by decide⟩)⟩
  obtain ⟨t, ts, u, position', ht, hts, hu, hruns⟩ :=
    (scanned_sequence h).enclosed (o := '[') (e := ']')
    (fun _ => marks_of_mem (by decide) (fun _ => rfl) _)
    (fun _ => marks_of_mem (by decide) (fun _ => rfl) _) (by decide) position rest
  refine ⟨_, position', .list ht hts hu, ?_⟩
  simpa [text] using hruns

theorem readable_call {f : String} (hf : Lexeme.isName f = true) {cs : List Code}
    (h : ∀ c ∈ cs, Readable .sum c) : Readable .atom (.call f cs) := by
  refine ⟨fun position rest _ => ?_, starts_append (starts_append (starts_append (starts_name hf)))⟩
  obtain ⟨p₁, hname⟩ :=
    scan_name hf (boundary_cons (c := '(') (by decide) ((", ".intercalate (texts cs)).toList ++
    ')' :: rest)) position
  obtain ⟨t, ts, u, position', ht, hts, hu, hruns⟩ :=
    (scanned_sequence h).enclosed (o := '(') (e := ')')
    (fun _ => marks_of_mem (by decide) (fun _ => rfl) _)
    (fun _ => marks_of_mem (by decide) (fun _ => rfl) _) (by decide) p₁ rest
  refine ⟨_, position', .call (t := ⟨.identifier, f, position⟩) rfl ht hts hu, ?_⟩
  have hall : Runs position (f.toList ++ '(' :: ((", ".intercalate (texts cs)).toList ++ ')' :: rest))
      ([⟨.identifier, f, position⟩] ++ (t :: (ts ++ [u]))) position' rest := Runs.trans hname hruns
  simpa [text] using hall

theorem Readable.wrap {strength need : Binding} (h : Readable strength c) :
    Readable need (Rendering.wrap c strength need) := by
  rw [Rendering.wrap]
  split
  · next hle => exact h.mono hle
  · have hsum : Readable .sum c := h.mono (by cases strength <;> decide)
    exact hsum.paren.mono (by cases need <;> decide)

theorem Spelled.negated {ts : List Token} {t : Token} (ht : t.kind = .minus)
    (h : Spelled (.code b c) ts) (hb : .product ≤ b) :
    Spelled (.code (if b ≤ .unary then b else .unary) c.negated) (t :: ts) := by
  have hunary : (if b ≤ .unary then b else .unary) ≤ Binding.unary := by cases b <;> decide
  have product (hb : b ≤ .product) : (if b ≤ .unary then b else .unary) ≤ Binding.product := by
    cases b <;> revert hb <;> decide
  have left {c : Code} {ts : List Token}
      (h : Spelled (.code (if .product ≤ Binding.unary then .product else .unary) c) ts) :
      Spelled (.code .product c) ts := h
  induction c using Code.negated.induct generalizing b ts with
  | case1 l r ih =>
      cases h with
      | mul hle hl hstar hr =>
        exact .mul (product hle) (left (ih hl (by decide) (by decide) (fun _ => by decide))) hstar hr
  | case2 l r ih =>
      cases h with
      | div hle hl hslash hr =>
        exact .div (product hle) (left (ih hl (by decide) (by decide) (fun _ => by decide))) hslash hr
  | case3 c hmul hdiv =>
      have hsum : ¬ b ≤ .sum := by cases b <;> revert hb <;> decide
      have hc : Spelled (.code .unary c) ts := by
        cases h with
        | number ht => exact .number ht
        | imaginary ht => exact .imaginary ht
        | name ht => exact .name ht
        | call ht hu h hv => exact .call ht hu h hv
        | list hu h hv => exact .list hu h hv
        | paren hu h hv => exact .paren hu h hv
        | power hle hl ht hr => exact .power (by decide) hl ht hr
        | negative hle ht h => exact .negative (by decide) ht h
        | positive hle ht h => exact .positive (by decide) ht h
        | mul hle hl ht hr => exact absurd rfl (hmul _ _)
        | div hle hl ht hr => exact absurd rfl (hdiv _ _)
        | add hle hl ht hr => exact absurd hle hsum
        | sub hle hl ht hr => exact absurd hle hsum
      rw [Code.negated]
      · exact .negative hunary ht hc
      · exact hmul
      · exact hdiv

theorem Readable.negated (h : Readable b c) (hb : .product ≤ b) :
    Readable (if b ≤ .unary then b else .unary) c.negated := by
  have hchars : c.negated.text.toList = '-' :: c.text.toList := by
    rw [text_negated, String.toList_append]
    rfl
  refine ⟨fun position rest hrest => ?_, ⟨'-', _, hchars, by decide⟩⟩
  obtain ⟨t, p₁, ht, hruns⟩ :=
    marks_of_mem (c := '-') (by decide) (fun _ => rfl) (c.text.toList ++ rest) position
  obtain ⟨ts, p₂, hts, hruns'⟩ := h.scanned p₁ rest hrest
  refine ⟨_, p₂, hts.negated ht hb, ?_⟩
  rw [hchars]
  exact hruns.trans hruns'

theorem Readable.parse (h : Readable .sum c) : Code.parse c.text = Except.ok c := by
  obtain ⟨ts, position', hts, hruns⟩ := h.scanned 0 [] boundary_nil
  have hnil : scan position' [] = Except.ok ⟨[], position'⟩ := scan.eq_def _ _
  rw [List.append_nil, Runs, hnil] at hruns
  have hrest : Tokens.ofText c.text = Except.ok ⟨ts, position'⟩ := by
    rw [Tokens.ofText, hruns]
    simp [Except.map, prepend]
  rw [Code.parse, hrest]
  exact ofTokens_of_spelled hts

end Code

end Formulary
