import Formulary.Code.Basic
import Formulary.Code.Token

namespace Formulary.Code

namespace Grammar

/-- Something read, and the tokens that are left, fewer than the bound. -/
structure Parsed (α : Type) (bound : Nat) where
  value : α
  rest : List Token
  below : rest.length < bound

namespace Parsed

variable {α β : Type} {m n : Nat}

def relax (h : m ≤ n) (p : Parsed α m) : Parsed α n := ⟨p.value, p.rest, Nat.lt_of_lt_of_le p.below h⟩

def map (f : α → β) (p : Parsed α n) : Parsed β n := ⟨f p.value, p.rest, p.below⟩

end Parsed

def expect (length : Nat) (kind : TokenKind) (ts : List Token) :
    Except CodeError (Parsed Unit ts.length) :=
  match ts with
  | t :: rest =>
    if t.kind = kind then .ok ⟨(), rest, Nat.lt_succ_self _⟩ else .error (.expected kind t)
  | [] => .error (.expected kind (Tokens.stop length))

mutual

/-- One function for each rule of the grammar:

    sum      := product (('+' | '-') product)*
    product  := unary (('*' | '/') unary)*
    unary    := '-' unary | '+' unary | power
    power    := primary ['**' unary]
    primary  := NUMBER | IMAGINARY | '(' sum ')' | '[' sequence ']' | IDENT ['(' sequence ')']
    sequence := nothing | sum (',' sum)*

A rule takes at least one token, and the loops of sums and products may take none. -/
def sum (length : Nat) (ts : List Token) : Except CodeError (Parsed Code ts.length) :=
  match product length ts with
  | .error e => .error e
  | .ok p =>
    match sumLoop length p.value p.rest with
    | .error e => .error e
    | .ok q => .ok (q.relax p.below)
termination_by 9 * ts.length + 6
decreasing_by
  · omega
  · have := p.below; omega

def sumLoop (length : Nat) (left : Code) (ts : List Token) :
    Except CodeError (Parsed Code (ts.length + 1)) :=
  match ts with
  | [] => .ok ⟨left, [], Nat.lt_succ_self _⟩
  | t :: rest =>
    if t.kind = .plus ∨ t.kind = .minus then
      match product length rest with
      | .error e => .error e
      | .ok p =>
        match sumLoop length (if t.kind = .plus then .add left p.value
            else .sub left p.value) p.rest with
        | .error e => .error e
        | .ok q => .ok (q.relax (by have := p.below; simp only [List.length_cons]; omega))
    else .ok ⟨left, t :: rest, Nat.lt_succ_self _⟩
termination_by 9 * ts.length + 5
decreasing_by
  · simp only [List.length_cons]; omega
  · have := p.below; simp only [List.length_cons]; omega

def product (length : Nat) (ts : List Token) : Except CodeError (Parsed Code ts.length) :=
  match unary length ts with
  | .error e => .error e
  | .ok p =>
    match productLoop length p.value p.rest with
    | .error e => .error e
    | .ok q => .ok (q.relax p.below)
termination_by 9 * ts.length + 4
decreasing_by
  · omega
  · have := p.below; omega

def productLoop (length : Nat) (left : Code) (ts : List Token) :
    Except CodeError (Parsed Code (ts.length + 1)) :=
  match ts with
  | [] => .ok ⟨left, [], Nat.lt_succ_self _⟩
  | t :: rest =>
    if t.kind = .star ∨ t.kind = .slash then
      match unary length rest with
      | .error e => .error e
      | .ok p =>
        match productLoop length (if t.kind = .star then .mul left p.value
            else .div left p.value) p.rest with
        | .error e => .error e
        | .ok q => .ok (q.relax (by have := p.below; simp only [List.length_cons]; omega))
    else .ok ⟨left, t :: rest, Nat.lt_succ_self _⟩
termination_by 9 * ts.length + 3
decreasing_by
  · simp only [List.length_cons]; omega
  · have := p.below; simp only [List.length_cons]; omega

def unary (length : Nat) (ts : List Token) : Except CodeError (Parsed Code ts.length) :=
  match ts with
  | [] => .error (.unexpected (Tokens.stop length))
  | t :: rest =>
    if t.kind = .minus then
      match unary length rest with
      | .error e => .error e
      | .ok p => .ok ((p.map .negative).relax (Nat.le_succ _))
    else if t.kind = .plus then
      match unary length rest with
      | .error e => .error e
      | .ok p => .ok ((p.map .positive).relax (Nat.le_succ _))
    else power length (t :: rest)
termination_by 9 * ts.length + 2
decreasing_by all_goals simp only [List.length_cons]; omega

def power (length : Nat) (ts : List Token) : Except CodeError (Parsed Code ts.length) :=
  match primary length ts with
  | .error e => .error e
  | .ok p =>
    match h : p.rest with
    | [] => .ok p
    | t :: rest =>
      if t.kind = .power then
        match unary length rest with
        | .error e => .error e
        | .ok q =>
          .ok ((q.map (.power p.value)).relax (by
            have := p.below; rw [h, List.length_cons] at this; omega))
      else .ok p
termination_by 9 * ts.length + 1
decreasing_by
  · omega
  · have := p.below; rw [h, List.length_cons] at this; omega

def primary (length : Nat) (ts : List Token) : Except CodeError (Parsed Code ts.length) :=
  match ts with
  | [] => .error (.unexpected (Tokens.stop length))
  | t :: rest =>
    match t.kind with
    | .number => .ok ⟨.number t.text, rest, Nat.lt_succ_self _⟩
    | .imaginary => .ok ⟨.imaginary t.text, rest, Nat.lt_succ_self _⟩
    | .leftParen =>
      match sum length rest with
      | .error e => .error e
      | .ok p =>
        match expect length .rightParen p.rest with
        | .error e => .error e
        | .ok q =>
          .ok ((q.map fun _ => .paren p.value).relax
            (by have := p.below; simp only [List.length_cons]; omega))
    | .leftBracket =>
      match sequence length .rightBracket rest with
      | .error e => .error e
      | .ok p => .ok ((p.map .list).relax (Nat.le_succ _))
    | .identifier =>
      match rest with
      | [] => .ok ⟨.name t.text, [], Nat.lt_succ_self _⟩
      | u :: rest =>
        if u.kind = .leftParen then
          match sequence length .rightParen rest with
          | .error e => .error e
          | .ok p => .ok ((p.map (.call t.text)).relax (by simp only [List.length_cons]; omega))
        else .ok ⟨.name t.text, u :: rest, Nat.lt_succ_self _⟩
    | _ => .error (.unexpected t)
termination_by 9 * ts.length + 0
decreasing_by all_goals simp only [List.length_cons]; omega

def sequence (length : Nat) (close : TokenKind) (ts : List Token) :
    Except CodeError (Parsed (List Code) ts.length) :=
  match ts with
  | [] => items length close []
  | t :: rest =>
    if t.kind = close then .ok ⟨[], rest, Nat.lt_succ_self _⟩ else items length close (t :: rest)
termination_by 9 * ts.length + 8
decreasing_by all_goals omega

def items (length : Nat) (close : TokenKind) (ts : List Token) :
    Except CodeError (Parsed (List Code) ts.length) :=
  match sum length ts with
  | .error e => .error e
  | .ok p =>
    match h : p.rest with
    | [] => .error (.expected close (Tokens.stop length))
    | t :: rest =>
      have hr : rest.length + 1 < ts.length := by
        have := p.below; rwa [h, List.length_cons] at this
      if t.kind = .comma then
        match items length close rest with
        | .error e => .error e
        | .ok q => .ok ((q.map (p.value :: ·)).relax (by omega))
      else if t.kind = close then .ok ⟨[p.value], rest, by omega⟩
      else .error (.expected close t)
termination_by 9 * ts.length + 7
decreasing_by
  · omega
  · have := p.below; rw [h, List.length_cons] at this; omega

end

end Grammar

def ofTokens (ts : Tokens) : Except CodeError Code :=
  match Grammar.sum ts.length ts.tokens with
  | .error e => .error e
  | .ok p =>
    match p.rest with
    | [] => .ok p.value
    | t :: _ => .error (.expected .stop t)

def parse (text : String) : Except CodeError Code :=
  match Tokens.ofText text with
  | .error e => .error e
  | .ok ts => ofTokens ts

end Formulary.Code
