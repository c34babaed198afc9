import Formulary.Decimal.Literal
import Formulary.Json.Basic
import Formulary.Number.Basic

namespace Formulary.Json

/-- Something read from the front of a text, and the shorter text that is left. -/
structure Read (α : Type) (cs : List Char) where
  value : α
  rest : List Char
  shorter : rest.length < cs.length

namespace Read

variable {α β : Type} {cs ds : List Char}

def map (f : α → β) (r : Read α cs) : Read β cs := ⟨f r.value, r.rest, r.shorter⟩

def after (h : ds.length ≤ cs.length) (r : Read α ds) : Read α cs :=
  ⟨r.value, r.rest, Nat.lt_of_lt_of_le r.shorter h⟩

def within (r : Read α cs) (s : Read β r.rest) : Read β cs :=
  ⟨s.value, s.rest, Nat.lt_trans s.shorter r.shorter⟩

end Read

def isSpace (c : Char) : Bool := c == ' ' || c == '\n' || c == '\r' || c == '\t'

def skip (cs : List Char) : List Char := cs.dropWhile isSpace

theorem length_skip_le (cs : List Char) : (skip cs).length ≤ cs.length :=
  (List.dropWhile_sublist isSpace).length_le

def next? (cs : List Char) : Option (Read Char cs) :=
  match h : skip cs with
  | [] => none
  | c :: rest => some ⟨c, rest, by have := length_skip_le cs; rw [h, List.length_cons] at this; omega⟩

def mark? (c : Char) (cs : List Char) : Option (Read Unit cs) :=
  match next? cs with
  | some r => if r.value = c then some (r.map fun _ => ()) else none
  | none => none

def hexDigit? (c : Char) : Option Nat :=
  if c.isDigit then some (c.toNat - 48)
  else if 'a' ≤ c ∧ c ≤ 'f' then some (c.toNat - 87)
  else if 'A' ≤ c ∧ c ≤ 'F' then some (c.toNat - 55)
  else none

def hex4? (a b c d : Char) : Option Nat :=
  match hexDigit? a, hexDigit? b, hexDigit? c, hexDigit? d with
  | some a, some b, some c, some d => some (((a * 16 + b) * 16 + c) * 16 + d)
  | _, _, _, _ => none

def isHighHalf (n : Nat) : Bool := 0xD800 ≤ n && n < 0xDC00

def isLowHalf (n : Nat) : Bool := 0xDC00 ≤ n && n < 0xE000

/-- The characters that code units stand for: two halves of a pair are one character, and a lone
half is the replacement character. -/
def ofUnits : List Nat → List Char
  | [] => []
  | [n] => [if isHighHalf n || isLowHalf n then '\ufffd' else Char.ofNat n]
  | n :: m :: rest =>
    if isHighHalf n && isLowHalf m then
      Char.ofNat (0x10000 + (n - 0xD800) * 0x400 + (m - 0xDC00)) :: ofUnits rest
    else (if isHighHalf n || isLowHalf n then '\ufffd' else Char.ofNat n) :: ofUnits (m :: rest)

def simpleEscape? : Char → Option Nat
  | '"' => some 34
  | '\\' => some 92
  | '/' => some 47
  | 'b' => some 8
  | 'f' => some 12
  | 'n' => some 10
  | 'r' => some 13
  | 't' => some 9
  | _ => none

def units : (cs : List Char) → Option (Read (List Nat) cs)
  | [] => none
  | '"' :: rest => some ⟨[], rest, Nat.lt_succ_self _⟩
  | '\\' :: 'u' :: a :: b :: c :: d :: rest =>
    match hex4? a b c d, units rest with
    | some n, some r => some ((r.map (n :: ·)).after (by simp only [List.length_cons]; omega))
    | _, _ => none
  | '\\' :: c :: rest =>
    match simpleEscape? c, units rest with
    | some n, some r => some ((r.map (n :: ·)).after (by simp only [List.length_cons]; omega))
    | _, _ => none
  | c :: rest =>
    if c == '\\' || c.toNat < 32 then none
    else
      match units rest with
      | some r => some ((r.map (c.toNat :: ·)).after (by simp only [List.length_cons]; omega))
      | none => none

def stringBody (cs : List Char) : Option (Read String cs) :=
  (units cs).map (·.map (fun us => String.ofList (ofUnits us)))

/-- The numerals of JSON: no leading zero before another digit, and digits on both sides of a
point. -/
def isStrict (l : Decimal.Literal) : Bool :=
  (match l.whole with
    | [] => false
    | ['0'] => true
    | c :: _ => c != '0') && l.fraction != some []

def key? (cs : List Char) : Option (Read String cs) :=
  match mark? '"' cs with
  | none => none
  | some quote =>
    match stringBody quote.rest with
    | none => none
    | some key => (mark? ':' key.rest).map fun colon =>
      quote.within (key.within (colon.map fun _ => key.value))

variable {ν : Type} [Number ν]

def unsigned (cs : List Char) : Option (Read ν cs) :=
  match h : Decimal.Literal.scan cs with
  | some (l, rest) =>
    if isStrict l then some ⟨Number.ofDecimal l.value, rest, Decimal.Literal.scan_length h⟩ else none
  | none => none

def scalar : (cs : List Char) → Option (Read (Json ν) cs)
  | 'n' :: 'u' :: 'l' :: 'l' :: rest => some ⟨.null, rest, by simp only [List.length_cons]; omega⟩
  | 't' :: 'r' :: 'u' :: 'e' :: rest =>
    some ⟨.bool true, rest, by simp only [List.length_cons]; omega⟩
  | 'f' :: 'a' :: 'l' :: 's' :: 'e' :: rest =>
    some ⟨.bool false, rest, by simp only [List.length_cons]; omega⟩
  | '-' :: rest => (unsigned rest).map fun r => (r.map fun x => .number (-x)).after (Nat.le_succ _)
  | cs => (unsigned cs).map (·.map .number)

mutual

def value (cs : List Char) : Option (Read (Json ν) cs) :=
  match next? cs with
  | none => none
  | some first =>
    if first.value = '"' then (stringBody first.rest).map fun s => first.within (s.map .string)
    else if first.value = '[' then
      match mark? ']' first.rest with
      | some close => some (first.within (close.map fun _ => .array []))
      | none => (items first.rest).map fun r => first.within (r.map .array)
    else if first.value = '\x7b' then
      match mark? '\x7d' first.rest with
      | some close => some (first.within (close.map fun _ => .object []))
      | none => (members first.rest).map fun r => first.within (r.map .object)
    else (scalar (skip cs)).map (·.after (length_skip_le cs))
termination_by 2 * cs.length
decreasing_by all_goals have := first.shorter; omega

def items (cs : List Char) : Option (Read (List (Json ν)) cs) :=
  match value cs with
  | none => none
  | some first =>
    match mark? ']' first.rest with
    | some close => some (first.within (close.map fun _ => [first.value]))
    | none =>
      match mark? ',' first.rest with
      | none => none
      | some comma => (items comma.rest).map fun r =>
        first.within (comma.within (r.map (first.value :: ·)))
termination_by 2 * cs.length + 1
decreasing_by
  · omega
  · have := first.shorter; have := comma.shorter; omega

def members (cs : List Char) : Option (Read (List (String × Json ν)) cs) :=
  match key? cs with
  | none => none
  | some key =>
    match value key.rest with
    | none => none
    | some first =>
      match mark? '\x7d' first.rest with
      | some close => some (key.within (first.within (close.map fun _ => [(key.value, first.value)])))
      | none =>
        match mark? ',' first.rest with
        | none => none
        | some comma =>
          (members comma.rest).map fun r =>
            key.within (first.within (comma.within (r.map ((key.value, first.value) :: ·))))
termination_by 2 * cs.length + 1
decreasing_by
  · have := key.shorter; omega
  · have := key.shorter; have := first.shorter; have := comma.shorter; omega

end

def ofText? (text : String) : Option (Json ν) :=
  match value text.toList with
  | some r => if (skip r.rest).isEmpty then some r.value else none
  | none => none

end Formulary.Json
