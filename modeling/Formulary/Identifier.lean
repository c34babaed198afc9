import Formulary.Diagnostic.Basic
import Formulary.Target

namespace Formulary

namespace Identifier

def isAlphanumeric (c : Char) : Bool := c.isAlphanum

def isIdentifierChar (c : Char) : Bool := isAlphanumeric c || c == '_'

def localPart (cs : List Char) : List Char := (cs.reverse.takeWhile (· != '\x60')).reverse

def glyph? (cs : List Char) : Option (List Char × List Char) :=
  match cs.dropWhile isAlphanumeric with
  | ']' :: rest =>
    if (cs.takeWhile isAlphanumeric).isEmpty then none else some (cs.takeWhile isAlphanumeric, rest)
  | _ => none

theorem length_lt_of_glyph? {cs name rest : List Char} (h : glyph? cs = some (name, rest)) :
    rest.length < cs.length := by
  unfold glyph? at h
  split at h
  · next tail hd =>
    have hl := (List.dropWhile_sublist isAlphanumeric (l := cs)).length_le
    rw [hd, List.length_cons] at hl
    split at h
    · simp at h
    · simp only [Option.some.injEq, Prod.mk.injEq] at h
      obtain ⟨-, rfl⟩ := h
      omega
  · simp at h

def spellGlyphs (cs : List Char) : List Char :=
  match cs with
  | '\\' :: '[' :: rest =>
    match _h : glyph? rest with
    | some (name, tail) => name.map Char.toLower ++ spellGlyphs tail
    | none => '\\' :: '[' :: spellGlyphs rest
  | c :: rest => c :: spellGlyphs rest
  | [] => []
termination_by cs.length
decreasing_by
  · have := length_lt_of_glyph? _h
    simp only [List.length_cons]
    omega
  · simp only [List.length_cons]
    omega
  · simp only [List.length_cons]
    omega

def letters (name : String) : List Char :=
  (spellGlyphs (localPart name.toList)).filter isIdentifierChar

/-- Not empty, and with no digit in front. -/
def mended : List Char → List Char
  | [] => ['_']
  | c :: cs => if c.isDigit then '_' :: c :: cs else c :: cs

def ofName (target : Target) (name : String) : String :=
  let plain := String.ofList (mended (letters name))
  if target.takenNames.contains plain then plain ++ "_" else plain

/-- The names behind each identifier, both in order of first appearance. -/
structure Scope where
  target : Target
  entries : List (String × List String)

namespace Scope

def empty (target : Target) : Scope := ⟨target, []⟩

def insert (s : Scope) (name : String) : Scope :=
  let identifier := ofName s.target name
  if s.entries.any (·.1 == identifier) then
    { s with entries := s.entries.map fun p =>
        if p.1 == identifier ∧ ¬ p.2.contains name then (p.1, p.2 ++ [name]) else p }
  else { s with entries := s.entries ++ [(identifier, [name])] }

def ofNames (target : Target) (names : List String) : Scope := names.foldl insert (empty target)

def collisions {ν : Type} (s : Scope) : List (Diagnostic ν) :=
  (s.entries.filter fun p => 1 < p.2.length).map fun p => .identifierCollision p.1 p.2

end Scope

end Identifier

end Formulary
