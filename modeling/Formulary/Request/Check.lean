namespace Formulary

structure Issue where
  path : List String
  message : String
deriving DecidableEq, Repr

namespace Issue

def location (i : Issue) : String := ".".intercalate i.path

def under (key : String) (i : Issue) : Issue := ⟨key :: i.path, i.message⟩

end Issue

structure Checked (α : Type) where
  value : Option α
  issues : List Issue

namespace Checked

variable {α β γ δ : Type}

def ok (a : α) : Checked α := ⟨some a, []⟩

def soft (a : α) (message : String) : Checked α := ⟨some a, [⟨[], message⟩]⟩

def hard (message : String) : Checked α := ⟨none, [⟨[], message⟩]⟩

def map (f : α → β) (a : Checked α) : Checked β := ⟨a.value.map f, a.issues⟩

def map2 (f : α → β → γ) (a : Checked α) (b : Checked β) : Checked γ :=
  ⟨match a.value, b.value with
    | some a, some b => some (f a b)
    | _, _ => none, a.issues ++ b.issues⟩

def map3 (f : α → β → γ → δ) (a : Checked α) (b : Checked β) (c : Checked γ) : Checked δ :=
  map2 (fun f c => f c) (map2 f a b) c

def under (key : String) (a : Checked α) : Checked α := ⟨a.value, a.issues.map (.under key)⟩

def sequence (index : Nat) : List (Checked α) → Checked (List α)
  | [] => ok []
  | a :: as => map2 (· :: ·) (a.under (toString index)) (sequence (index + 1) as)

def result (a : Checked α) : Except (List Issue) α :=
  match a.value, a.issues with
  | some a, [] => .ok a
  | _, issues => .error issues

end Checked

end Formulary
