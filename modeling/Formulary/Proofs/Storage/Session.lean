import Formulary.Storage.Output
import Formulary.Storage.Tree
import Mathlib.Data.List.Basic

namespace Formulary

inductive FileNode where
  | directory
  | file (text : String)
deriving DecidableEq, Repr

def FileNode.text? : FileNode → Option String
  | .directory => none
  | .file text => some text

/-- States of a file system, in which locations hold files and directories, and paths lead to
locations. -/
class FileSystem (σ : Type) (loc : outParam Type) where
  node? : σ → loc → Option FileNode
  locate? : σ → String → Option loc
  read : String → σ → Except StorageFailure String × σ
  makeDirectory : String → σ → Except StorageFailure Unit × σ
  /-- Replaces the text of a file or, where the flag is set, puts more text at its end. -/
  store : Bool → String → String → σ → Except StorageFailure Unit × σ

namespace FileSystem

variable {σ loc : Type} [FileSystem σ loc]

def textAt (s : σ) (l : loc) : Option String := (node? s l).bind FileNode.text?

/-- Reading changes nothing, directories are made only where nothing is, and storing changes at most
what its path leads to. -/
class Lawful (σ : Type) (loc : outParam Type) [FileSystem σ loc] : Prop where
  node?_read : ∀ (path : String) (s : σ), node? (read path s).2 = node? s
  node?_makeDirectory : ∀ (path : String) (s : σ) (l : loc), node? (makeDirectory path s).2 l =
    node? s l ∨ node? s l = none ∧ node? (makeDirectory path s).2 l = some .directory
  locate?_store : ∀ (append : Bool) (path text : String) (s : σ),
    locate? (store append path text s).2 path = locate? s path
  node?_store : ∀ (append : Bool) (path text : String) (s : σ) (l : loc), locate? s path ≠ some l →
    node? (store append path text s).2 l = node? s l
  text_store : ∀ {append : Bool} {path text : String} {s : σ}, (store append path text s).1 = .ok () →
    ∃ l, locate? s path = some l ∧
      textAt (store append path text s).2 l =
        some ((if append then (textAt s l).getD "" else "") ++ text)

end FileSystem

open FileSystem

inductive Effect where
  | read (path : String) (answer : Except StorageFailure String)
  | makeDirectory (path : String) (answer : Except StorageFailure Unit)
  | store (append : Bool) (path text : String) (answer : Except StorageFailure Unit)
  | say (line : Line)

def Effect.failsToWrite : Effect → Bool
  | .makeDirectory _ (.error _) | .store _ _ _ (.error _) => true
  | _ => false

structure Session (σ : Type) where
  files : σ
  trace : List Effect

def Action (σ α : Type) : Type := Session σ → α × Session σ

namespace Action

variable {σ loc α β : Type}

instance : Monad (Action σ) where
  pure a := fun w => (a, w)
  bind x f := fun w => f (x w).1 (x w).2

@[simp] theorem pure_apply (a : α) (w : Session σ) : (pure a : Action σ α) w = (a, w) := rfl

@[simp] theorem bind_apply (x : Action σ α) (f : α → Action σ β) (w : Session σ) :
    (x >>= f) w = f (x w).1 (x w).2 := rfl

def request (e : α → Effect) (f : σ → α × σ) : Action σ α :=
  fun w => ((f w.files).1, ⟨(f w.files).2, w.trace ++ [e (f w.files).1]⟩)

instance [FileSystem σ loc] : Storage (Action σ) where
  read path := request (.read path) (FileSystem.read path)
  makeDirectory path := request (.makeDirectory path) (FileSystem.makeDirectory path)
  write path text := request (.store false path text) (FileSystem.store false path text)
  append path text := request (.store true path text) (FileSystem.store true path text)

instance : Console (Action σ) where
  say l := request (fun _ => .say l) fun s => ((), s)

theorem sayAll_apply (ls : List Line) (w : Session σ) :
    (sayAll ls : Action σ Unit) w = ((), ⟨w.files, w.trace ++ ls.map .say⟩) := by
  induction ls generalizing w with
  | nil => simp [sayAll]
  | cons l ls ih =>
      have hsay : (Console.say l : Action σ Unit) w = ((), ⟨w.files, w.trace ++ [.say l]⟩) := rfl
      rw [sayAll, bind_apply, hsay, ih]
      simp

end Action

end Formulary
