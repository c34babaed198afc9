import Formulary.Diagnostic.Lines

namespace Formulary

inductive StorageCause where
  | noEntry
  | isDirectory
  | notDirectory
  | alreadyExists
  | other (reason : String)
deriving DecidableEq, Repr

def StorageCause.text : StorageCause → String
  | .noEntry => "ENOENT: no such file or directory"
  | .isDirectory => "EISDIR: illegal operation on a directory"
  | .notDirectory => "ENOTDIR: not a directory"
  | .alreadyExists => "EEXIST: file already exists"
  | .other reason => reason

structure StorageFailure where
  cause : StorageCause
  operation : String
  path : Option String
deriving DecidableEq, Repr

def StorageFailure.reason (f : StorageFailure) : String :=
  f.cause.text ++ ", " ++ f.operation ++ (match f.path with
    | some p => " '" ++ p ++ "'"
    | none => "")

class Storage (m : Type → Type) where
  read : String → m (Except StorageFailure String)
  makeDirectory : String → m (Except StorageFailure Unit)
  write : String → String → m (Except StorageFailure Unit)
  append : String → String → m (Except StorageFailure Unit)

class Console (m : Type → Type) where
  say : Line → m Unit

def sayAll {m : Type → Type} [Monad m] [Console m] : List Line → m Unit
  | [] => pure ()
  | l :: ls => do
    Console.say l
    sayAll ls

end Formulary
