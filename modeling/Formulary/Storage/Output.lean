import Formulary.Storage.Basic
import Formulary.Storage.Path

namespace Formulary

/-- No file stands for the console. The separator follows appended text. -/
structure Destination where
  file : String
  append : Bool
  separator : String

variable {ν : Type} {m : Type → Type} [Monad m] [Storage m] [Console m]

namespace Destination

def path? (d : Destination) : Option String := if d.file = "" then none else some d.file

def store (d : Destination) (text : String) : m (Except StorageFailure Unit) :=
  if d.append then Storage.append d.file (text ++ d.separator) else Storage.write d.file text

/-- Makes the directory of the file first, unless it is the working directory. -/
def deliver (d : Destination) (text : String) : m (Except StorageFailure Unit) := do
  if Path.directory d.file = "." then d.store text
  else
    match ← Storage.makeDirectory (Path.directory d.file) with
    | .ok () => d.store text
    | .error e => return .error e

def put (d : Destination) (text : String) : m (List (Diagnostic ν)) := do
  if d.file = "" then
    Console.say ⟨.log, text⟩
    return []
  else
    match ← d.deliver text with
    | .ok () => return []
    | .error e => return [.writeFailure d.file e.reason]

end Destination

end Formulary
