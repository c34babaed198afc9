import Formulary.CommandLine.Run
import Formulary.Number.Double

namespace Formulary.Main

def causeOf : IO.Error → StorageCause
  | .noFileOrDirectory .. => .noEntry
  | .inappropriateType .. => .isDirectory
  | .alreadyExists .. => .alreadyExists
  | e => .other (toString e)

def attempt {α : Type} (operation path : String) (action : IO α) : IO (Except StorageFailure α) := do
  match ← action.toBaseIO with
  | .ok a => return .ok a
  | .error e => return .error ⟨causeOf e, operation, some path⟩

def appendTo (path text : String) : IO Unit := do
  let h ← IO.FS.Handle.mk path .append
  h.putStr text

instance : Storage IO where
  read path := attempt "open" path (IO.FS.readFile path)
  makeDirectory path := attempt "mkdir" path (IO.FS.createDirAll path)
  write path text := attempt "open" path (IO.FS.writeFile path text)
  append path text := attempt "open" path (appendTo path text)

instance : Console IO where
  say l := match l.channel with
    | .log => IO.println l.text
    | .warn | .error => IO.eprintln l.text

end Formulary.Main

def main (arguments : List String) : IO UInt32 := do
  return UInt32.ofNat (← Formulary.Command.run Float arguments)
