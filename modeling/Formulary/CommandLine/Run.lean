import Formulary.CommandLine.Options
import Formulary.Json.Read
import Formulary.Production

namespace Formulary

namespace Command

def usage : String := "
pyform - translate symbolic expressions into Python source

Usage:
  pyform [options] <request.json>

Options:
  --target <name>           Target preset (" ++ Target.presetNames ++ ")
  --radical <call|power>    Emit square roots as calls or as **(1/2)
  --odd-negatives <mode>    preserve (default) or decline
  --out <file>              Write to a file instead of printing
  --append                  Append to the output file
  --help, -h                Show this help message
"

inductive Stop where
  | usage (e : UsageError)
  | unreadable (input : String) (failure : StorageFailure)
  | notJson
  | issues (input : String) (issues : List Issue)
  | clause (e : Assumptions.ClauseError)

namespace Stop

def issueLine (input : String) (i : Issue) : Line :=
  ⟨.error, input ++ ": " ++ (if i.location = "" then "(root)" else i.location) ++ ": " ++ i.message⟩

def lines : Stop → List Line
  | .usage e => [⟨.error, "Error: " ++ e.message⟩, ⟨.log, Command.usage⟩]
  | .unreadable input f =>
    [⟨.error, "Error: Could not read request file " ++ input ++ ": " ++ f.reason⟩]
  | .notJson => [⟨.error, "Error: <invalid JSON>"⟩]
  | .issues input is => is.map (issueLine input)
  | .clause e => [⟨.error, "Error: " ++ e.message⟩]

def exitCode : Stop → Nat
  | .usage _ => 2
  | _ => 1

end Stop

structure Plan (ν : Type) where
  settings : Settings ν
  store : Store ν
  units : List (WorkUnit ν)

def defaultTarget : String := "numpy"

def targetOf (o : CommandOptions) (requested : Option String) : Except UsageError Target :=
  let name := (o.target <|> requested).getD defaultTarget
  match Target.named? name with
  | none => .error (.unknownTarget name)
  | some t =>
    match o.radical with
    | none => .ok t
    | some style => .ok { t with radical := style }

variable {ν : Type} [Number ν]

def planOf (o : CommandOptions) (input text : String) : Except Stop (Plan ν) :=
  match (Json.ofText? text : Option (Json ν)) with
  | none => .error .notJson
  | some j =>
    match Request.ofJson j with
    | .error is => .error (.issues input is)
    | .ok request =>
      match request.toWork with
      | .error e => .error (.clause e)
      | .ok p =>
        match targetOf o p.target with
        | .error e => .error (.usage e)
        | .ok t =>
          .ok ⟨⟨t, p.combine, ⟨Sign.fromFacts, o.oddNegatives⟩, o.out, o.append⟩, p.store, p.units⟩

def entryLines (e : Entry ν) : List Line :=
  if e.produced.diagnostics.isEmpty then []
  else ⟨.log, "── " ++ e.label⟩ :: Diagnostic.allLines e.produced.diagnostics

def exitCodeOf (entries : List (Entry ν)) : Nat := if entries.all (·.produced.ok) then 0 else 1

variable {m : Type → Type} [Monad m] [Storage m] [Console m]

def stop (s : Stop) : m Nat := do
  sayAll s.lines
  return s.exitCode

def execute (p : Plan ν) : m Nat := do
  let entries ← p.settings.deliverBatch p.store p.units
  sayAll (entries.flatMap entryLines)
  return exitCodeOf entries

variable (ν) in
def run (arguments : List String) : m Nat := do
  match CommandOptions.ofArguments arguments with
  | .error e => stop (.usage e)
  | .ok o =>
    if o.help then
      Console.say ⟨.log, usage⟩
      return 0
    else
      match o.input with
      | none => stop (.usage .noRequest)
      | some input =>
        match ← Storage.read input with
        | .error f => stop (.unreadable input f)
        | .ok text =>
          match (planOf o input text : Except Stop (Plan ν)) with
          | .error s => stop s
          | .ok p => execute p

end Command

end Formulary
