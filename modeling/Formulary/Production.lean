import Formulary.Code.Emit
import Formulary.Radical.Combine
import Formulary.Request.Basic
import Formulary.Storage.Output

namespace Formulary

/-- Without `combine` radicals are left as they are. -/
structure Settings (ν : Type) where
  target : Target
  combine : Option (Assumptions ν)
  radicals : RadicalOptions ν
  file : String
  append : Bool

/-- Code with the diagnostics found on the way; `ok` when none of them is an error. -/
structure Produced (ν : Type) where
  ok : Bool
  code : Option String
  diagnostics : List (Diagnostic ν)

structure Entry (ν : Type) where
  label : String
  produced : Produced ν

variable {ν : Type}

def Produced.withFailures (failures : List (Diagnostic ν)) (p : Produced ν) : Produced ν :=
  if p.code.isNone || failures.isEmpty then p else ⟨false, p.code, p.diagnostics ++ failures⟩

def Produced.ofCode (code : String) (ds : List (Diagnostic ν)) : Produced ν :=
  ⟨!Diagnostic.hasErrors ds, some code, ds⟩

def Entry.withFailures (failures : List (Diagnostic ν)) (e : Entry ν) : Entry ν :=
  ⟨e.label, e.produced.withFailures failures⟩

def Entry.codes (entries : List (Entry ν)) : List String := entries.filterMap (·.produced.code)

namespace Settings

def destination (s : Settings ν) (separator : String) : Destination := ⟨s.file, s.append, separator⟩

def expressionSeparator : String := "\n"

def functionSeparator : String := "\n\n"

variable [Number ν]

def prepare (s : Settings ν) (x : Expr ν) : Expr ν × List (Diagnostic ν) :=
  match s.combine with
  | none => (x, [])
  | some assumptions =>
    let c := Combined.ofExpr s.radicals assumptions x
    (c.result, c.diagnostics)

def expression (s : Settings ν) (x : Expr ν) : Produced ν :=
  let e := s.target.emit (s.prepare x).1
  .ofCode e.code ((s.prepare x).2 ++ e.diagnostics)

def function (s : Settings ν) (store : Store ν) (symbol : String) : Produced ν :=
  match Signature.ofRules s.target symbol (store.rules symbol) with
  | .error d => ⟨false, none, [d]⟩
  | .ok signature =>
    let e := s.target.emitDefinition { signature with body := (s.prepare signature.body).1 }
    .ofCode e.code ((s.prepare signature.body).2 ++ e.diagnostics)

def unit (s : Settings ν) (store : Store ν) : WorkUnit ν → Produced ν
  | .expression _ x => s.expression x
  | .function symbol => s.function store symbol

def entry (s : Settings ν) (store : Store ν) (u : WorkUnit ν) : Entry ν := ⟨u.label, s.unit store u⟩

variable {m : Type → Type} [Monad m] [Storage m] [Console m]

omit [Number ν] in
def deliver (s : Settings ν) (separator : String) (p : Produced ν) : m (Produced ν) :=
  match p.code with
  | none => return p
  | some code => return p.withFailures (← (s.destination separator).put code)

def deliverExpression (s : Settings ν) (x : Expr ν) : m (Produced ν) :=
  s.deliver expressionSeparator (s.expression x)

def deliverFunction (s : Settings ν) (store : Store ν) (symbol : String) : m (Produced ν) :=
  s.deliver functionSeparator (s.function store symbol)

/-- Every unit by itself, and all codes in one piece with blank lines between them. -/
def deliverBatch (s : Settings ν) (store : Store ν) (units : List (WorkUnit ν)) :
    m (List (Entry ν)) :=
  let entries := units.map (s.entry store)
  match Entry.codes entries with
  | [] => return entries
  | codes => do
    let failures ← (s.destination functionSeparator).put (functionSeparator.intercalate codes)
    return entries.map (.withFailures failures)

end Settings

end Formulary
