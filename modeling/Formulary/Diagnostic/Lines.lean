import Formulary.Diagnostic.Basic

namespace Formulary

inductive Channel where
  | log
  | warn
  | error
deriving DecidableEq, Repr

structure Line where
  channel : Channel
  text : String
deriving DecidableEq, Repr

def Severity.channel : Severity → Channel
  | .error => .error
  | .warning => .warn
  | .info => .log

namespace Diagnostic

variable {ν : Type}

def headline (d : Diagnostic ν) : String := d.kind ++ " (" ++ d.severity.name ++ "): " ++ d.message

variable [Number ν]

def listed : Nat := 5

def signLines (es : List (Expr ν)) : List Line :=
  ⟨.log, "Unknown sign expressions found:"⟩ ::
    (es.take listed).map (fun e => ⟨.log, "  " ++ e.text ++ " has sign: unknown"⟩) ++
    (if listed < es.length
      then [⟨.log, "  ... and " ++ toString (es.length - listed) ++ " more expressions"⟩] else [])

def lines (d : Diagnostic ν) : List Line :=
  ⟨d.severity.channel, d.headline⟩ ::
    match d.finding with
    | .unknownSigns es => signLines es
    | _ => []

def allLines (ds : List (Diagnostic ν)) : List Line := ds.flatMap lines

end Diagnostic

end Formulary
