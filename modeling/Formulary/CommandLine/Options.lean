import Formulary.Radical.Combine
import Formulary.Target

namespace Formulary

inductive UsageError where
  | missingValue (option : String)
  | invalidValue (option value : String)
  | unknownOption (argument : String)
  | noRequest
  | unknownTarget (name : String)
deriving DecidableEq, Repr

def UsageError.message : UsageError → String
  | .missingValue o => "Missing value for " ++ o
  | .invalidValue o v => "Invalid " ++ o ++ " '" ++ v ++ "'"
  | .unknownOption a => "Unknown option: " ++ a
  | .noRequest => "No request file specified"
  | .unknownTarget n => "Unknown target '" ++ n ++ "'"

structure CommandOptions where
  input : Option String
  target : Option String
  radical : Option RadicalStyle
  oddNegatives : OddNegatives
  out : String
  append : Bool
  help : Bool
deriving DecidableEq

namespace CommandOptions

def defaults : CommandOptions := ⟨none, none, none, .preserve, "", false, false⟩

def takesValue (argument : String) : Bool :=
  ["--target", "--radical", "--odd-negatives", "--out"].contains argument

def startsWithDash (argument : String) : Bool := ['-'].isPrefixOf argument.toList

def startsWithDashes (argument : String) : Bool := ['-', '-'].isPrefixOf argument.toList

def setValue (o : CommandOptions) (option value : String) : Except UsageError CommandOptions :=
  match option, value with
  | "--target", _ => .ok { o with target := some value }
  | "--radical", "call" => .ok { o with radical := some .call }
  | "--radical", "power" => .ok { o with radical := some .power }
  | "--odd-negatives", "preserve" => .ok { o with oddNegatives := .preserve }
  | "--odd-negatives", "decline" => .ok { o with oddNegatives := .decline }
  | "--out", _ => .ok { o with out := value }
  | _, _ => .error (.invalidValue option value)

def setPlain (o : CommandOptions) (argument : String) : Except UsageError CommandOptions :=
  if argument = "--append" then .ok { o with append := true }
  else if argument = "--help" ∨ argument = "-h" then .ok { o with help := true }
  else if startsWithDash argument = false ∧ o.input = none then .ok { o with input := some argument }
  else .error (.unknownOption argument)

/-- Sets the options from left to right, up to the first argument that is refused. -/
def read (o : CommandOptions) : List String → Except UsageError CommandOptions
  | [] => .ok o
  | [argument] => if takesValue argument then .error (.missingValue argument) else o.setPlain argument
  | argument :: next :: rest =>
    if takesValue argument then
      if startsWithDashes next then .error (.missingValue argument)
      else
        match o.setValue argument next with
        | .ok o => o.read rest
        | .error e => .error e
    else
      match o.setPlain argument with
      | .ok o => o.read (next :: rest)
      | .error e => .error e

def ofArguments (arguments : List String) : Except UsageError CommandOptions :=
  defaults.read arguments

end CommandOptions

end Formulary
