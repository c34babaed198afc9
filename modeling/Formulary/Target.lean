import Formulary.Table

namespace Formulary

inductive RadicalStyle where
  | call
  | power
deriving DecidableEq, Repr

structure Target where
  name : String
  description : String
  functions : Table
  constants : Table
  reserved : List String
  radical : RadicalStyle
  rootCall : String
  arctangentCall : String
  /-- Heads whose callable takes exactly two arguments; longer calls nest. -/
  binaryHeads : List String
  /-- The callable around list literals, if there is one. -/
  arrayCall : Option String
  infinity : String
  nan : String
deriving DecidableEq, Repr

namespace Target

def keywords : List String :=
  ["False", "None", "True", "and", "as", "assert", "async", "await", "break", "class", "continue",
    "def", "del", "elif", "else", "except", "finally", "for", "from", "global", "if", "import",
    "in", "is", "lambda", "nonlocal", "not", "or", "pass", "raise", "return", "try", "while",
    "with", "yield"]

def numpy : Target where
  name := "numpy"
  description := "NumPy ufuncs under the conventional `np` alias"
  functions :=
    [("Sin", "np.sin"), ("Cos", "np.cos"), ("Tan", "np.tan"), ("ArcSin", "np.arcsin"),
      ("ArcCos", "np.arccos"), ("ArcTan", "np.arctan"), ("Sinh", "np.sinh"), ("Cosh", "np.cosh"),
      ("Tanh", "np.tanh"), ("ArcSinh", "np.arcsinh"), ("ArcCosh", "np.arccosh"),
      ("ArcTanh", "np.arctanh"), ("Log", "np.log"), ("Exp", "np.exp"), ("Sqrt", "np.sqrt"),
      ("Abs", "np.abs"), ("Sign", "np.sign"), ("Floor", "np.floor"), ("Ceiling", "np.ceil"),
      ("Round", "np.round"), ("Min", "np.minimum"), ("Max", "np.maximum")]
  constants := [("Pi", "np.pi"), ("E", "np.e"), ("I", "1j"), ("Infinity", "np.inf")]
  reserved := keywords ++ ["np"]
  radical := .call
  rootCall := "np.sqrt"
  arctangentCall := "np.arctan2"
  binaryHeads := ["Min", "Max"]
  arrayCall := some "np.array"
  infinity := "np.inf"
  nan := "np.nan"

def math : Target where
  name := "math"
  description := "Scalar code against the standard `math` module"
  functions :=
    [("Sin", "math.sin"), ("Cos", "math.cos"), ("Tan", "math.tan"), ("ArcSin", "math.asin"),
      ("ArcCos", "math.acos"), ("ArcTan", "math.atan"), ("Sinh", "math.sinh"),
      ("Cosh", "math.cosh"), ("Tanh", "math.tanh"), ("ArcSinh", "math.asinh"),
      ("ArcCosh", "math.acosh"), ("ArcTanh", "math.atanh"), ("Log", "math.log"),
      ("Exp", "math.exp"), ("Sqrt", "math.sqrt"), ("Abs", "abs"), ("Floor", "math.floor"),
      ("Ceiling", "math.ceil"), ("Round", "round"), ("Min", "min"), ("Max", "max")]
  constants := [("Pi", "math.pi"), ("E", "math.e"), ("I", "1j"), ("Infinity", "math.inf")]
  reserved := keywords ++ ["math"]
  radical := .call
  rootCall := "math.sqrt"
  arctangentCall := "math.atan2"
  binaryHeads := []
  arrayCall := none
  infinity := "math.inf"
  nan := "math.nan"

def presets : List Target := [numpy, math]

def presetNames : String := ", ".intercalate (presets.map name)

def named? (name : String) : Option Target := presets.find? (·.name == name)

def unknownMessage (name : String) : String :=
  "Unknown target '" ++ name ++ "'. Available: " ++ presetNames

def callables (t : Target) : List String :=
  t.functions.values ++ [t.rootCall, t.arctangentCall] ++ t.arrayCall.toList

def takenNames (t : Target) : List String :=
  t.reserved ++ t.callables.filter fun c => !c.toList.contains '.'

end Target

end Formulary
