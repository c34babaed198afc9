import Formulary.Expr.Display

namespace Formulary

inductive Relation where
  | gt
  | ge
  | lt
  | le
  | eq
  | ne
deriving DecidableEq, Repr

namespace Relation

def all : List Relation := [.gt, .ge, .lt, .le, .eq, .ne]

def symbol : Relation → String
  | .gt => ">"
  | .ge => ">="
  | .lt => "<"
  | .le => "<="
  | .eq => "=="
  | .ne => "!="

def flip : Relation → Relation
  | .gt => .lt
  | .ge => .le
  | .lt => .gt
  | .le => .ge
  | .eq => .eq
  | .ne => .ne

open Number in
def holds {ν : Type} [Number ν] (r : Relation) (x bound : ν) : Bool :=
  match r with
  | .gt => less bound x
  | .ge => lessEq bound x
  | .lt => less x bound
  | .le => lessEq x bound
  | .eq => x == bound
  | .ne => x != bound

end Relation

structure Fact (ν : Type) where
  subject : Expr ν
  relation : Relation
  bound : ν

/-- `unstated` asks for no signs to be checked; `stated` may hold no fact. -/
inductive Assumptions (ν : Type) where
  | unstated
  | stated (facts : List (Fact ν))

variable {ν : Type}

def Assumptions.facts : Assumptions ν → List (Fact ν)
  | .unstated => []
  | .stated fs => fs

variable [Number ν]

def Fact.text (f : Fact ν) : String :=
  f.subject.text ++ " " ++ f.relation.symbol ++ " " ++ Number.text f.bound

def Assumptions.text : Assumptions ν → String
  | .unstated => "True"
  | .stated fs => " && ".intercalate (fs.map Fact.text)

end Formulary
