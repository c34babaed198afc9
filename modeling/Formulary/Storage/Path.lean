namespace Formulary.Path

def parts : List Char → List (List Char)
  | [] => [[]]
  | c :: cs =>
    if c == '/' then [] :: parts cs
    else
      match parts cs with
      | [] => [[c]]
      | p :: ps => (c :: p) :: ps

def components (path : String) : List String := (parts path.toList).map String.ofList

/-- The directory of the last name, slashes at the end apart; a dot where there is none. -/
def directory (path : String) : String :=
  let cs := path.toList
  let above := (cs.reverse.dropWhile (· == '/')).dropWhile (· != '/')
  match above with
  | [] => if cs.head? = some '/' then "/" else "."
  | [_] => "/"
  | ['/', '/'] => "//"
  | _ :: rest => String.ofList rest.reverse

end Formulary.Path
