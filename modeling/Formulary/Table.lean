namespace Formulary

/-- A plain object: members that every object inherits are found beside its own entries. -/
abbrev Table := List (String × String)

namespace Table

/-- The text of a function that is built in. -/
def native (name : String) : String := "function " ++ name ++ "() \x7b [native code] \x7d"

def inheritedMethods : List String :=
  ["__defineGetter__", "__defineSetter__", "hasOwnProperty", "__lookupGetter__", "__lookupSetter__",
    "isPrototypeOf", "propertyIsEnumerable", "toString", "valueOf", "toLocaleString"]

-- A member stands here by its text. Code is put together from the texts; only where a member would
-- be the whole code does the program give the member itself.
def inherited? (key : String) : Option String :=
  if inheritedMethods.contains key then some (native key)
  else if key = "constructor" then some (native "Object")
  else if key = "__proto__" then some "[object Object]"
  else none

def isInherited (key : String) : Bool := (inherited? key).isSome

def own? (t : Table) (key : String) : Option String := (t.find? (·.1 == key)).map (·.2)

def get? (t : Table) (key : String) : Option String := (t.own? key).or (inherited? key)

def contains (t : Table) (key : String) : Bool := (t.get? key).isSome

def values (t : Table) : List String := t.map (·.2)

def keyOf? (t : Table) (value : String) : Option String := (t.reverse.find? (·.2 == value)).map (·.1)

end Table

end Formulary
