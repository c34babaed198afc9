import Formulary.Storage.Basic
import Formulary.Storage.Path

namespace Formulary

/-- Directories and files under the names that lead to them from the root, which is also the working
directory. Every directory on the way to a file is listed. -/
structure FileTree where
  directories : List (List String)
  files : List (List String × String)
deriving DecidableEq, Repr

namespace FileTree

def empty : FileTree := ⟨[], []⟩

def isDirectory (t : FileTree) (p : List String) : Bool := p.isEmpty || t.directories.contains p

def file? (t : FileTree) (p : List String) : Option String := (t.files.find? (·.1 == p)).map (·.2)

def put (t : FileTree) (p : List String) (text : String) : FileTree :=
  { t with files := (p, text) :: t.files.filter (·.1 != p) }

def walk (t : FileTree) (here : List String) : List String → Except StorageCause (List String)
  | [] => .ok here
  | c :: cs =>
    if c = "" ∨ c = "." then walk t here cs
    else if c = ".." then walk t here.dropLast cs
    else if t.isDirectory (here ++ [c]) then walk t (here ++ [c]) cs
    else if (t.file? (here ++ [c])).isSome then .error .notDirectory
    else .error .noEntry

/-- Where a path leads: its parent has to be a directory, while nothing is said of the last name. -/
structure Place where
  path : List String
  trailingSlash : Bool

def trimEnd (cs : List String) : List String × Bool :=
  let kept := (cs.reverse.dropWhile (· == "")).reverse
  (kept, kept.length < cs.length)

def place (t : FileTree) (path : String) : Except StorageCause Place :=
  let (cs, trailing) := trimEnd (Path.components path)
  match cs.getLast? with
  | none => if path = "" then .error .noEntry else .ok ⟨[], false⟩
  | some last =>
    if last = "." ∨ last = ".." then (t.walk [] cs).map fun p => ⟨p, false⟩
    else (t.walk [] cs.dropLast).map fun p => ⟨p ++ [last], trailing⟩

def read (t : FileTree) (path : String) : Except StorageFailure String :=
  match t.place path with
  | .error cause => .error ⟨cause, "open", some path⟩
  | .ok p =>
    if t.isDirectory p.path then .error ⟨.isDirectory, "read", none⟩
    else
      match t.file? p.path with
      | none => .error ⟨.noEntry, "open", some path⟩
      | some text => if p.trailingSlash then .error ⟨.notDirectory, "open", some path⟩ else .ok text

def text? (t : FileTree) (path : String) : Option String := (t.read path).toOption

/-- Replaces the text of a file by a function of it, which gets nothing where there is none. -/
def modify (t : FileTree) (path : String) (f : Option String → String) :
    Except StorageFailure FileTree :=
  match t.place path with
  | .error cause => .error ⟨cause, "open", some path⟩
  | .ok p =>
    if p.trailingSlash || t.isDirectory p.path then .error ⟨.isDirectory, "open", some path⟩
    else .ok (t.put p.path (f (t.file? p.path)))

def write (t : FileTree) (path text : String) : Except StorageFailure FileTree :=
  t.modify path fun _ => text

def append (t : FileTree) (path text : String) : Except StorageFailure FileTree :=
  t.modify path fun old => old.getD "" ++ text

/-- Makes the directories that components lead through, up to the first that cannot be one. -/
def makeAlong (t : FileTree) (here : List String) : List String → FileTree × Except StorageCause Unit
  | [] => (t, .ok ())
  | c :: cs =>
    if c = "" ∨ c = "." then makeAlong t here cs
    else if c = ".." then makeAlong t here.dropLast cs
    else if t.isDirectory (here ++ [c]) then makeAlong t (here ++ [c]) cs
    else if (t.file? (here ++ [c])).isSome
      then (t, .error (if cs.isEmpty then .alreadyExists else .notDirectory))
    else makeAlong { t with directories := (here ++ [c]) :: t.directories } (here ++ [c]) cs

def makeDirectory (t : FileTree) (path : String) : FileTree × Except StorageFailure Unit :=
  match t.makeAlong [] (Path.components path) with
  | (t, .ok ()) => (t, .ok ())
  | (t, .error cause) => (t, .error ⟨cause, "mkdir", some path⟩)

end FileTree

structure World where
  tree : FileTree
  lines : List Line

namespace World

def empty : World := ⟨.empty, []⟩

def change (f : FileTree → Except StorageFailure FileTree) :
    StateM World (Except StorageFailure Unit) := fun w =>
  match f w.tree with
  | .ok t => (.ok (), { w with tree := t })
  | .error e => (.error e, w)

instance : Storage (StateM World) where
  read path := fun w => (w.tree.read path, w)
  makeDirectory path := fun w =>
    let (t, r) := w.tree.makeDirectory path
    (r, { w with tree := t })
  write path text := change (·.write path text)
  append path text := change (·.append path text)

instance : Console (StateM World) where
  say l := fun w => ((), { w with lines := w.lines ++ [l] })

end World

end Formulary
