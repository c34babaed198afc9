import Formulary.Proofs.Storage.Session

namespace Formulary.FileTree

open FileSystem

def node? (t : FileTree) (l : List String) : Option FileNode :=
  if t.isDirectory l then some .directory else (t.file? l).map .file

def locate? (t : FileTree) (path : String) : Option (List String) :=
  (t.place path).toOption.map Place.path

def store (append : Bool) (path text : String) (t : FileTree) :
    Except StorageFailure Unit × FileTree :=
  match if append then t.append path text else t.write path text with
  | .ok t => (.ok (), t)
  | .error e => (.error e, t)

instance : FileSystem FileTree (List String) where
  node? := node?
  locate? := locate?
  read path t := (t.read path, t)
  makeDirectory path t := ((t.makeDirectory path).2, (t.makeDirectory path).1)
  store := store

variable {t : FileTree} {p : List String} {text : String}

@[simp] theorem isDirectory_put (l : List String) :
    (t.put p text).isDirectory l = t.isDirectory l := rfl

theorem file?_put_self : (t.put p text).file? p = some text := by
  simp [file?, put]

theorem file?_put_of_ne {l : List String} (h : l ≠ p) : (t.put p text).file? l = t.file? l := by
  rw [file?, file?, put, List.find?_cons_of_neg (by simpa using h.symm), List.find?_filter]
  congr 2
  funext q
  by_cases hq : q.1 = l <;> simp [hq, h]

theorem walk_put (here cs : List String) {l : List String} (h : t.walk here cs = .ok l) :
    (t.put p text).walk here cs = .ok l := by
  induction cs generalizing here with
  | nil => exact h
  | cons c cs ih =>
      rw [walk] at h ⊢
      simp only [isDirectory_put]
      by_cases hdirectory : t.isDirectory (here ++ [c])
      · simp only [hdirectory, if_true] at h ⊢
        split_ifs at h ⊢ with hskip hup
        · exact ih _ h
        · exact ih _ h
        · exact ih _ h
      · simp only [hdirectory, Bool.false_eq_true, if_false] at h ⊢
        split_ifs at h ⊢ with hskip hup
        · exact ih _ h
        · exact ih _ h

theorem place_put {path : String} {l : Place} (h : t.place path = .ok l) :
    (t.put p text).place path = .ok l := by
  have hmap (cs : List String) (f : List String → Place) (h : (t.walk [] cs).map f = .ok l) :
      ((t.put p text).walk [] cs).map f = .ok l := by
    cases hwalk : t.walk [] cs with
    | error e =>
        rw [hwalk] at h
        cases h
    | ok here =>
        rw [hwalk] at h
        rw [walk_put [] cs hwalk]
        exact h
  rw [place] at h ⊢
  simp only at h ⊢
  split at h
  · exact h
  · split at h
    · next hdots =>
      rw [if_pos hdots]
      exact hmap _ _ h
    · next hdots =>
      rw [if_neg hdots]
      exact hmap _ _ h

theorem store_cases (append : Bool) (path text : String) (t : FileTree) :
    (∃ e, store append path text t = (.error e, t)) ∨
      ∃ l, t.place path = .ok l ∧ t.isDirectory l.path = false ∧
        store append path text t =
          (.ok (), t.put l.path ((if append then (t.file? l.path).getD "" else "") ++ text)) := by
  have hmodify (f : Option String → String) : (∃ e, t.modify path f = .error e) ∨
      ∃ l, t.place path = .ok l ∧ t.isDirectory l.path = false ∧
          t.modify path f = .ok (t.put l.path (f (t.file? l.path))) := by
    rw [modify]
    cases t.place path with
    | error cause => exact .inl ⟨_, rfl⟩
    | ok l =>
        simp only
        split
        · exact .inl ⟨_, rfl⟩
        · next h =>
          rw [Bool.or_eq_true, not_or, Bool.not_eq_true, Bool.not_eq_true] at h
          exact .inr ⟨l, rfl, h.2, rfl⟩
  have hstore : store append path text t =
      match t.modify path fun old => (if append then old.getD "" else "") ++ text with
      | .ok t => (.ok (), t)
      | .error e => (.error e, t) := by
    cases append <;> simp [store, FileTree.append, write]
  rcases hmodify fun old => (if append then old.getD "" else "") ++ text
    with ⟨e, h⟩ | ⟨l, hplace, hfile, h⟩ <;> rw [hstore, h]
  · exact .inl ⟨e, rfl⟩
  · exact .inr ⟨l, hplace, hfile, rfl⟩

theorem node?_put_of_ne {l : List String} (h : l ≠ p) : (t.put p text).node? l = t.node? l := by
  rw [node?, node?, isDirectory_put, file?_put_of_ne h]

theorem node?_makeAlong (t : FileTree) (here cs l : List String) :
    (t.makeAlong here cs).1.node? l = t.node? l ∨ t.node? l = none ∧
    (t.makeAlong here cs).1.node? l = some .directory := by
  induction cs generalizing t here with
  | nil => exact .inl rfl
  | cons c cs ih =>
      rw [makeAlong]
      split_ifs with hskip hup hdirectory hfile
      · exact ih t here
      · exact ih t here.dropLast
      · exact ih t (here ++ [c])
      · exact .inl rfl
      · exact .inl rfl
      · have hfree : t.node? (here ++ [c]) = none := by
          rw [node?, if_neg hdirectory, Option.map_eq_none_iff]
          exact Option.not_isSome_iff_eq_none.mp hfile
        have hadd (t' : FileTree)
            (ht' : t' = { t with directories := (here ++ [c]) :: t.directories })
            (l : List String) :
            l = here ++ [c] ∧ t'.node? l = some .directory ∨ t'.node? l = t.node? l := by
          by_cases hl : l = here ++ [c]
          · subst ht' hl
            exact .inl ⟨rfl, by simp [node?, isDirectory]⟩
          · refine .inr ?_
            subst ht'
            simp [node?, isDirectory, file?, hl]
        rcases ih { t with directories := (here ++ [c]) :: t.directories } (here ++ [c]) with hsame
          | ⟨hnone, hnew⟩
        · rcases hadd _ rfl l with ⟨rfl, hdir⟩ | hother
          · exact .inr ⟨hfree, hsame.trans hdir⟩
          · exact .inl (hsame.trans hother)
        · rcases hadd _ rfl l with ⟨rfl, hdir⟩ | hother
          · exact .inr ⟨hfree, hnew⟩
          · exact .inr ⟨hother ▸ hnone, hnew⟩

instance : Lawful FileTree (List String) where
  node?_read _ _ := rfl
  node?_makeDirectory path t l := by
    have h := node?_makeAlong t [] (Path.components path) l
    change (t.makeDirectory path).1.node? l = t.node? l ∨ t.node? l = none ∧
      (t.makeDirectory path).1.node? l = some .directory
    rw [makeDirectory]
    split
    · next heq => rwa [heq] at h
    · next heq => rwa [heq] at h
  locate?_store append path text t := by
    change (store append path text t).2.locate? path = t.locate? path
    rcases store_cases append path text t with ⟨e, h⟩ | ⟨l, hplace, -, h⟩ <;> rw [h]
    rw [locate?, locate?, place_put hplace, hplace]
  node?_store append path text t l hl := by
    change (store append path text t).2.node? l = t.node? l
    rcases store_cases append path text t with ⟨e, h⟩ | ⟨l', hplace, -, h⟩ <;> rw [h]
    apply node?_put_of_ne
    rintro rfl
    apply hl
    change t.locate? path = _
    rw [locate?, hplace]
    rfl
  text_store {append path text t} hok := by
    change (store append path text t).1 = .ok () at hok
    rcases store_cases append path text t with ⟨e, h⟩ | ⟨l, hplace, hfile, h⟩
    · rw [h] at hok
      cases hok
    · refine ⟨l.path, ?_, ?_⟩
      · change t.locate? path = _
        rw [locate?, hplace]
        rfl
      · have hbefore : textAt t l.path = t.file? l.path := by
          change (t.node? l.path).bind FileNode.text? = _
          rw [node?, hfile, if_neg Bool.false_ne_true]
          cases t.file? l.path <;> rfl
        rw [hbefore]
        change ((store append path text t).2.node? l.path).bind FileNode.text? = _
        rw [h, node?, isDirectory_put, hfile, if_neg Bool.false_ne_true, file?_put_self]
        rfl

end Formulary.FileTree
