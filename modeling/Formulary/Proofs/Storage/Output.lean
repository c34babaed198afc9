import Formulary.Proofs.Storage.Session

namespace Formulary.Destination

open FileSystem Formulary.Action

variable (ν : Type) {σ loc : Type} [FileSystem σ loc] (d : Destination) (text : String)
    (w : Session σ)

def stored : String := if d.append then text ++ d.separator else text

inductive Calls : List Effect → Prop where
  | said (console : d.file = "") : Calls [.say ⟨.log, text⟩]
  | stored (file : d.file ≠ "") (here : Path.directory d.file = ".")
      (answer : Except StorageFailure Unit) : Calls [.store d.append d.file (d.stored text) answer]
  | storedBelow (file : d.file ≠ "") (below : Path.directory d.file ≠ ".")
      (answer : Except StorageFailure Unit) :
      Calls [.makeDirectory (Path.directory d.file) (.ok ()),
        .store d.append d.file (d.stored text) answer]
  | noDirectory (file : d.file ≠ "") (below : Path.directory d.file ≠ ".")
      (failure : StorageFailure) : Calls [.makeDirectory (Path.directory d.file) (.error failure)]

inductive Prepares (s : σ) : Except StorageFailure Unit → σ → List Effect → Prop where
  | here (h : Path.directory d.file = ".") : Prepares s (.ok ()) s []
  | below {answer : Except StorageFailure Unit} {s' : σ} (h : Path.directory d.file ≠ ".")
      (made : FileSystem.makeDirectory (Path.directory d.file) s = (answer, s')) :
      Prepares s answer s' [.makeDirectory (Path.directory d.file) answer]

theorem put_console (h : d.file = "") :
    (d.put text : Action σ (List (Diagnostic ν))) w =
      ([], ⟨w.files, w.trace ++ [.say ⟨.log, text⟩]⟩) := by
  rw [put, if_pos h]
  rfl

theorem store_apply :
    (d.store text : Action σ _) w =
      request (.store d.append d.file (d.stored text))
        (FileSystem.store d.append d.file (d.stored text)) w := by
  rw [store, stored]
  cases d.append <;> rfl

theorem put_file (h : d.file ≠ "") :
    ∃ answer s es, d.Prepares w.files answer s es ∧
      (d.put text : Action σ (List (Diagnostic ν))) w =
        match answer with
        | .error e => ([.writeFailure d.file e.reason], ⟨s, w.trace ++ es⟩)
        | .ok () =>
          (match (FileSystem.store d.append d.file (d.stored text) s).1 with
            | .ok () => []
            | .error e => [.writeFailure d.file e.reason],
          ⟨(FileSystem.store d.append d.file (d.stored text) s).2,
            w.trace ++ (es ++ [.store d.append d.file (d.stored text)
                (FileSystem.store d.append d.file (d.stored text) s).1])⟩) := by
  rw [put, if_neg h, bind_apply, deliver]
  by_cases hhere : Path.directory d.file = "."
  · refine ⟨.ok (), w.files, [], .here hhere, ?_⟩
    rw [if_pos hhere, store_apply]
    simp only [request, List.nil_append]
    cases (FileSystem.store d.append d.file (d.stored text) w.files).1 <;> rfl
  · obtain ⟨answer, s, hmade⟩ : ∃ answer s, FileSystem.makeDirectory (Path.directory d.file)
        w.files = (answer, s) := ⟨_, _, rfl⟩
    have hmake : (Storage.makeDirectory (Path.directory d.file) : Action σ _) w =
        (answer, ⟨s, w.trace ++ [.makeDirectory (Path.directory d.file) answer]⟩) := by
      change request _ _ w = _
      rw [request, hmade]
    refine ⟨answer, s, _, .below hhere hmade, ?_⟩
    rw [if_neg hhere, bind_apply, hmake]
    cases answer with
    | error e => rfl
    | ok =>
        simp only [store_apply, request, List.append_assoc]
        cases (FileSystem.store d.append d.file (d.stored text) s).1 <;> rfl

/-- One text is put into its destination by the operations of one call, and a failure is told as one
diagnostic about the file. -/
theorem put_trace :
    ∃ es, d.Calls text es ∧
      ((d.put text : Action σ (List (Diagnostic ν))) w).2.trace = w.trace ++ es ∧
      if ∀ e ∈ es, e.failsToWrite = false then ((d.put text : Action σ (List (Diagnostic ν))) w).1 =
        []
      else ∃ reason, ((d.put text : Action σ (List (Diagnostic ν))) w).1 =
        [.writeFailure d.file reason] := by
  by_cases hfile : d.file = ""
  · rw [put_console ν d text w hfile]
    exact ⟨_, .said hfile, rfl, by simp [Effect.failsToWrite]⟩
  · obtain ⟨answer, s, es, hprepares, hput⟩ := put_file ν d text w hfile
    rw [hput]
    cases hprepares with
    | here hhere =>
        refine ⟨_, .stored hfile hhere (FileSystem.store d.append d.file (d.stored text) w.files).1,
          rfl, ?_⟩
        cases (FileSystem.store d.append d.file (d.stored text) w.files).1
          <;> simp [Effect.failsToWrite]
    | below hbelow =>
        cases answer with
        | error e => exact ⟨_, .noDirectory hfile hbelow _, rfl, by simp [Effect.failsToWrite]⟩
        | ok =>
            refine ⟨_, .storedBelow hfile hbelow
              (FileSystem.store d.append d.file (d.stored text) s).1, rfl, ?_⟩
            cases (FileSystem.store d.append d.file (d.stored text) s).1
              <;> simp [Effect.failsToWrite]

variable [Lawful σ loc]

theorem Prepares.node? {d : Destination} {s s' : σ} {answer : Except StorageFailure Unit}
    {es : List Effect} (h : d.Prepares s answer s' es) (l : loc) :
    FileSystem.node? s' l = FileSystem.node? s l ∨ FileSystem.node? s l = none ∧
    FileSystem.node? s' l = some .directory := by
  cases h with
  | here => exact .inl rfl
  | below _ hmade =>
      have h := Lawful.node?_makeDirectory (Path.directory d.file) s l
      rwa [hmade] at h

/-- Whether or not a text gets into its file, nothing else changes but for directories that are made
where nothing was. -/
theorem put_elsewhere (hfile : d.file ≠ "") (l : loc)
    (hl : locate? ((d.put text : Action σ (List (Diagnostic ν))) w).2.files d.file ≠ some l) :
    node? ((d.put text : Action σ (List (Diagnostic ν))) w).2.files l = node? w.files l ∨
      node? w.files l = none ∧
        node? ((d.put text : Action σ (List (Diagnostic ν))) w).2.files l = some .directory := by
  obtain ⟨answer, s, es, hprepares, hput⟩ := put_file ν d text w hfile
  rw [hput] at hl ⊢
  cases answer with
  | error e => exact hprepares.node? l
  | ok =>
      simp only at hl ⊢
      rw [Lawful.locate?_store] at hl
      rw [Lawful.node?_store _ _ _ _ _ hl]
      exact hprepares.node? l

/-- A text that gets into its file is all that the file then holds, or follows what it held before. -/
theorem put_text (hfile : d.file ≠ "")
    (hok : ((d.put text : Action σ (List (Diagnostic ν))) w).1 = []) :
    ∃ l, locate? ((d.put text : Action σ (List (Diagnostic ν))) w).2.files d.file = some l ∧
      textAt ((d.put text : Action σ (List (Diagnostic ν))) w).2.files l =
        some (if d.append then (textAt w.files l).getD "" ++ text ++ d.separator else text) := by
  obtain ⟨answer, s, es, hprepares, hput⟩ := put_file ν d text w hfile
  rw [hput] at hok ⊢
  cases answer with
  | error e => cases hok
  | ok =>
      simp only at hok ⊢
      have hstored : (FileSystem.store d.append d.file (d.stored text) s).1 = .ok () := by
        cases hs : (FileSystem.store d.append d.file (d.stored text) s).1 with
        | ok => rfl
        | error e =>
            rw [hs] at hok
            cases hok
      obtain ⟨l, hlocate, htext⟩ := Lawful.text_store hstored
      have hbefore : textAt s l = textAt w.files l := by
        rcases hprepares.node? l with h | ⟨hnone, hdirectory⟩
        · rw [textAt, textAt, h]
        · rw [textAt, textAt, hnone, hdirectory]
          rfl
      refine ⟨l, by rw [Lawful.locate?_store, hlocate], ?_⟩
      rw [htext, hbefore, stored]
      cases d.append <;> simp [String.append_assoc]

end Formulary.Destination
