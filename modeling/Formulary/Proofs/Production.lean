import Formulary.Number.Double
import Formulary.Production
import Formulary.Proofs.Storage.Output
import Formulary.Proofs.Storage.Tree

namespace Formulary

namespace Settings

open FileSystem Formulary.Action Destination

variable {ν σ loc : Type} [Number ν] [FileSystem σ loc] (s : Settings ν) (store : Store ν)

def deliverUnit {m : Type → Type} [Monad m] [Storage m] [Console m] : WorkUnit ν → m (Produced ν)
  | .expression _ x => s.deliverExpression x
  | .function symbol => s.deliverFunction store symbol

def unitSeparator : WorkUnit ν → String
  | .expression _ _ => expressionSeparator
  | .function _ => functionSeparator

def codes (units : List (WorkUnit ν)) : List String := units.filterMap fun u => (s.unit store u).code

def sink : Destination := s.destination functionSeparator

def Delivers (u : WorkUnit ν) (w : Session σ) : Prop :=
  ∀ code ∈ (s.unit store u).code,
    (((s.destination (unitSeparator u)).put code : Action σ (List (Diagnostic ν))) w).1 = []

theorem codes_entry (units : List (WorkUnit ν)) :
    Entry.codes (units.map (s.entry store)) = s.codes store units := by
  rw [Entry.codes, codes, List.filterMap_map]
  rfl

omit [Number ν] in
theorem deliver_apply (separator : String) (p : Produced ν) (w : Session σ) :
    (s.deliver separator p : Action σ (Produced ν)) w =
      match p.code with
      | none => (p, w)
      | some code =>
        (p.withFailures (((s.destination separator).put code : Action σ (List (Diagnostic ν))) w).1,
          (((s.destination separator).put code : Action σ (List (Diagnostic ν))) w).2) := by
  rw [deliver]
  cases p.code <;> rfl

/-- By itself a unit gives what is produced for it, unless delivering that fails. -/
theorem deliverUnit_of_delivers {u : WorkUnit ν} {w : Session σ} (h : s.Delivers store u w) :
    ((s.deliverUnit store u : Action σ (Produced ν)) w).1 = s.unit store u := by
  have halone : (s.deliverUnit store u : Action σ (Produced ν)) w =
      (s.deliver (unitSeparator u) (s.unit store u) : Action σ (Produced ν)) w := by
    cases u <;> rfl
  rw [halone, deliver_apply]
  cases hcode : (s.unit store u).code with
  | none => rfl
  | some code =>
      simp only [h code hcode]
      simp [Produced.withFailures]

/-- A batch makes one delivery where there is any code, and none where there is none. -/
theorem deliverBatch_apply (units : List (WorkUnit ν)) (w : Session σ) :
    (s.deliverBatch store units : Action σ (List (Entry ν))) w =
      if s.codes store units = [] then (units.map (s.entry store), w)
      else
        ((units.map (s.entry store)).map
          (.withFailures (((s.sink).put (functionSeparator.intercalate (s.codes store units)) :
          Action σ (List (Diagnostic ν))) w).1),
        (((s.sink).put (functionSeparator.intercalate (s.codes store units)) : Action σ
          (List (Diagnostic ν))) w).2) := by
  rw [deliverBatch]
  simp only [codes_entry]
  cases hcodes : s.codes store units with
  | nil => rfl
  | cons code rest => rfl

def entryAfter (failures : List (Diagnostic ν)) (u : WorkUnit ν) : Entry ν :=
  ⟨u.label, if (s.unit store u).code.isSome ∧ failures ≠ [] then
      ⟨false, (s.unit store u).code, (s.unit store u).diagnostics ++ failures⟩
    else s.unit store u⟩

theorem withFailures_entry (failures : List (Diagnostic ν)) (u : WorkUnit ν) :
    (s.entry store u).withFailures failures = s.entryAfter store failures u := by
  rw [entry, entryAfter, Entry.withFailures]
  simp only [Produced.withFailures]
  congr 1
  cases (s.unit store u).code <;> cases failures <;> simp

/-- What a batch gives and the session it leaves behind, where the sink has the given failures. All
codes go to the sink in one call, which is not made where there are none, and the failure of the
call is told to the units with code and to no other. -/
structure Delivered (units : List (WorkUnit ν)) (w : Session σ) (batch : List (Entry ν) × Session σ)
    (failures : List (Diagnostic ν)) (es : List Effect) : Prop where
  entries : batch.1 = units.map (s.entryAfter store failures)
  trace : batch.2.trace = w.trace ++ es
  idle : s.codes store units = [] → failures = [] ∧ es = [] ∧ batch.2 = w
  call : s.codes store units ≠ [] →
    s.sink.Calls (functionSeparator.intercalate (s.codes store units)) es ∧
    (s.sink.put (functionSeparator.intercalate (s.codes store units)) : Action σ
      (List (Diagnostic ν))) w = (failures, batch.2)
  failures : if ∀ e ∈ es, e.failsToWrite = false then failures = [] else ∃ reason, failures =
    [.writeFailure s.file reason]

theorem Delivered.failures_eq_nil_iff {s : Settings ν} {store : Store ν} {units : List (WorkUnit ν)}
    {w : Session σ} {batch : List (Entry ν) × Session σ} {failures : List (Diagnostic ν)}
    {es : List Effect} (h : s.Delivered store units w batch failures es) :
    failures = [] ↔ ∀ e ∈ es, e.failsToWrite = false := by
  have hfailures := h.failures
  split at hfailures
  · next hall => exact iff_of_true hfailures hall
  · next hsome =>
    obtain ⟨reason, hreason⟩ := hfailures
    rw [hreason]
    exact iff_of_false (List.cons_ne_nil _ _) hsome

section Files

variable [Lawful σ loc] {s : Settings ν} {store : Store ν} {units : List (WorkUnit ν)} {w : Session σ}
  {batch : List (Entry ν) × Session σ} {failures : List (Diagnostic ν)} {es : List Effect}

/-- What a batch changes is its file, or a directory above the file that is made. -/
theorem Delivered.changed (h : s.Delivered store units w batch failures es) {l : loc}
    (hl : node? batch.2.files l ≠ node? w.files l) : s.file ≠ "" ∧ s.codes store units ≠ [] ∧
      (locate? batch.2.files s.file = some l ∨ node? w.files l = none ∧
        node? batch.2.files l = some .directory) := by
  have hcodes : s.codes store units ≠ [] := by
    intro hnone
    rw [(h.idle hnone).2.2] at hl
    exact hl rfl
  have hput := (h.call hcodes).2
  have hfile : s.file ≠ "" := by
    intro hconsole
    rw [put_console ν _ _ _ hconsole, Prod.mk.injEq] at hput
    rw [← hput.2] at hl
    exact hl rfl
  refine ⟨hfile, hcodes, ?_⟩
  have helsewhere :=
    put_elsewhere ν s.sink (functionSeparator.intercalate (s.codes store units)) w hfile l
  rw [hput] at helsewhere
  by_cases hlocate : locate? batch.2.files s.file = some l
  · exact .inl hlocate
  · exact .inr ((helsewhere hlocate).resolve_left hl)

/-- Without a failure the file of a batch holds the codes, after what it held before if they are
appended. -/
theorem Delivered.written (h : s.Delivered store units w batch failures es) (hfile : s.file ≠ "")
    (hcodes : s.codes store units ≠ []) (hall : failures = []) :
    ∃ l, locate? batch.2.files s.file = some l ∧ textAt batch.2.files l = some
      (if s.append then
        (textAt w.files l).getD "" ++ functionSeparator.intercalate (s.codes store units) ++
          functionSeparator
      else functionSeparator.intercalate (s.codes store units)) := by
  have hput := (h.call hcodes).2
  rw [hall] at hput
  have hwritten := put_text ν s.sink (functionSeparator.intercalate (s.codes store units)) w hfile
    (congrArg Prod.fst hput)
  rwa [hput] at hwritten

end Files

theorem deliverBatch_delivered (units : List (WorkUnit ν)) (w : Session σ) :
    ∃ failures es, s.Delivered store units w
      ((s.deliverBatch store units : Action σ (List (Entry ν))) w) failures es := by
  have hentries (failures : List (Diagnostic ν)) :
      (units.map (s.entry store)).map (.withFailures failures) =
          units.map (s.entryAfter store failures) := by
    rw [List.map_map]
    exact List.map_congr_left fun u _ => s.withFailures_entry store failures u
  rw [deliverBatch_apply]
  split
  · next hnone =>
    refine ⟨[], [], ?_, (List.append_nil _).symm, fun _ => ⟨rfl, rfl, rfl⟩,
      fun h => absurd hnone h, by simp⟩
    simp [entry, entryAfter]
  · next hcodes =>
    obtain ⟨es, hcalls, htrace, hfailures⟩ :=
      put_trace ν s.sink (functionSeparator.intercalate (s.codes store units)) w
    exact ⟨_, es, hentries _, htrace, fun h => absurd h hcodes, fun _ => ⟨hcalls, rfl⟩, hfailures⟩

/-- Units do not depend on each other: in a batch each comes out as it does by itself, in the order
in which they are given. -/
theorem deliverBatch_independent (units : List (WorkUnit ν)) (w : Session σ) :
    (∀ (σ' loc' : Type) [FileSystem σ' loc'] (u : WorkUnit ν) (v : Session σ'), s.Delivers store u v →
      ((s.deliverUnit store u : Action σ' (Produced ν)) v).1 = s.unit store u) ∧
    ∃ failures es, s.Delivered store units w
      ((s.deliverBatch store units : Action σ (List (Entry ν))) w) failures es :=
  ⟨fun _ _ _ _ _ h => s.deliverUnit_of_delivers store h, s.deliverBatch_delivered store units w⟩

def toFile : Settings Float := ⟨.numpy, none, ⟨Sign.fromFacts, .preserve⟩, "out", false⟩

def mixedUnits : List (WorkUnit Float) :=
  [.expression "first" (.symbol "x"),
    .expression "second" (.sum [.symbol "a\x60y", .symbol "b\x60y"]), .function "f"]

def blocked : Session FileTree := ⟨⟨[["out"]], []⟩, []⟩

theorem deliverBatch_independent_blocked :
    ((toFile.deliverBatch .empty mixedUnits : Action FileTree (List (Entry Float))) blocked).1.map
        (fun e => (e.label, e.produced.ok, e.produced.code,
          e.produced.diagnostics.map Diagnostic.kind)) =
      [("first", false, some "x", ["WriteFailure"]),
        ("second", false, some "y + y", ["IdentifierCollision", "WriteFailure"]),
        ("f", false, none, ["NoDefinitionFound"])] := by
  obtain ⟨-, failures, es, hentries, -, -, hcall, -⟩ :=
    toFile.deliverBatch_independent .empty mixedUnits blocked
  have hcodes : toFile.codes .empty mixedUnits = ["x", "y + y"] := by decide +kernel
  have hfailures :
      failures = [.writeFailure "out" "EISDIR: illegal operation on a directory, open 'out'"] :=
    (congrArg Prod.fst (hcall (by rw [hcodes]; decide)).2).symm
  rw [hentries, hfailures]
  decide +kernel

end Settings

end Formulary
