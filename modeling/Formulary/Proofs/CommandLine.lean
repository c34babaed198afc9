import Formulary.CommandLine.Run
import Formulary.Proofs.Production

namespace Formulary

open FileSystem Formulary.Action

variable {ν σ loc : Type}

theorem Signature.isError_of_error {t : Target} {symbol : String} {rules : List (Rule ν)}
    {d : Diagnostic ν} (h : ofRules t symbol rules = .error d) : d.isError = true := by
  cases rules with
  | nil =>
      cases h
      rfl
  | cons rule rules =>
      simp only [ofRules] at h
      split at h
      · cases h
      · cases h
        rfl

variable [Number ν]

namespace Settings

theorem unit_ok (s : Settings ν) (store : Store ν) (u : WorkUnit ν) :
    (s.unit store u).ok = !Diagnostic.hasErrors (s.unit store u).diagnostics := by
  cases u with
  | expression label x => rfl
  | function symbol =>
      rw [unit, function]
      split
      · next d h => simp [Diagnostic.hasErrors, Signature.isError_of_error h]
      · rfl

/-- All entries of a batch are in order when no unit has an error and no code failed to be
delivered. -/
theorem exitCodeOf_eq_zero_iff (s : Settings ν) (store : Store ν) (units : List (WorkUnit ν))
    (failures : List (Diagnostic ν)) :
    Command.exitCodeOf (units.map (s.entryAfter store failures)) = 0 ↔
      (∀ u ∈ units, Diagnostic.hasErrors (s.unit store u).diagnostics = false) ∧
      (s.codes store units = [] ∨ failures = []) := by
  have hentry (u : WorkUnit ν) : (s.entryAfter store failures u).produced.ok = true ↔
      Diagnostic.hasErrors (s.unit store u).diagnostics = false ∧
          ((s.unit store u).code = none ∨ failures = []) := by
    rw [entryAfter]
    simp only
    split
    · next h => simp [h.2, Option.isSome_iff_ne_none.mp h.1]
    · next h =>
      rw [unit_ok, Bool.not_eq_true']
      cases hcode : (s.unit store u).code with
      | none => simp
      | some code =>
          have hnone : failures = [] := by simpa [hcode] using h
          simp [hnone]
  have hcodes : s.codes store units = [] ↔ ∀ u ∈ units, (s.unit store u).code = none := by
    rw [codes, List.filterMap_eq_nil_iff]
  rw [Command.exitCodeOf, ite_eq_left_iff, hcodes]
  simp only [Nat.one_ne_zero, imp_false, not_not, List.all_map, List.all_eq_true,
    Function.comp_apply, hentry]
  constructor
  · intro h
    refine ⟨fun u hu => (h u hu).1, ?_⟩
    by_cases hnone : failures = []
    · exact .inr hnone
    · exact .inl fun u hu => (h u hu).2.resolve_right hnone
  · rintro ⟨hclean, hcode⟩ u hu
    exact ⟨hclean u hu, hcode.imp_left fun h => h u hu⟩

end Settings

namespace Command

structure Requests [FileSystem σ loc] (arguments : List String) (s : σ) (o : CommandOptions)
    (input : String) (answer : Except StorageFailure String) : Prop where
  options : CommandOptions.ofArguments arguments = .ok o
  named : o.input = some input
  answered : (FileSystem.read input s).1 = answer

variable (ν) in
/-- Help is asked for, or the request file does not hold a request that work could be made of. -/
inductive Halts [FileSystem σ loc] (arguments : List String) (s : σ) : Prop where
  | help {o : CommandOptions} (options : CommandOptions.ofArguments arguments = .ok o)
      (help : o.help = true) : Halts arguments s
  | unreadable {o : CommandOptions} {input : String} {failure : StorageFailure}
      (requests : Requests arguments s o input (.error failure)) : Halts arguments s
  | notJson {o : CommandOptions} {input text : String}
      (requests : Requests arguments s o input (.ok text))
      (json : (Json.ofText? text : Option (Json ν)) = none) : Halts arguments s
  | issues {o : CommandOptions} {input text : String} {j : Json ν} {is : List Issue}
      (requests : Requests arguments s o input (.ok text)) (json : Json.ofText? text = some j)
      (issues : Request.ofJson j = .error is) : Halts arguments s
  | clause {o : CommandOptions} {input text : String} {j : Json ν} {r : Request ν}
      {e : Assumptions.ClauseError} (requests : Requests arguments s o input (.ok text))
      (json : Json.ofText? text = some j) (request : Request.ofJson j = .ok r)
      (clause : r.combine = .error e) : Halts arguments s

structure Plans [FileSystem σ loc] (arguments : List String) (s : σ) (o : CommandOptions)
    (p : Plan ν) : Prop where
  options : CommandOptions.ofArguments arguments = .ok o
  help : o.help = false
  plan : ∃ input text, Requests arguments s o input (.ok text) ∧ planOf o input text = .ok p

def Plan.codes (p : Plan ν) : List String := p.settings.codes p.store p.units

theorem settings_of_planOf {o : CommandOptions} {input text : String} {p : Plan ν}
    (h : planOf o input text = .ok p) : p.settings.file = o.out ∧ p.settings.append = o.append := by
  rw [planOf] at h
  split at h
  · cases h
  · split at h
    · cases h
    · split at h
      · cases h
      · split at h
        · cases h
        · cases h
          exact ⟨rfl, rfl⟩

variable [FileSystem σ loc] {arguments : List String} {s : σ} {o : CommandOptions}

theorem Requests.unique {o' : CommandOptions} {input input' : String}
    {answer answer' : Except StorageFailure String} (h : Requests arguments s o input answer)
    (h' : Requests arguments s o' input' answer') :
    o = o' ∧ input = input' ∧ answer = answer' := by
  obtain rfl := Except.ok.inj (h.options.symm.trans h'.options)
  obtain rfl := Option.some.inj (h.named.symm.trans h'.named)
  exact ⟨rfl, rfl, h.answered.symm.trans h'.answered⟩

theorem Plans.unique {o' : CommandOptions} {p p' : Plan ν} (h : Plans arguments s o p)
    (h' : Plans arguments s o' p') : o = o' ∧ p = p' := by
  obtain ⟨-, -, input, text, hrequests, hplan⟩ := h
  obtain ⟨-, -, input', text', hrequests', hplan'⟩ := h'
  obtain ⟨rfl, rfl, htext⟩ := hrequests.unique hrequests'
  cases htext
  exact ⟨rfl, Except.ok.inj (hplan.symm.trans hplan')⟩

theorem Plans.not_halts {p : Plan ν} (h : Plans arguments s o p) : ¬ Halts ν arguments s := by
  obtain ⟨hoptions, hhelp, input, text, hrequests, hplan⟩ := h
  rw [planOf] at hplan
  intro halts
  cases halts with
  | help ho hh =>
      obtain rfl := Except.ok.inj (ho.symm.trans hoptions)
      rw [hh] at hhelp
      cases hhelp
  | unreadable hr => cases (hr.unique hrequests).2.2
  | notJson hr hj =>
      obtain ⟨rfl, rfl, ⟨⟩⟩ := hr.unique hrequests
      rw [hj] at hplan
      cases hplan
  | issues hr hj hissues =>
      obtain ⟨rfl, rfl, ⟨⟩⟩ := hr.unique hrequests
      rw [hj] at hplan
      simp only [hissues] at hplan
      cases hplan
  | clause hr hj hrequest hclause =>
      obtain ⟨rfl, rfl, ⟨⟩⟩ := hr.unique hrequests
      rw [hj] at hplan
      simp only [hrequest, Request.toWork, hclause] at hplan
      cases hplan

/-- Lines that are said touch no file. -/
theorem failsToWrite_say {ls : List Line} : ∀ e ∈ ls.map Effect.say, e.failsToWrite = false := by
  intro e he
  obtain ⟨l, -, rfl⟩ := List.mem_map.mp he
  rfl

theorem stop_apply (st : Stop) (w : Session σ) :
    (stop st : Action σ Nat) w = (st.exitCode, ⟨w.files, w.trace ++ st.lines.map .say⟩) := by
  rw [stop, bind_apply, sayAll_apply]
  rfl

theorem exitCode_stop (st : Stop) : st.exitCode = 1 ∨ st.exitCode = 2 := by
  cases st
  · exact .inr rfl
  all_goals exact .inl rfl

theorem execute_apply (p : Plan ν) (w : Session σ) :
    (execute p : Action σ Nat) w =
      (exitCodeOf ((p.settings.deliverBatch p.store p.units : Action σ (List (Entry ν))) w).1,
        ⟨((p.settings.deliverBatch p.store p.units : Action σ (List (Entry ν))) w).2.files,
          ((p.settings.deliverBatch p.store p.units : Action σ (List (Entry ν))) w).2.trace ++
            (((p.settings.deliverBatch p.store p.units : Action σ (List (Entry ν))) w).1.flatMap
              entryLines).map .say⟩) := by
  rw [execute, bind_apply, bind_apply, sayAll_apply]
  rfl

theorem run_of_help (ho : CommandOptions.ofArguments arguments = .ok o) (hhelp : o.help = true)
    (w : Session σ) :
    (run ν arguments : Action σ Nat) w = (0, ⟨w.files, w.trace ++ [.say ⟨.log, usage⟩]⟩) := by
  rw [run, ho]
  simp only [hhelp, if_true]
  rfl

theorem run_of_plans {p : Plan ν} {w : Session σ} (h : Plans arguments w.files o p) :
    ∃ input answer, (run ν arguments : Action σ Nat) w =
      (execute p : Action σ Nat) ⟨(FileSystem.read input w.files).2, w.trace ++
        [.read input answer]⟩ := by
  obtain ⟨hoptions, hhelp, input, text, ⟨-, hinput, hread⟩, hplan⟩ := h
  have hstorage : (Storage.read input : Action σ _) w =
      (.ok text, ⟨(FileSystem.read input w.files).2, w.trace ++ [.read input (.ok text)]⟩) := by
    change request _ _ w = _
    rw [request, hread]
  refine ⟨input, .ok text, ?_⟩
  rw [run, hoptions]
  simp only [hhelp, Bool.false_eq_true, if_false, hinput]
  rw [bind_apply, hstorage]
  simp only [hplan]

/-- Without help or a plan a run stops, and has read at most the request. -/
theorem run_of_no_plan (hhelp : ∀ o, CommandOptions.ofArguments arguments = .ok o → o.help = false)
    (w : Session σ) (hplan : ¬ ∃ o, ∃ p : Plan ν, Plans arguments w.files o p) :
    ∃ st s es, (s = w.files ∧ es = [] ∨ ∃ input answer, s = (FileSystem.read input w.files).2 ∧
      es = [.read input answer]) ∧
      (run ν arguments : Action σ Nat) w = (stop st : Action σ Nat) ⟨s, w.trace ++ es⟩ := by
  rw [run]
  cases ho : CommandOptions.ofArguments arguments with
  | error e => exact ⟨.usage e, w.files, [], .inl ⟨rfl, rfl⟩, by rw [List.append_nil]⟩
  | ok o =>
      simp only [hhelp o ho, Bool.false_eq_true, if_false]
      cases hinput : o.input with
      | none => exact ⟨.usage .noRequest, w.files, [], .inl ⟨rfl, rfl⟩, by rw [List.append_nil]⟩
      | some input =>
          obtain ⟨answer, s, hread⟩ : ∃ answer s, FileSystem.read input w.files = (answer, s) :=
            ⟨_, _, rfl⟩
          have hstorage : (Storage.read input : Action σ _) w =
              (answer, ⟨s, w.trace ++ [.read input answer]⟩) := by
            change request _ _ w = _
            rw [request, hread]
          have hs : s = (FileSystem.read input w.files).2 := by rw [hread]
          simp only [bind_apply, hstorage]
          cases answer with
          | error failure => exact ⟨.unreadable input failure, s, _, .inr ⟨input, _, hs, rfl⟩, rfl⟩
          | ok text =>
              simp only
              cases hp : (planOf o input text : Except Stop (Plan ν)) with
              | error st => exact ⟨st, s, _, .inr ⟨input, _, hs, rfl⟩, rfl⟩
              | ok p =>
                exact absurd ⟨o, p, ho, hhelp o ho, input, text,
                  ⟨ho, hinput, by rw [hread]⟩, hp⟩ hplan

variable [Lawful σ loc]

/-- A run without a plan leaves all files as they are. -/
theorem run_without_plan (w : Session σ) (hplan : ¬ ∃ o, ∃ p : Plan ν, Plans arguments w.files o p) :
    ∃ code s es, (run ν arguments : Action σ Nat) w = (code, ⟨s, w.trace ++ es⟩) ∧
      (code = 0 ∨ code = 1 ∨ code = 2) ∧
      node? s = node? w.files ∧ (code = 0 ↔ ∃ o, CommandOptions.ofArguments arguments = .ok o ∧
        o.help = true) := by
  by_cases hhelp : ∃ o, CommandOptions.ofArguments arguments = .ok o ∧ o.help = true
  · obtain ⟨o, ho, hh⟩ := hhelp
    exact ⟨0, _, _, run_of_help ho hh w, .inl rfl, rfl, iff_of_true rfl ⟨o, ho, hh⟩⟩
  · have hnone : ∀ o, CommandOptions.ofArguments arguments = .ok o → o.help = false :=
      fun o ho => Bool.eq_false_iff.mpr fun hh => hhelp ⟨o, ho, hh⟩
    obtain ⟨st, s, es, hs, hrun⟩ := run_of_no_plan hnone w hplan
    have hcode := exitCode_stop st
    refine ⟨st.exitCode, s, es ++ st.lines.map .say, ?_, .inr hcode, ?_,
      iff_of_false (by omega) hhelp⟩
    · rw [hrun, stop_apply, List.append_assoc]
    · rcases hs with ⟨rfl, -⟩ | ⟨input, answer, rfl, -⟩
      · rfl
      · exact Lawful.node?_read input w.files

/-- With a plan all units are made, and their codes, if there are any, are put into their
destination. -/
theorem run_with_plan {w : Session σ} {p : Plan ν} (h : Plans arguments w.files o p) :
    ∃ code s es, (run ν arguments : Action σ Nat) w = (code, ⟨s, w.trace ++ es⟩) ∧
      (code = 0 ∨ code = 1) ∧ (∀ l, node? s l ≠ node? w.files l → o.out ≠ "" ∧ p.codes ≠ [] ∧
        (locate? s o.out = some l ∨ node? w.files l = none ∧ node? s l = some .directory)) ∧
      (o.out ≠ "" → p.codes ≠ [] → (∀ e ∈ es, e.failsToWrite = false) →
        ∃ l, locate? s o.out = some l ∧
        textAt s l = some (if o.append then (textAt w.files l).getD "" ++
          "\n\n".intercalate p.codes ++ "\n\n"
          else "\n\n".intercalate p.codes)) ∧
      (code = 0 ↔ (∀ u ∈ p.units, Diagnostic.hasErrors (p.settings.unit p.store u).diagnostics =
        false) ∧ ∀ e ∈ es, e.failsToWrite = false) := by
  obtain ⟨input, answer, hrun⟩ := run_of_plans h
  obtain ⟨-, -, _, _, -, hplan⟩ := h
  obtain ⟨hfile, happend⟩ := settings_of_planOf hplan
  have hcode (entries : List (Entry ν)) : exitCodeOf entries = 0 ∨ exitCodeOf entries = 1 := by
    rw [exitCodeOf]
    split
    · exact .inl rfl
    · exact .inr rfl
  have hread : node? (FileSystem.read input w.files).2 = node? w.files :=
    Lawful.node?_read input w.files
  have htextRead (l : loc) : textAt (FileSystem.read input w.files).2 l = textAt w.files l := by
    rw [textAt, textAt, hread]
  generalize hv : (⟨(FileSystem.read input w.files).2, w.trace ++ [.read input answer]⟩ : Session σ)
    = v at hrun
  have hfiles : v.files = (FileSystem.read input w.files).2 := by rw [← hv]
  have htrace : v.trace = w.trace ++ [.read input answer] := by rw [← hv]
  obtain ⟨failures, es, hdelivered⟩ := p.settings.deliverBatch_delivered p.store p.units v
  rw [execute_apply, hdelivered.entries, hdelivered.trace, htrace, List.append_assoc,
    List.append_assoc] at hrun
  generalize hbatch : (p.settings.deliverBatch p.store p.units : Action σ (List (Entry ν))) _ =
    batch at hdelivered hrun
  have hwritten (shown : List Line) :
      (∀ e ∈ [Effect.read input answer] ++ (es ++ shown.map .say), e.failsToWrite = false) ↔
          failures = [] := by
    rw [hdelivered.failures_eq_nil_iff, List.forall_mem_append, List.forall_mem_append,
      List.forall_mem_singleton]
    simp only [Effect.failsToWrite, true_and, and_iff_left_iff_imp]
    exact fun _ => failsToWrite_say
  refine ⟨_, _, _, hrun, hcode _, fun l hl => ?_, fun hout hcodes hall => ?_, ?_⟩
  · rw [← hread, ← hfiles] at hl ⊢
    rw [← hfile]
    exact hdelivered.changed hl
  · rw [← hfile] at hout ⊢
    rw [← happend]
    obtain ⟨l, hlocate, htext⟩ := hdelivered.written hout hcodes ((hwritten _).mp hall)
    rw [hfiles, htextRead] at htext
    exact ⟨l, hlocate, htext⟩
  · rw [Settings.exitCodeOf_eq_zero_iff, hwritten]
    refine and_congr_right fun _ => ?_
    constructor
    · rintro (hcodes | hfailures)
      · exact (hdelivered.idle hcodes).1
      · exact hfailures
    · exact .inr

/-- How a run ends, for all arguments and files. What cannot be carried out changes no file or
directory. Otherwise at most the file that is named for the code changes, apart from directories
above it that are made, and it holds the code if that is written. The exit code is zero where help
is asked for, and where no unit has an error and the code, if there is any, is written. -/
theorem run_files (arguments : List String) (w : Session σ) :
    ∃ code s es, (run ν arguments : Action σ Nat) w = (code, ⟨s, w.trace ++ es⟩) ∧
      (code = 0 ∨ code = 1 ∨ code = 2) ∧
      (code = 2 ∨ Halts ν arguments w.files → node? s = node? w.files) ∧
      (∀ l, node? s l ≠ node? w.files l → ∃ o, ∃ p : Plan ν, Plans arguments w.files o p ∧
        o.out ≠ "" ∧ p.codes ≠ [] ∧
        (locate? s o.out = some l ∨ node? w.files l = none ∧ node? s l = some .directory)) ∧
      (∀ o, ∀ p : Plan ν, Plans arguments w.files o p → o.out ≠ "" → p.codes ≠ [] →
        (∀ e ∈ es, e.failsToWrite = false) → ∃ l, locate? s o.out = some l ∧
          textAt s l = some (if o.append then (textAt w.files l).getD "" ++
            "\n\n".intercalate p.codes ++ "\n\n"
            else "\n\n".intercalate p.codes)) ∧
      (code = 0 ↔ (∃ o, CommandOptions.ofArguments arguments = .ok o ∧ o.help = true) ∨
        ∃ o, ∃ p : Plan ν, Plans arguments w.files o p ∧
          (∀ u ∈ p.units, Diagnostic.hasErrors (p.settings.unit p.store u).diagnostics = false) ∧
            ∀ e ∈ es, e.failsToWrite = false) := by
  by_cases hplan : ∃ o, ∃ p : Plan ν, Plans arguments w.files o p
  · obtain ⟨o, p, h⟩ := hplan
    have hunique {o' : CommandOptions} {p' : Plan ν} (h' : Plans arguments w.files o' p') :
        o' = o ∧ p' = p := h'.unique h
    obtain ⟨code, s, es, hrun, hcode, hchanged, hwritten, hzero⟩ := run_with_plan h
    refine ⟨code, s, es, hrun, hcode.imp_right .inl, ?_, fun l hl => ⟨o, p, h, hchanged l hl⟩, ?_, ?_⟩
    · rintro (htwo | hhalts)
      · omega
      · exact absurd hhalts h.not_halts
    · intro o' p' h'
      obtain ⟨rfl, rfl⟩ := hunique h'
      exact hwritten
    · rw [hzero]
      constructor
      · exact fun hgood => .inr ⟨o, p, h, hgood⟩
      · rintro (⟨o', ho', hhelp⟩ | ⟨o', p', h', hgood⟩)
        · exact absurd (.help ho' hhelp) h.not_halts
        · obtain ⟨rfl, rfl⟩ := hunique h'
          exact hgood
  · obtain ⟨code, s, es, hrun, hcode, hsame, hzero⟩ := run_without_plan w hplan
    refine ⟨code, s, es, hrun, hcode, fun _ => hsame, fun l hl => absurd (congrFun hsame l) hl, ?_,
      ?_⟩
    · exact fun o p h => absurd ⟨o, p, h⟩ hplan
    · rw [hzero]
      refine (or_iff_left ?_).symm
      rintro ⟨o, p, h, -⟩
      exact hplan ⟨o, p, h⟩

def symbolRequest : String :=
  "\x7b\"expressions\": [\x7b\"label\": \"first\", \"expr\": \"x\"\x7d]\x7d"

def withCode : Session FileTree :=
  ⟨⟨[], [(["request.json"], symbolRequest), (["code.py"], "y\n\n")]⟩, []⟩

def appending : List String := ["--out", "code.py", "--append", "request.json"]

theorem run_files_appended :
    ∃ s es, (run Float appending : Action FileTree Nat) withCode = (0, ⟨s, es⟩) ∧
      textAt s ["code.py"] = some "y\n\nx\n\n" := by
  obtain ⟨o, ho⟩ : ∃ o : CommandOptions, o = ⟨some "request.json", none, none, .preserve, "code.py",
      true, false⟩ := ⟨_, rfl⟩
  have hplanned : (planOf o "request.json" symbolRequest : Except Stop (Plan Float)).toOption.map
      (fun p => (p.codes,
        p.units.all fun u => !Diagnostic.hasErrors (p.settings.unit p.store u).diagnostics)) =
        some (["x"], true) := by
    rw [ho]
    decide +kernel
  obtain ⟨p, hp, hcodes, hclean⟩ : ∃ p : Plan Float, planOf o "request.json" symbolRequest = .ok p ∧
      p.codes = ["x"] ∧
      (p.units.all fun u => !Diagnostic.hasErrors (p.settings.unit p.store u).diagnostics) =
          true := by
    cases hplan : (planOf o "request.json" symbolRequest : Except Stop (Plan Float)) with
    | error st =>
        rw [hplan] at hplanned
        cases hplanned
    | ok p =>
        rw [hplan] at hplanned
        exact ⟨p, rfl, Prod.mk.inj (Option.some.inj hplanned)⟩
  have hplans : Plans appending withCode.files o p := by
    subst ho
    exact ⟨rfl, rfl, "request.json", symbolRequest, ⟨rfl, rfl, rfl⟩, hp⟩
  obtain ⟨code, s, es, hrun, -, -, -, hwritten, hzero⟩ :=
    @run_files Float FileTree _ _ _ _ appending withCode
  have htrace : ((run Float appending : Action FileTree Nat) withCode).2.trace.all (!·.failsToWrite)
      = true := by decide +kernel
  have hplace : locate? ((run Float appending : Action FileTree Nat) withCode).2.files "code.py" =
      some ["code.py"] := by
    decide +kernel
  rw [hrun] at htrace hplace
  have hall : ∀ e ∈ es, e.failsToWrite = false := by
    intro e he
    simpa using List.all_eq_true.mp htrace e (List.mem_append_right _ he)
  have hcode : code = 0 :=
    hzero.mpr (.inr ⟨o, p, hplans,
    fun u hu => by simpa using List.all_eq_true.mp hclean u hu, hall⟩)
  have hout : o.out = "code.py" ∧ o.append = true := by
    rw [ho]
    exact ⟨rfl, rfl⟩
  obtain ⟨l, hlocate, htext⟩ :=
    hwritten o p hplans (by rw [hout.1]; decide) (by rw [hcodes]; decide) hall
  rw [hout.1] at hlocate
  obtain rfl := Option.some.inj (hlocate.symm.trans hplace)
  refine ⟨s, _, hcode ▸ hrun, htext.trans ?_⟩
  rw [hout.2, hcodes]
  decide +kernel

end Command

end Formulary
