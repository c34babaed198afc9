import Formulary.CommandLine.Options
import Mathlib

namespace Formulary.CommandOptions

/-- Arguments that are taken together. A value is no long option, and the request file has no dash
in front. -/
inductive Group where
  | target (value : String) (plain : startsWithDashes value = false)
  | radical (style : RadicalStyle)
  | oddNegatives (policy : OddNegatives)
  | out (value : String) (plain : startsWithDashes value = false)
  | append
  | help (short : Bool)
  | input (value : String) (plain : startsWithDash value = false)

inductive Kind where
  | target
  | radical
  | oddNegatives
  | out
  | append
  | help (short : Bool)
  | input
deriving DecidableEq

namespace Group

def kind : Group → Kind
  | .target _ _ => .target
  | .radical _ => .radical
  | .oddNegatives _ => .oddNegatives
  | .out _ _ => .out
  | .append => .append
  | .help short => .help short
  | .input _ _ => .input

def arguments : Group → List String
  | .target value _ => ["--target", value]
  | .radical .call => ["--radical", "call"]
  | .radical .power => ["--radical", "power"]
  | .oddNegatives .preserve => ["--odd-negatives", "preserve"]
  | .oddNegatives .decline => ["--odd-negatives", "decline"]
  | .out value _ => ["--out", value]
  | .append => ["--append"]
  | .help false => ["--help"]
  | .help true => ["-h"]
  | .input value _ => [value]

def target? : Group → Option String
  | .target value _ => some value
  | _ => none

def radical? : Group → Option RadicalStyle
  | .radical style => some style
  | _ => none

def oddNegatives? : Group → Option OddNegatives
  | .oddNegatives policy => some policy
  | _ => none

def out? : Group → Option String
  | .out value _ => some value
  | _ => none

def input? : Group → Option String
  | .input value _ => some value
  | _ => none

end Group

def mentions (gs : List Group) (k : Kind) : Bool := gs.any (·.kind == k)

/-- The options of groups: the last value of each kind, the flags that are among them, and the
request file. -/
def ofGroups (gs : List Group) : CommandOptions where
  input := (gs.filterMap Group.input?).getLast?
  target := (gs.filterMap Group.target?).getLast?
  radical := (gs.filterMap Group.radical?).getLast?
  oddNegatives := (gs.filterMap Group.oddNegatives?).getLast?.getD .preserve
  out := (gs.filterMap Group.out?).getLast?.getD ""
  append := mentions gs .append
  help := mentions gs (.help false) || mentions gs (.help true)

def Rearranged (gs gs' : List Group) : Prop := ∀ k, gs'.filter (·.kind == k) = gs.filter (·.kind == k)

structure Splits (gs : List Group) (arguments : List String) : Prop where
  arguments : gs.flatMap Group.arguments = arguments
  input : gs.countP (·.kind == .input) ≤ 1

def Admits (option value : String) : Prop :=
  (option = "--radical" → value = "call" ∨ value = "power") ∧
    (option = "--odd-negatives" → value = "preserve" ∨ value = "decline")

def IsFlag (argument : String) : Prop := argument = "--append" ∨ argument = "--help" ∨ argument = "-h"

/-- No group can be formed of the arguments in front, and why. The request file may have been named
before. -/
inductive Refused (named : Bool) : List String → UsageError → Prop where
  | missing {option : String} (takes : takesValue option = true) :
      Refused named [option] (.missingValue option)
  | dashes {option next : String} {rest : List String} (takes : takesValue option = true)
      (dashes : startsWithDashes next = true) :
      Refused named (option :: next :: rest) (.missingValue option)
  | invalid {option value : String} {rest : List String} (takes : takesValue option = true)
      (plain : startsWithDashes value = false) (other : ¬ Admits option value) :
      Refused named (option :: value :: rest) (.invalidValue option value)
  | unknown {argument : String} {rest : List String} (takes : takesValue argument = false)
      (flag : ¬ IsFlag argument) (dash : startsWithDash argument = true ∨ named = true) :
      Refused named (argument :: rest) (.unknownOption argument)

namespace Group

variable {g g' : Group} {rest rest' : List String}

theorem takesValue_iff {option : String} :
    takesValue option = true ↔ option = "--target" ∨ option = "--radical" ∨
    option = "--odd-negatives" ∨ option = "--out" := by
  simp [takesValue]

theorem ne_of_plain {value flag : String} (plain : startsWithDash value = false)
    (dash : startsWithDash flag = true) : value ≠ flag := by
  rintro rfl
  rw [plain] at dash
  cases dash

theorem takesValue_of_plain {argument : String} (h : startsWithDash argument = false) :
    takesValue argument = false := by
  rw [Bool.eq_false_iff, ne_eq, takesValue_iff]
  rintro (rfl | rfl | rfl | rfl) <;> exact absurd h (by decide)

theorem arguments_cases (g : Group) :
    (∃ option value, g.arguments = [option, value] ∧ takesValue option = true ∧
      startsWithDashes value = false ∧ Admits option value) ∨
    ∃ argument, g.arguments = [argument] ∧ takesValue argument = false ∧
      (IsFlag argument ∨ g.kind = .input ∧ startsWithDash argument = false) := by
  cases g with
  | target value plain => exact .inl ⟨_, _, rfl, by decide, plain, by simp [Admits]⟩
  | radical style => cases style <;> exact .inl ⟨_, _, rfl, by decide, by decide, by simp [Admits]⟩
  | oddNegatives policy =>
    cases policy <;> exact .inl ⟨_, _, rfl, by decide, by decide, by simp [Admits]⟩
  | out value plain => exact .inl ⟨_, _, rfl, by decide, plain, by simp [Admits]⟩
  | append => exact .inr ⟨_, rfl, by decide, .inl (.inl rfl)⟩
  | help short => cases short <;> exact .inr ⟨_, rfl, by decide, .inl (by simp [IsFlag])⟩
  | input value plain => exact .inr ⟨_, rfl, takesValue_of_plain plain, .inr ⟨rfl, plain⟩⟩

theorem exists_of_admits {option value : String} (takes : takesValue option = true)
    (plain : startsWithDashes value = false) (h : Admits option value) :
    ∃ g : Group, g.arguments = [option, value] ∧ g.kind ≠ .input := by
  rcases takesValue_iff.mp takes with rfl | rfl | rfl | rfl
  · exact ⟨.target value plain, rfl, nofun⟩
  · rcases h.1 rfl with rfl | rfl
    · exact ⟨.radical .call, rfl, nofun⟩
    · exact ⟨.radical .power, rfl, nofun⟩
  · rcases h.2 rfl with rfl | rfl
    · exact ⟨.oddNegatives .preserve, rfl, nofun⟩
    · exact ⟨.oddNegatives .decline, rfl, nofun⟩
  · exact ⟨.out value plain, rfl, nofun⟩

theorem exists_of_isFlag {argument : String} (h : IsFlag argument) :
    ∃ g : Group, g.arguments = [argument] ∧ g.kind ≠ .input := by
  rcases h with rfl | rfl | rfl
  · exact ⟨.append, rfl, nofun⟩
  · exact ⟨.help false, rfl, nofun⟩
  · exact ⟨.help true, rfl, nofun⟩

def kindOf (argument : String) : Kind :=
  if argument = "--target" then .target
  else if argument = "--radical" then .radical
  else if argument = "--odd-negatives" then .oddNegatives
  else if argument = "--out" then .out
  else if argument = "--append" then .append
  else if argument = "--help" then .help false
  else if argument = "-h" then .help true
  else .input

theorem kindOf_of_plain {value : String} (h : startsWithDash value = false) :
    kindOf value = .input := by
  have hne {option : String} : startsWithDash option = true → value ≠ option := ne_of_plain h
  rw [kindOf, if_neg (hne (by decide)), if_neg (hne (by decide)), if_neg (hne (by decide)),
    if_neg (hne (by decide)), if_neg (hne (by decide)), if_neg (hne (by decide)),
    if_neg (hne (by decide))]

theorem head_arguments (g : Group) : g.arguments.head?.map kindOf = some g.kind := by
  cases g with
  | radical style => cases style <;> rfl
  | oddNegatives policy => cases policy <;> rfl
  | help short => cases short <;> rfl
  | input value plain => exact congrArg some (kindOf_of_plain plain)
  | target | out | append => rfl

theorem arguments_injective : Function.Injective arguments := by
  intro g g' h
  have hkind : g.kind = g'.kind := Option.some.inj (by rw [← head_arguments, ← head_arguments, h])
  cases g <;> cases g' <;> cases hkind
  case target | out | input => simpa [arguments] using h
  case append => rfl
  case radical style style' => cases style <;> cases style' <;> simp_all [arguments]
  case oddNegatives policy policy' => cases policy <;> cases policy' <;> simp_all [arguments]
  case help => rfl

end Group

section Step

variable {o : CommandOptions} {g : Group} {rest : List String} {e : UsageError}

def set (o : CommandOptions) : Group → CommandOptions
  | .target value _ => { o with target := some value }
  | .radical style => { o with radical := some style }
  | .oddNegatives policy => { o with oddNegatives := policy }
  | .out value _ => { o with out := value }
  | .append => { o with append := true }
  | .help _ => { o with help := true }
  | .input value _ => { o with input := some value }

theorem read_plain {argument : String} (h : takesValue argument = false) :
    o.read (argument :: rest) = (o.setPlain argument).bind fun o => o.read rest := by
  cases rest with
  | nil =>
      rw [read, h, if_neg Bool.false_ne_true]
      cases o.setPlain argument <;> rfl
  | cons next rest =>
      rw [read, h, if_neg Bool.false_ne_true]
      cases o.setPlain argument <;> rfl

theorem read_value {option value : String} (h : takesValue option = true)
    (hvalue : startsWithDashes value = false) :
    o.read (option :: value :: rest) = (o.setValue option value).bind fun o => o.read rest := by
  rw [read, if_pos h, hvalue, if_neg Bool.false_ne_true]
  cases o.setValue option value <;> rfl

theorem setPlain_input {value : String} (plain : startsWithDash value = false) (h : o.input = none) :
    o.setPlain value = .ok (o.set (.input value plain)) := by
  have hne {flag : String} : startsWithDash flag = true → value ≠ flag := Group.ne_of_plain plain
  rw [setPlain, if_neg (hne (by decide)), if_neg (not_or.mpr ⟨hne (by decide), hne (by decide)⟩),
    if_pos ⟨plain, h⟩]
  rfl

/-- A group is taken as a whole and sets what it is for. -/
theorem read_group (h : g.kind = .input → o.input = none) :
    o.read (g.arguments ++ rest) = (o.set g).read rest := by
  cases g with
  | target value plain => exact read_value (by decide) plain
  | radical style => cases style <;> exact read_value (by decide) (by decide)
  | oddNegatives policy => cases policy <;> exact read_value (by decide) (by decide)
  | out value plain => exact read_value (by decide) plain
  | append => exact read_plain (by decide)
  | help short => cases short <;> exact read_plain (by decide)
  | input value plain =>
      rw [Group.arguments, List.singleton_append, read_plain (Group.takesValue_of_plain plain),
        setPlain_input plain (h rfl)]
      rfl

theorem setValue_of_not_admits {option value : String} (takes : takesValue option = true)
    (h : ¬ Admits option value) :
    o.setValue option value = .error (.invalidValue option value) := by
  rcases Group.takesValue_iff.mp takes with rfl | rfl | rfl | rfl <;> rw [setValue]
    <;> simp_all [Admits]

theorem Refused.read {arguments : List String} (h : Refused o.input.isSome arguments e) :
    o.read arguments = .error e := by
  cases h with
  | missing takes => rw [CommandOptions.read, if_pos takes]
  | dashes takes dashes => rw [CommandOptions.read, if_pos takes, if_pos dashes]
  | invalid takes plain other =>
      rw [read_value takes plain, setValue_of_not_admits takes other]
      rfl
  | @unknown argument _ takes flag dash =>
      have hinput : ¬ (startsWithDash argument = false ∧ o.input = none) := by
        rintro ⟨hdash, hnone⟩
        simp [hdash, hnone] at dash
      rw [IsFlag, not_or] at flag
      rw [read_plain takes, setPlain, if_neg flag.1, if_neg flag.2, if_neg hinput]
      rfl

end Step

section Front

variable {g g' : Group} {named : Bool} {arguments rest rest' : List String} {e : UsageError}

/-- Of arguments that are refused no group can be formed, but for a second request file. -/
theorem Refused.no_group (h : Refused named arguments e) (hg : g.arguments ++ rest = arguments) :
    g.kind = .input ∧ named = true := by
  rcases g.arguments_cases with ⟨option, value, harguments, htakes, hplain, hadmits⟩
    | ⟨argument, harguments, htakes, hflag⟩
  · rw [harguments] at hg
    cases h with
    | missing => cases hg
    | dashes takes dashes => simp_all
    | invalid takes plain other => simp_all
    | unknown takes => simp_all
  · rw [harguments, List.singleton_append] at hg
    cases h with
    | missing takes => simp_all
    | dashes takes => simp_all
    | invalid takes => simp_all
    | unknown takes flag dash => simp_all

theorem exists_group (named : Bool) (h : arguments ≠ []) :
    (∃ (g : Group) (rest : List String), g.arguments ++ rest = arguments ∧
      (g.kind = .input → named = false)) ∨ ∃ e, Refused named arguments e := by
  obtain ⟨argument, rest, rfl⟩ := List.exists_cons_of_ne_nil h
  cases htakes : takesValue argument with
  | true =>
      cases rest with
      | nil => exact .inr ⟨_, .missing htakes⟩
      | cons value rest =>
          cases hdashes : startsWithDashes value with
          | true => exact .inr ⟨_, .dashes htakes hdashes⟩
          | false =>
              by_cases hadmits : Admits argument value
              · obtain ⟨g, hg, hkind⟩ := Group.exists_of_admits htakes hdashes hadmits
                exact .inl ⟨g, rest, by rw [hg]; rfl, fun h => absurd h hkind⟩
              · exact .inr ⟨_, .invalid htakes hdashes hadmits⟩
  | false =>
      by_cases hflag : IsFlag argument
      · obtain ⟨g, hg, hkind⟩ := Group.exists_of_isFlag hflag
        exact .inl ⟨g, rest, by rw [hg]; rfl, fun h => absurd h hkind⟩
      · by_cases hdash : startsWithDash argument = true ∨ named = true
        · exact .inr ⟨_, .unknown htakes hflag hdash⟩
        · rw [not_or, Bool.not_eq_true, Bool.not_eq_true] at hdash
          exact .inl ⟨.input argument hdash.1, rest, rfl, fun _ => hdash.2⟩

theorem length_arguments (g : Group) :
    g.arguments.length = if g.arguments.head?.any takesValue then 2 else 1 := by
  rcases g.arguments_cases with ⟨option, value, h, htakes, -⟩ | ⟨argument, h, htakes, -⟩
    <;> simp [h, htakes]

/-- The group in front is determined by the arguments. -/
theorem group_unique (h : g.arguments ++ rest = g'.arguments ++ rest') : g = g' ∧ rest = rest' := by
  have hhead (g : Group) (rest : List String) : (g.arguments ++ rest).head? = g.arguments.head? := by
    rcases g.arguments_cases with ⟨_, _, h, -⟩ | ⟨_, h, -⟩ <;> simp [h]
  have hlength : g.arguments.length = g'.arguments.length := by
    rw [length_arguments, length_arguments, ← hhead g rest, ← hhead g' rest', h]
  obtain ⟨harguments, hrest⟩ := List.append_inj h hlength
  exact ⟨Group.arguments_injective harguments, hrest⟩

end Front

section Run

variable {o : CommandOptions} {gs gs' : List Group} {arguments rest : List String} {e : UsageError}

theorem mentions_cons (g : Group) (gs : List Group) (k : Kind) :
    mentions (g :: gs) k = (g.kind == k || mentions gs k) := rfl

theorem mentions_snoc (gs : List Group) (g : Group) (k : Kind) :
    mentions (gs ++ [g]) k = (mentions gs k || g.kind == k) := by
  simp [mentions]

theorem isSome_input_set (o : CommandOptions) (g : Group) :
    (o.set g).input.isSome = (o.input.isSome || g.kind == .input) := by
  cases g <;> simp [set, Group.kind]

theorem isSome_input_foldl (o : CommandOptions) (gs : List Group) :
    (gs.foldl set o).input.isSome = (o.input.isSome || mentions gs .input) := by
  induction gs generalizing o with
  | nil => simp [mentions]
  | cons g gs ih => rw [List.foldl_cons, ih, isSome_input_set, mentions_cons, Bool.or_assoc]

theorem read_groups (h : o.input.isSome.toNat + gs.countP (·.kind == .input) ≤ 1) :
    o.read (gs.flatMap Group.arguments ++ rest) = (gs.foldl set o).read rest := by
  induction gs generalizing o with
  | nil => rfl
  | cons g gs ih =>
      rw [List.countP_cons] at h
      have hnone : g.kind = .input → o.input = none := by
        intro hkind
        rw [hkind] at h
        cases hinput : o.input with
        | none => rfl
        | some value => simp [hinput] at h
      have hnext : (o.set g).input.isSome.toNat + gs.countP (·.kind == .input) ≤ 1 := by
        rw [isSome_input_set]
        cases hinput : o.input.isSome <;> cases hkind : (g.kind == Kind.input) <;> simp_all
      rw [List.flatMap_cons, List.append_assoc, read_group hnone, ih hnext, List.foldl_cons]

theorem foldl_set (gs : List Group) : gs.foldl set defaults = ofGroups gs := by
  induction gs using List.reverseRecOn with
  | nil => rfl
  | append_singleton gs g ih =>
      rw [List.foldl_append, ih, List.foldl_cons, List.foldl_nil]
      rcases g with _ | _ | _ | _ | _ | (_ | _) | _ <;>
        simp [ofGroups, set, mentions_snoc, Group.kind, beq_eq_decide, Group.input?, Group.target?,
          Group.radical?, Group.oddNegatives?, Group.out?]

/-- Groups are formed from left to right until the arguments end or are refused. -/
theorem exists_groups (named : Bool) (arguments : List String) :
    ∃ gs rest, gs.flatMap Group.arguments ++ rest = arguments ∧
      named.toNat + gs.countP (·.kind == .input) ≤ 1 ∧
      (rest = [] ∨ ∃ e, Refused (named || mentions gs .input) rest e) := by
  by_cases hnil : arguments = []
  · exact ⟨[], [], by rw [hnil]; rfl, by cases named <;> decide, .inl rfl⟩
  · rcases exists_group named hnil with ⟨g, rest, hrest, hg⟩ | hrefused
    · have hshorter : rest.length < arguments.length := by
        rw [← hrest, List.length_append, length_arguments]
        split <;> omega
      obtain ⟨gs, rest', hgs, hcount, hend⟩ := exists_groups (named || g.kind == .input) rest
      refine ⟨g :: gs, rest', by rw [List.flatMap_cons, List.append_assoc, hgs, hrest], ?_, ?_⟩
      · rw [List.countP_cons]
        cases named <;> cases hkind : (g.kind == Kind.input) <;> simp_all
      · rwa [mentions_cons, ← Bool.or_assoc]
    · exact ⟨[], arguments, rfl,
        by cases named <;> decide, .inr (by rwa [mentions, List.any_nil, Bool.or_false])⟩
termination_by arguments.length

theorem flatMap_arguments_injective :
    Function.Injective fun gs : List Group => gs.flatMap Group.arguments := by
  have hne (g : Group) (gs : List Group) : (g :: gs).flatMap Group.arguments ≠ [] := by
    intro h
    have hlength := congrArg List.length h
    rw [List.flatMap_cons, List.length_append, length_arguments] at hlength
    split at hlength <;> simp at hlength
  intro gs
  induction gs with
  | nil =>
      intro gs' h
      cases gs' with
      | nil => rfl
      | cons g' gs' => exact absurd h.symm (hne g' gs')
  | cons g gs ih =>
      intro gs' h
      cases gs' with
      | nil => exact absurd h (hne g gs)
      | cons g' gs' =>
          obtain ⟨rfl, hrest⟩ := group_unique h
          rw [ih hrest]

/-- What groups set depends only on the groups of each kind, in their order. -/
theorem ofGroups_congr (h : Rearranged gs gs') : ofGroups gs' = ofGroups gs := by
  have hvalues {α : Type} (f : Group → Option α) (k : Kind) (hf : ∀ g, (f g).isSome → g.kind = k) :
      gs'.filterMap f = gs.filterMap f := by
    have hfilter (gs : List Group) : gs.filterMap f = (gs.filter (·.kind == k)).filterMap f := by
      rw [List.filterMap_filter]
      refine List.filterMap_congr fun g _ => ?_
      cases hg : f g with
      | none => simp
      | some a => simp [hf g (by rw [hg]; rfl)]
    rw [hfilter, h, ← hfilter]
  have hmentions (k : Kind) : mentions gs' k = mentions gs k := by
    have hfilter (gs : List Group) : mentions gs k = (gs.filter (·.kind == k)).any fun _ => true := by
      rw [List.any_filter, mentions]
      simp only [Bool.and_true]
    rw [hfilter, h, ← hfilter]
  rw [ofGroups, ofGroups, hmentions, hmentions, hmentions, hvalues Group.input? .input,
    hvalues Group.target? .target, hvalues Group.radical? .radical,
    hvalues Group.oddNegatives? .oddNegatives, hvalues Group.out? .out]
  all_goals
    intro g hg
    cases g <;> first | rfl | cases hg

theorem Rearranged.countP_eq (h : Rearranged gs gs') (k : Kind) :
    gs'.countP (·.kind == k) = gs.countP (·.kind == k) := by
  rw [List.countP_eq_length_filter, h, ← List.countP_eq_length_filter]

theorem Splits.read_append (h : Splits gs arguments) (rest : List String) :
    ofArguments (arguments ++ rest) = (gs.foldl set defaults).read rest := by
  rw [ofArguments, ← h.arguments]
  apply read_groups
  simpa [defaults] using h.input

theorem Splits.read (h : Splits gs arguments) : ofArguments arguments = .ok (ofGroups gs) := by
  have hread := h.read_append []
  rw [List.append_nil, foldl_set] at hread
  rw [hread, CommandOptions.read]

theorem ofArguments_refused {front : List String} (h : Splits gs front)
    (hrefused : Refused (mentions gs .input) rest e) : ofArguments (front ++ rest) = .error e := by
  have hnamed : (gs.foldl set defaults).input.isSome = mentions gs .input := by
    rw [isSome_input_foldl]
    rfl
  rw [h.read_append, Refused.read (by rwa [hnamed])]

theorem Refused.not_splits {front : List String} (h : Refused (mentions gs .input) rest e)
    {g : Group} {rest' : List String} (hg : g.arguments ++ rest' = rest) :
    ¬ Splits (gs ++ [g]) (front ++ g.arguments) := by
  intro hsplits
  obtain ⟨hkind, hnamed⟩ := h.no_group hg
  have hpos : 0 < gs.countP (·.kind == .input) :=
    List.countP_pos_iff.mpr (by simpa [mentions] using hnamed)
  have hcount := hsplits.input
  rw [List.countP_append, List.countP_singleton, hkind] at hcount
  simp only [BEq.rfl, if_true] at hcount
  omega

/-- Arguments are accepted exactly if they split into groups, in the one way in which they do, and
the options are those of the groups, also where groups of different kinds change places. Else no
group can be formed of what follows some groups, and that is the error. -/
theorem ofArguments_exact (arguments : List String) :
    ((∃ o, ofArguments arguments = .ok o) ↔ ∃ gs, Splits gs arguments) ∧
    (∀ gs gs', Splits gs arguments → Splits gs' arguments → gs' = gs) ∧
    (∀ gs, Splits gs arguments → ofArguments arguments = .ok (ofGroups gs) ∧
      ∀ gs', Rearranged gs gs' → ofArguments (gs'.flatMap Group.arguments) = .ok (ofGroups gs)) ∧
    ∀ e, ofArguments arguments = .error e ↔ ∃ gs front rest, Splits gs front ∧
      front ++ rest = arguments ∧ Refused (mentions gs .input) rest e ∧ ∀ g rest', Group.arguments g ++ rest' = rest →
        ¬ Splits (gs ++ [g]) (front ++ g.arguments) := by
  obtain ⟨gs, rest, hrest, hcount, hend⟩ := exists_groups false arguments
  have hfront : Splits gs (gs.flatMap Group.arguments) := ⟨rfl, by simpa using hcount⟩
  -- either the groups are all, or what follows them is the error
  have houtcome : (∃ gs, Splits gs arguments) ∨ ∃ e, Refused (mentions gs .input) rest e := by
    rcases hend with rfl | hrefused
    · exact .inl ⟨gs, by rwa [← hrest, List.append_nil]⟩
    · exact .inr hrefused
  refine ⟨⟨?_, fun ⟨gs, h⟩ => ⟨_, h.read⟩⟩, ?_, fun gs h => ⟨h.read, fun gs' hgs' => ?_⟩,
    fun e => ⟨fun he => ?_, ?_⟩⟩
  · rintro ⟨o, ho⟩
    refine houtcome.resolve_right ?_
    rintro ⟨e, he⟩
    rw [← hrest, ofArguments_refused hfront he] at ho
    cases ho
  · intro gs gs' h h'
    exact flatMap_arguments_injective (h'.arguments.trans h.arguments.symm)
  · have hsplits : Splits gs' (gs'.flatMap Group.arguments) :=
      ⟨rfl, by rw [hgs'.countP_eq]; exact h.input⟩
    rw [hsplits.read, ofGroups_congr hgs']
  · rcases houtcome with ⟨gs', h⟩ | ⟨e', he'⟩
    · rw [h.read] at he
      cases he
    · have herror := ofArguments_refused hfront he'
      rw [hrest, he] at herror
      obtain rfl := Except.error.inj herror
      exact ⟨gs, _, rest, hfront, hrest, he', fun g rest' hg => he'.not_splits hg⟩
  · rintro ⟨gs, front, rest, h, rfl, hrefused, -⟩
    exact ofArguments_refused h hrefused

end Run

end Formulary.CommandOptions
