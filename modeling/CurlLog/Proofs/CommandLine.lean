import CurlLog.Cli.Run
import Mathlib.Data.List.Nodup
import Mathlib.Data.List.TakeWhile

/-!
# Options in any order

A command line that gives each of its options once is read as what it gives, whatever the order of
the options and however each of them is written (`Spelling`): a value behind an equals sign or in an
argument of its own, a switch by its name or by its letter. What is not given comes from the
environment, or else it is the default (`Job.Completes`).

The reader keeps a value back that stands in an argument of its own. So what a run preserves is said
of what the reader will have when that value is in its place (`Reader.Gives`).
-/

namespace CurlLog.Cli

/-! ## What can be given -/

/-- A switch that a run looks at. -/
inductive Flag where
  | summary
  | verbose
deriving DecidableEq, Repr

namespace Flag

def all : List Flag :=
  [summary, verbose]

def toSwitch : Flag → Switch
  | summary => .summary
  | verbose => .verbose

theorem mem_all (f : Flag) : f ∈ all := by
  cases f <;> decide

theorem toSwitch_injective : Function.Injective toSwitch := by
  intro f f' h
  cases f <;> cases f' <;> simp_all [toSwitch]

end Flag

theorem Setting.mem_all (s : Setting) : s ∈ all := by
  cases s <;> decide

/-- An option with what it says. -/
inductive Choice where
  | value (s : Setting) (v : Text)
  | flag (f : Flag)
deriving DecidableEq, Repr

/-- The place of an option. -/
def Choice.slot : Choice → Slot
  | value s _ => .setting s
  | flag f => .switch f.toSwitch

namespace Given

variable {g g' : Given} {s : Setting} {v : Text} {f : Flag} {c d : Choice}

def isOn (g : Given) : Flag → Bool
  | .summary => g.summary
  | .verbose => g.verbose

/-- The options that are given. -/
def choices (g : Given) : List Choice :=
  Setting.all.filterMap (fun s => (g.value? s).map (.value s)) ++
    (Flag.all.filter g.isOn).map .flag

/-- The same with one more option. -/
def choose (g : Given) : Choice → Given
  | .value s v => g.withValue v s
  | .flag .summary => { g with summary := true }
  | .flag .verbose => { g with verbose := true }

/-- The place of the option is still free. -/
def Lacks (g : Given) (c : Choice) : Prop :=
  ∀ d ∈ g.choices, d.slot ≠ c.slot

@[simp] theorem value_mem_choices : .value s v ∈ g.choices ↔ g.value? s = some v := by
  simp [choices, Setting.mem_all]

@[simp] theorem flag_mem_choices : .flag f ∈ g.choices ↔ g.isOn f = true := by
  simp [choices, Flag.mem_all]

theorem lacks_value_iff : g.Lacks (.value s v) ↔ g.value? s = none := by
  rw [Option.eq_none_iff_forall_ne_some]
  constructor
  · intro h u hu
    exact h (.value s u) (value_mem_choices.mpr hu) rfl
  · rintro h (⟨t, u⟩ | e) hd heq
    · obtain rfl : t = s := Slot.setting.inj heq
      exact h u (value_mem_choices.mp hd)
    · simp [Choice.slot] at heq

theorem lacks_flag_iff : g.Lacks (.flag f) ↔ g.isOn f = false := by
  rw [← Bool.not_eq_true]
  constructor
  · intro h hf
    exact h (.flag f) (flag_mem_choices.mpr hf) rfl
  · rintro h (⟨t, u⟩ | e) hd heq
    · simp [Choice.slot] at heq
    · obtain rfl : e = f := Flag.toSwitch_injective (Slot.switch.inj heq)
      exact h (flag_mem_choices.mp hd)

theorem isOn_withValue (g : Given) (v : Text) (s : Setting) (f : Flag) :
    (g.withValue v s).isOn f = g.isOn f := by
  cases s <;> cases f <;> rfl

theorem value?_choose_flag (g : Given) (f : Flag) (s : Setting) :
    (g.choose (.flag f)).value? s = g.value? s := by
  cases f <;> cases s <;> rfl

theorem isOn_choose_flag (g : Given) (f e : Flag) :
    (g.choose (.flag f)).isOn e = true ↔ e = f ∨ g.isOn e = true := by
  cases f <;> cases e <;> simp [choose, isOn]

theorem path_choose (g : Given) (c : Choice) : (g.choose c).path = g.path := by
  rcases c with ⟨_ | _ | _ | _, v⟩ | (_ | _) <;> rfl

/-- An option in a free place comes to those that are given. -/
theorem mem_choices_choose (h : g.Lacks c) : d ∈ (g.choose c).choices ↔ d = c ∨ d ∈ g.choices := by
  rcases c with ⟨s, v⟩ | f
  · rcases d with ⟨t, u⟩ | e
    · rw [value_mem_choices, value_mem_choices, choose, value?_withValue]
      by_cases hst : s = t
      · subst hst
        simp [lacks_value_iff.mp h, eq_comm]
      · simp [hst, Ne.symm hst]
    · simp [choose, isOn_withValue]
  · rcases d with ⟨t, u⟩ | e
    · simp [value?_choose_flag]
    · simp [isOn_choose_flag]

/-- The path and the options are all that is given. -/
theorem eq_of_choices (hpath : g.path = g'.path) (h : ∀ c, c ∈ g.choices ↔ c ∈ g'.choices) :
    g = g' := by
  have hvalue (s : Setting) : g.value? s = g'.value? s :=
    Option.ext fun v => by simpa using h (.value s v)
  have hflag (f : Flag) : g.isOn f = g'.isOn f :=
    Bool.eq_iff_iff.mpr (by simpa using h (.flag f))
  cases g
  cases g'
  congr
  · exact hvalue .helper
  · exact hvalue .bodyVar
  · exact hvalue .responseLabel
  · exact hvalue .format
  · exact hflag .summary
  · exact hflag .verbose

/-- Each option has a place of its own. -/
theorem nodup_slots (g : Given) : (g.choices.map Choice.slot).Nodup := by
  have hvalues : ((Setting.all.filterMap fun s => (g.value? s).map (Choice.value s)).map
      Choice.slot).Nodup := by
    rw [List.map_filterMap]
    refine List.Nodup.filterMap (fun s t slot hs ht => ?_) (by decide)
    simp only [Option.mem_def, Option.map_eq_some_iff, Option.map_map] at hs ht
    obtain ⟨_, _, rfl⟩ := hs
    obtain ⟨_, _, heq⟩ := ht
    exact (Slot.setting.inj heq).symm
  have hflags : (((Flag.all.filter g.isOn).map Choice.flag).map Choice.slot).Nodup := by
    rw [List.map_map]
    refine List.Nodup.map (fun e f heq => ?_) (List.Nodup.filter _ (by decide))
    exact Flag.toSwitch_injective (Slot.switch.inj heq)
  rw [choices, List.map_append]
  refine List.Nodup.append hvalues hflags fun slot hslot hslot' => ?_
  simp only [List.mem_map, List.mem_filterMap, Option.map_eq_some_iff] at hslot hslot'
  obtain ⟨_, ⟨s, _, v, _, rfl⟩, rfl⟩ := hslot
  obtain ⟨_, ⟨f, _, rfl⟩, heq⟩ := hslot'
  cases heq

end Given

/-! ## How options are written -/

/-- An option as it is written. -/
inductive Spelling where
  /-- The name, an equals sign and the value. -/
  | joined (s : Setting) (v : Text)
  /-- The name and the value in an argument of its own, where it is not taken for an option. -/
  | apart (s : Setting) (v : Text) (h : v = ['-'] ∨ v.head? ≠ some '-')
  /-- The name of a switch. -/
  | long (f : Flag)
  /-- The letter of a switch. -/
  | short (f : Flag)

namespace Spelling

/-- What is written. -/
def choice : Spelling → Choice
  | joined s v | apart s v _ => .value s v
  | long f | short f => .flag f

/-- The arguments that an option is written in. -/
def arguments : Spelling → List Text
  | joined s v => ['-' :: '-' :: (s.name ++ '=' :: v)]
  | apart s v _ => ['-' :: '-' :: s.name, v]
  | long f => ['-' :: '-' :: f.toSwitch.name]
  | short f => [['-', f.toSwitch.letter]]

end Spelling

namespace Argument

theorem ofText_joined {name : Text} (v : Text) (h : ∀ c ∈ name, (c != '=') = true) :
    ofText ('-' :: '-' :: (name ++ '=' :: v)) = .long name (some v) := by
  rw [ofText]
  · simp [List.dropWhile_append_of_pos h, List.takeWhile_append_of_pos h]
  · simp

theorem ofText_long {name : Text} (hname : name ≠ []) (h : ∀ c ∈ name, (c != '=') = true) :
    ofText ('-' :: '-' :: name) = .long name none := by
  rw [ofText]
  · simp [List.dropWhile_eq_nil_iff.mpr h]
  · exact hname

theorem ofText_plain {v : Text} (h : v = ['-'] ∨ v.head? ≠ some '-') : ofText v = .plain v := by
  rcases h with rfl | h
  · rfl
  · unfold ofText
    split <;> simp_all

end Argument

theorem Setting.name_ne_nil (s : Setting) : s.name ≠ [] := by
  cases s <;> decide

theorem Setting.ne_equals_of_mem_name (s : Setting) : ∀ c ∈ s.name, (c != '=') = true := by
  cases s <;> decide

namespace Flag

variable (f : Flag)

theorem name_ne_nil : f.toSwitch.name ≠ [] := by
  cases f <;> decide

theorem ne_equals_of_mem_name : ∀ c ∈ f.toSwitch.name, (c != '=') = true := by
  cases f <;> decide

/-- No setting has the name of a switch. -/
theorem settingOfName?_name : Setting.ofName? f.toSwitch.name = none := by
  cases f <;> decide

theorem ofText_letter : Argument.ofText ['-', f.toSwitch.letter] = .short [f.toSwitch.letter] := by
  cases f <;> rfl

end Flag

/-! ## Reading what is written -/

namespace Reader

variable {r : Reader} {g : Given}

/-- The reader has `g` as soon as what it keeps back is put in place. -/
inductive Gives : Reader → Given → Prop where
  | settled (g : Given) : Gives { given := g } g
  | kept {g : Given} {s : Setting} (v : Text) (h : g.value? s = none) :
      Gives { given := g, pending := .setting s (some v) } (g.withValue v s)

theorem Gives.settle_eq (h : r.Gives g) (ended : Bool) :
    { r with optionsEnded := ended }.settle = .ok { given := g, optionsEnded := ended } := by
  cases h with
  | settled => rfl
  | kept v hnone => simp [settle, assign, hnone]

theorem Gives.optionsEnded_eq (h : r.Gives g) : r.optionsEnded = false := by
  cases h <;> rfl

theorem Gives.settle_self (h : r.Gives g) : r.settle = .ok { given := g } := by
  rw [← h.settle_eq false, ← h.optionsEnded_eq]

theorem Gives.take_long (h : r.Gives g) {name : Text} (hname : name ≠ [])
    (heq : ∀ c ∈ name, (c != '=') = true) : r.take ('-' :: '-' :: name) = r.takeLong name none := by
  simp [take, h.optionsEnded_eq, Argument.ofText_long hname heq]

theorem Gives.take_joined (h : r.Gives g) {name : Text} (v : Text)
    (heq : ∀ c ∈ name, (c != '=') = true) :
    r.take ('-' :: '-' :: (name ++ '=' :: v)) = r.takeLong name (some v) := by
  simp [take, h.optionsEnded_eq, Argument.ofText_joined v heq]

theorem take_value (g : Given) (s : Setting) {v : Text}
    (hv : v = ['-'] ∨ v.head? ≠ some '-') :
    ({ given := g, pending := .setting s none } : Reader).take v =
      .ok { given := g, pending := .setting s (some v) } := by
  simp [take, Argument.ofText_plain hv]

theorem takeLong_setting (r : Reader) (s : Setting) (value : Option Text) :
    r.takeLong s.name value = r.takeSetting s value := by
  simp [takeLong, Setting.ofName?_name]

theorem takeLong_flag (r : Reader) (f : Flag) :
    r.takeLong f.toSwitch.name none = r.takeSwitch f.toSwitch := by
  simp [takeLong, f.settingOfName?_name, Switch.ofName?_name]

theorem takeShort_flag (r : Reader) (f : Flag) :
    r.takeShort [f.toSwitch.letter] = r.takeSwitch f.toSwitch := by
  simp only [takeShort, Switch.ofLetter?_letter]
  cases r.takeSwitch f.toSwitch <;> rfl

theorem Gives.takeSetting_some (h : r.Gives g) {s : Setting} (v : Text)
    (hfree : g.value? s = none) : r.takeSetting s (some v) = .ok { given := g.withValue v s } := by
  rw [takeSetting, h.settle_self]
  show assign { given := g } s v = _
  simp [assign, hfree]

theorem Gives.takeSetting_none (h : r.Gives g) (s : Setting) :
    r.takeSetting s none = .ok { given := g, pending := .setting s none } := by
  rw [takeSetting, h.settle_self]
  rfl

theorem Gives.takeSwitch_eq (h : r.Gives g) {f : Flag} (hfree : g.isOn f = false) :
    r.takeSwitch f.toSwitch = .ok { given := g.choose (.flag f) } := by
  rw [takeSwitch, h.settle_self]
  show turnOn { given := g } f.toSwitch = _
  cases f with
  | summary => exact if_neg (Bool.eq_false_iff.mp hfree)
  | verbose => exact if_neg (Bool.eq_false_iff.mp hfree)

theorem foldlM_take_cons {r₁ : Reader} {a : Text} (h : r.take a = .ok r₁) (rest : List Text) :
    (a :: rest).foldlM take r = rest.foldlM take r₁ := by
  rw [List.foldlM_cons, h]
  rfl

/-- Each way of writing an option in a free place gives that option. -/
theorem Gives.take_spelling (h : r.Gives g) (x : Spelling) (hx : g.Lacks x.choice) :
    ∃ r', x.arguments.foldlM take r = .ok r' ∧ r'.Gives (g.choose x.choice) := by
  cases x with
  | joined s v =>
    have hfree : g.value? s = none := Given.lacks_value_iff.mp hx
    have htake : r.take ('-' :: '-' :: (s.name ++ '=' :: v)) =
        .ok { given := g.withValue v s } := by
      rw [h.take_joined v s.ne_equals_of_mem_name, takeLong_setting, h.takeSetting_some v hfree]
    exact ⟨_, foldlM_take_cons htake [], .settled _⟩
  | apart s v hv =>
    have hfree : g.value? s = none := Given.lacks_value_iff.mp hx
    have htake : r.take ('-' :: '-' :: s.name) =
        .ok { given := g, pending := .setting s none } := by
      rw [h.take_long s.name_ne_nil s.ne_equals_of_mem_name, takeLong_setting, h.takeSetting_none]
    have hvalue := foldlM_take_cons (take_value g s hv) []
    exact ⟨_, (foldlM_take_cons htake [v]).trans hvalue, .kept v hfree⟩
  | long f =>
    have htake : r.take ('-' :: '-' :: f.toSwitch.name) = .ok { given := g.choose (.flag f) } := by
      rw [h.take_long f.name_ne_nil f.ne_equals_of_mem_name, takeLong_flag,
        h.takeSwitch_eq (Given.lacks_flag_iff.mp hx)]
    exact ⟨_, foldlM_take_cons htake [], .settled _⟩
  | short f =>
    have htake : r.take ['-', f.toSwitch.letter] = .ok { given := g.choose (.flag f) } := by
      rw [take, h.optionsEnded_eq, f.ofText_letter]
      show r.takeShort [f.toSwitch.letter] = _
      rw [takeShort_flag, h.takeSwitch_eq (Given.lacks_flag_iff.mp hx)]
    exact ⟨_, foldlM_take_cons htake [], .settled _⟩

/-- Options in free places of their own are all given, whatever their order. -/
theorem Gives.take_spellings (h : r.Gives g) {line : List Spelling}
    (hfree : ∀ x ∈ line, g.Lacks x.choice)
    (hnodup : (line.map fun x => x.choice.slot).Nodup) :
    ∃ r' g', (line.flatMap Spelling.arguments).foldlM take r = .ok r' ∧ r'.Gives g' ∧
      g'.path = g.path ∧ ∀ c, c ∈ g'.choices ↔ c ∈ line.map Spelling.choice ∨ c ∈ g.choices := by
  induction line generalizing r g with
  | nil => exact ⟨r, g, rfl, h, rfl, by simp⟩
  | cons x line ih =>
    have hx : g.Lacks x.choice := hfree x List.mem_cons_self
    obtain ⟨r₁, hread, hgives⟩ := h.take_spelling x hx
    rw [List.map_cons, List.nodup_cons] at hnodup
    have hfree' (y : Spelling) (hy : y ∈ line) : (g.choose x.choice).Lacks y.choice := by
      intro d hd
      rcases (Given.mem_choices_choose hx).mp hd with rfl | hd
      · exact fun heq => hnodup.1 (List.mem_map.mpr ⟨y, hy, heq.symm⟩)
      · exact hfree y (List.mem_cons_of_mem _ hy) d hd
    obtain ⟨r', g', hrest, hgives', hpath, hchoices⟩ := ih hgives hfree' hnodup.2
    refine ⟨r', g', ?_, hgives', hpath.trans (Given.path_choose g x.choice), fun c => ?_⟩
    · rw [List.flatMap_cons, List.foldlM_append, hread]
      exact hrest
    · rw [hchoices, Given.mem_choices_choose hx, List.map_cons, List.mem_cons]
      tauto

/-- After the end of the options any text is a path. -/
theorem Gives.take_path (h : r.Gives g) (hpath : g.path = none) (path : Text) :
    [['-', '-'], path].foldlM take r =
      .ok { given := g, pending := .path path, optionsEnded := true } := by
  have hend : r.take ['-', '-'] = .ok { r with optionsEnded := true } := by
    rw [take, h.optionsEnded_eq]
    rfl
  have htake : ({ r with optionsEnded := true } : Reader).take path =
      .ok { given := g, pending := .path path, optionsEnded := true } := by
    have hsettle := h.settle_eq true
    show takePath { r with optionsEnded := true } path = _
    cases h with
    | settled =>
      simp only [takePath, hpath, hsettle]
      rfl
    | @kept g s v hnone =>
      have hpath' : g.path = none := (Given.path_choose g (.value s v)).symm.trans hpath
      simp only [takePath, hpath', hsettle]
      rfl
  exact (foldlM_take_cons hend [path]).trans (foldlM_take_cons htake [])

end Reader

/-! ## The line as a whole -/

/-- The default of a setting. -/
def Setting.default : Setting → Text
  | helper => "print_request".toList
  | bodyVar => "REQUEST_DATA".toList
  | responseLabel => "[响应]".toList
  | format => "text".toList

/-- What the environment says of a setting. -/
def Environment.value? (env : Environment) : Setting → Option Text
  | .helper => env.helper
  | .bodyVar => env.bodyVar
  | .responseLabel => env.responseLabel
  | .format => none

/-- What a job works with in the place of a setting. -/
def Job.value (job : Job) : Setting → Text
  | .helper => job.names.helper
  | .bodyVar => job.names.bodyVar
  | .responseLabel => job.names.responseLabel
  | .format => job.format

/-- The job has what is given, and of the rest what the environment or else the default says. -/
structure Job.Completes (job : Job) (env : Environment) (g : Given) : Prop where
  path : g.path = some job.path
  given : ∀ s v, g.value? s = some v → job.value s = v
  environment : ∀ s v, g.value? s = none → env.value? s = some v → job.value s = v
  default : ∀ s, g.value? s = none → env.value? s = none → job.value s = s.default
  summary : job.summary = g.summary
  verbose : job.verbose = g.verbose

/-- What is given comes before the environment, and that before the default. -/
theorem Given.value_job (g : Given) (env : Environment) (s : Setting) :
    (g.job env).value s = ((g.value? s).or (env.value? s)).getD s.default := by
  cases s with
  | format => exact congrArg (Option.getD · _) Option.or_none.symm
  | helper | bodyVar | responseLabel => rfl

theorem Given.completes_job {g : Given} {path : Text} (h : g.path = some path)
    (env : Environment) : (g.job env).Completes env g := by
  constructor
  case path => simp [job, h]
  case given =>
    intro s v hs
    rw [value_job, hs]
    rfl
  case environment =>
    intro s v hs henv
    rw [value_job, hs, henv]
    rfl
  case default =>
    intro s hs henv
    rw [value_job, hs, henv]
    rfl
  case summary => rfl
  case verbose => rfl

/-- The arguments of a line: the options, the end of the options and the path. -/
def lineArguments (line : List Spelling) (path : Text) : List Text :=
  line.flatMap Spelling.arguments ++ [['-', '-'], path]

/-- A line with the options that are given, each of them once, is read as what is given. -/
theorem ofArguments_line {g : Given} {path : Text} {line : List Spelling}
    (hpath : g.path = some path) (hne : path ≠ [])
    (hline : (line.map Spelling.choice).Perm g.choices) :
    Given.ofArguments (lineArguments line path) = .ok g := by
  have hnodup : (line.map fun x => x.choice.slot).Nodup := by
    have hslots := (hline.map Choice.slot).nodup_iff.mpr g.nodup_slots
    rwa [List.map_map] at hslots
  obtain ⟨r, g', hread, hgives, hnone, hchoices⟩ :=
    (Reader.Gives.settled {}).take_spellings (fun x _ d hd => absurd hd List.not_mem_nil) hnodup
  have hg : { g' with path := some path } = g := by
    refine Given.eq_of_choices hpath.symm fun c => ?_
    have hgiven : c ∈ g'.choices ↔ c ∈ line.map Spelling.choice ∨ c ∈ [] := hchoices c
    rw [← hline.mem_iff, ← or_iff_left (a := c ∈ line.map _) List.not_mem_nil, ← hgiven]
    rfl
  have hargs : (lineArguments line path).foldlM Reader.take {} =
      .ok { given := g', pending := .path path, optionsEnded := true } := by
    rw [lineArguments, List.foldlM_append, hread]
    exact hgives.take_path hnone path
  obtain ⟨d, path, rfl⟩ := List.exists_cons_of_ne_nil hne
  rw [Given.ofArguments, hargs, ← hg]
  rfl

/--
A line gives exactly the options that it is written for, in whatever order and form they stand.
Each of the others is taken from the environment, or else it is the default, and this alone is the
job that is run.
-/
theorem ofArguments_lineArguments {g : Given} {path : Text} {line : List Spelling}
    (hpath : g.path = some path) (hne : path ≠ [])
    (hline : (line.map Spelling.choice).Perm g.choices) :
    Given.ofArguments (lineArguments line path) = .ok g ∧
      (∀ line' : List Spelling, line'.Perm line →
        Given.ofArguments (lineArguments line' path) =
          Given.ofArguments (lineArguments line path)) ∧
      ∀ env : Environment, (g.job env).Completes env g ∧
        ∀ time read, run env time read (lineArguments line path) =
          (g.job env).run (Level.ofRun env.logLevel g.verbose) time read := by
  have hread := ofArguments_line hpath hne hline
  refine ⟨hread, fun line' hperm => ?_, fun env => ⟨Given.completes_job hpath env, ?_⟩⟩
  · rw [hread]
    exact ofArguments_line hpath hne ((hperm.map Spelling.choice).trans hline)
  · intro time read
    rw [run, hread]

/-- Options with values that look like options, before a path that does. -/
def hostileLine : List Spelling :=
  [.short .verbose, .apart .format ['-'] (.inl rfl), .joined .helper "-x=y z".toList,
    .apart .responseLabel [] (.inr (by decide)), .long .summary]

/-- What these options give. -/
def hostileGiven : Given where
  path := some "--help".toList
  helper := some "-x=y z".toList
  responseLabel := some []
  format := some ['-']
  summary := true
  verbose := true

theorem ofArguments_hostileLine :
    let env : Environment := { helper := some ['h'], bodyVar := some [] }
    let job := hostileGiven.job env
    (hostileLine.map Spelling.choice).Perm hostileGiven.choices ∧
      Given.ofArguments (["-v", "--format", "-", "--helper=-x=y z", "--response-label", "",
        "--summary", "--", "--help"].map String.toList) = .ok hostileGiven ∧
      job.value .helper = "-x=y z".toList ∧ job.value .bodyVar = [] ∧
      job.value .responseLabel = [] ∧ job.value .format = ['-'] := by
  intro env job
  have hline : (hostileLine.map Spelling.choice).Perm hostileGiven.choices := by decide
  obtain ⟨hread, _, hrun⟩ := ofArguments_lineArguments rfl (List.cons_ne_nil '-' _) hline
  have hjob : job.Completes env hostileGiven := (hrun env).1
  exact ⟨hline, hread, hjob.given .helper _ rfl, hjob.environment .bodyVar _ rfl rfl,
    hjob.given .responseLabel _ rfl, hjob.given .format _ rfl⟩

end CurlLog.Cli
