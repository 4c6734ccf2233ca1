import Lox.CommandLine.Options
import Lox.Proofs.NumberText
import Mathlib.Data.List.Induction

/-! Arguments of a command line in groups. A flag goes with its value, be it in the same argument or
in the next one, and any other argument is a group of its own. What the arguments come to depends on
what the groups say, not on how they say it or where. -/

namespace Lox

inductive Group where
  | positional (text : String)
  | joined (flag : Flag) (value : String)
  | apart (flag : Flag) (value : String)
  deriving DecidableEq

namespace Group

def arguments : Group → List String
  | .positional text => [text]
  | .joined flag value => [flag.name ++ "=" ++ value]
  | .apart flag value => [flag.name, value]

/-- The other way to write it, if there is one. -/
def other : Group → Group
  | .positional text => .positional text
  | .joined flag value => .apart flag value
  | .apart flag value => .joined flag value

def text? : Group → Option String
  | .positional text => some text
  | .joined _ _ | .apart _ _ => none

def setting? : Group → Option (Flag × String)
  | .positional _ => none
  | .joined flag value | .apart flag value => some (flag, value)

/-- What stands for itself is neither a flag nor begins with one that is followed by its value. -/
def Proper (group : Group) : Prop :=
  ∀ text, group.text? = some text →
    ∀ flag : Flag, text ≠ flag.name ∧ ∀ value, text ≠ flag.name ++ "=" ++ value

/-- The arguments of groups, and after them perhaps a flag that lacks its value. -/
def spell (groups : List Group) (lacking : Option Flag) : List String :=
  groups.flatMap arguments ++ lacking.toList.map Flag.name

/-- Arguments in groups, as they are read from the left. -/
def read : List String → List Group × Option Flag
  | [] => ([], none)
  | argument :: rest =>
    match Options.split argument with
    | (none, _) =>
      let (groups, lacking) := read rest
      (.positional argument :: groups, lacking)
    | (some flag, some value) =>
      let (groups, lacking) := read rest
      (.joined flag value :: groups, lacking)
    | (some flag, none) =>
      match rest with
      | [] => ([], some flag)
      | value :: rest =>
        let (groups, lacking) := read rest
        (.apart flag value :: groups, lacking)

end Group

theorem Flag.ofName?_eq_some {text : String} {flag : Flag} :
    Flag.ofName? text = some flag ↔ text = flag.name := by
  constructor
  · intro found
    exact (by simpa using List.find?_some found : flag.name = text).symm
  · rintro rfl
    cases flag <;> decide

namespace Options

theorem split_name (flag : Flag) : split flag.name = (some flag, none) := by
  cases flag <;> decide

theorem split_joined (flag : Flag) (value : String) :
    split (flag.name ++ "=" ++ value) = (some flag, some value) := by
  have text : (flag.name ++ "=" ++ value).toList = flag.name.toList ++ '=' :: value.toList := by
    simp
  have unbroken : flag.name.toList.all (· != '=') = true := by
    cases flag <;> decide
  have unbroken := List.all_eq_true.mp unbroken
  have known : Flag.ofName? flag.name = some flag := Flag.ofName?_eq_some.mpr rfl
  simp [split, text, List.takeWhile_append_of_pos unbroken, List.dropWhile_append_of_pos unbroken,
    known]

theorem split_cases (argument : String) :
    split argument = (Flag.ofName? argument, none) ∨
      ∃ name value, argument = name ++ "=" ++ value ∧
        split argument = (Flag.ofName? name, some value) := by
  have whole : argument.toList.takeWhile (· != '=') ++ argument.toList.dropWhile (· != '=') =
      argument.toList := List.takeWhile_append_dropWhile
  have stops := List.head?_dropWhile_not (· != '=') argument.toList
  simp only [split]
  generalize argument.toList.takeWhile (· != '=') = front at whole ⊢
  generalize argument.toList.dropWhile (· != '=') = back at whole stops ⊢
  cases back with
  | nil =>
    rw [List.append_nil] at whole
    exact .inl (by simp [whole])
  | cons char back =>
    obtain rfl : char = '=' := by simpa using stops
    refine .inr ⟨_, _, String.toList_inj.mp ?_, rfl⟩
    simp [← whole]

theorem of_split_none {argument : String} {flag : Flag}
    (found : split argument = (some flag, none)) : argument = flag.name := by
  rcases split_cases argument with spelled | ⟨name, value, -, spelled⟩
  · obtain ⟨named, -⟩ := Prod.mk.inj (spelled.symm.trans found)
    exact Flag.ofName?_eq_some.mp named
  · cases (Prod.mk.inj (spelled.symm.trans found)).2

theorem of_split_some {argument value : String} {flag : Flag}
    (found : split argument = (some flag, some value)) :
    argument = flag.name ++ "=" ++ value := by
  rcases split_cases argument with spelled | ⟨name, _, rfl, spelled⟩
  · cases (Prod.mk.inj (spelled.symm.trans found)).2
  · obtain ⟨named, same⟩ := Prod.mk.inj (spelled.symm.trans found)
    rw [Flag.ofName?_eq_some.mp named, Option.some.inj same]

end Options

namespace Group

variable {arguments : List String} {groups : List Group} {lacking : Option Flag}

/-- Groups that arguments are read in. -/
structure Reads (arguments : List String) (groups : List Group) (lacking : Option Flag) : Prop where
  spelled : arguments = spell groups lacking
  proper : ∀ group ∈ groups, group.Proper

theorem proper_iff {text : String} :
    (positional text).Proper ↔ (Options.split text).1 = none := by
  constructor
  · intro proper
    rcases found : Options.split text with ⟨_ | flag, _ | value⟩
    · rfl
    · rfl
    · exact absurd (Options.of_split_none found) (proper text rfl flag).1
    · exact absurd (Options.of_split_some found) ((proper text rfl flag).2 value)
  · rintro alone _ ⟨⟩ flag
    constructor
    · rintro rfl
      simp [Options.split_name] at alone
    · rintro value rfl
      simp [Options.split_joined] at alone

/-- There is only one way to read arguments in groups. -/
theorem Reads.read_eq (reads : Reads arguments groups lacking) :
    read arguments = (groups, lacking) := by
  obtain ⟨rfl, proper⟩ := reads
  induction groups with
  | nil =>
    cases lacking with
    | none => rfl
    | some flag => simp [spell, read, Options.split_name]
  | cons group groups ih =>
    obtain ⟨first, rest⟩ := List.forall_mem_cons.mp proper
    have ih := ih rest
    cases group with
    | positional text =>
      have alone : Options.split text = (none, (Options.split text).2) :=
        Prod.ext (proper_iff.mp first) rfl
      show read (text :: spell groups lacking) = _
      rw [read, alone]
      simp only [ih]
    | joined flag value =>
      show read ((flag.name ++ "=" ++ value) :: spell groups lacking) = _
      rw [read, Options.split_joined]
      simp only [ih]
    | apart flag value =>
      show read (flag.name :: value :: spell groups lacking) = _
      rw [read, Options.split_name]
      simp only [ih]

theorem Reads.cons (group : Group) (proper : group.Proper)
    (reads : Reads arguments groups lacking) :
    Reads (group.arguments ++ arguments) (group :: groups) lacking := by
  refine ⟨?_, List.forall_mem_cons.mpr ⟨proper, reads.proper⟩⟩
  rw [reads.spelled, spell, spell, List.flatMap_cons, List.append_assoc]

theorem reads_read (arguments : List String) :
    Reads arguments (read arguments).1 (read arguments).2 := by
  fun_induction read arguments with
  | case1 => exact ⟨rfl, nofun⟩
  | case2 argument rest value alone groups lacking grouped ih =>
    rw [grouped] at ih
    have proper : (positional argument).Proper := proper_iff.mpr (congrArg Prod.fst alone)
    exact ih.cons (.positional argument) proper
  | case3 argument rest flag value joined groups lacking grouped ih =>
    rw [grouped] at ih
    obtain rfl := Options.of_split_some joined
    exact ih.cons (.joined flag value) nofun
  | case4 argument flag named =>
    obtain rfl := Options.of_split_none named
    exact ⟨rfl, nofun⟩
  | case5 argument flag named value rest groups lacking grouped ih =>
    rw [grouped] at ih
    obtain rfl := Options.of_split_none named
    exact ih.cons (.apart flag value) nofun

/-- What a flag is set to by a group, if it is. -/
def value? (flag : Flag) (group : Group) : Option String :=
  group.setting?.bind fun (other, value) => if other = flag then some value else none

/-- All that a flag is set to, in order. -/
def values (flag : Flag) (groups : List Group) : List String := groups.filterMap (value? flag)

end Group

def ColorMode.name : ColorMode → String
  | .auto => "auto"
  | .always => "always"
  | .never => "never"

def Layout.name : Layout → String
  | .human => "human"
  | .short => "short"

/-- A text is a depth: decimal digits, perhaps behind a plus sign, for a number that is not zero and
has at most sixty-four bits. -/
def IsDepth (text : String) (depth : Nat) : Prop :=
  ∃ sign digits, (sign = [] ∨ sign = ['+']) ∧ text.toList = sign ++ digits ∧ digits ≠ [] ∧
    (∀ digit ∈ digits, digit.isDigit) ∧ Nat.ofDigitChars 10 digits 0 = depth ∧
      1 ≤ depth ∧ depth ≤ 2 ^ 64 - 1

/-- The values that a flag may have. -/
def Flag.Accepts : Flag → String → Prop
  | .color, value => value ∈ ["auto", "always", "never"]
  | .errorFormat, value => value ∈ ["human", "short"]
  | .maxCallDepth, value => ∃ depth, IsDepth value depth

/-- A group that sets a flag sets it to a value that it may have. -/
def Group.Valid (group : Group) : Prop :=
  ∀ flag value, group.setting? = some (flag, value) → flag.Accepts value

namespace Options

/-- The options are as they were set last, or else as they are by default. -/
structure Sets (options : Options) (groups : List Group) : Prop where
  color : options.color.name = (Group.values .color groups).getLast?.getD "auto"
  layout : options.layout.name = (Group.values .errorFormat groups).getLast?.getD "human"
  depth : Option.Rel IsDepth (Group.values .maxCallDepth groups).getLast? options.maxDepth

/-- What is left without a plus sign in front. -/
def unsigned : List Char → List Char
  | '+' :: digits => digits
  | digits => digits

theorem unsigned_eq (text : List Char) :
    ∃ sign, (sign = [] ∨ sign = ['+']) ∧ text = sign ++ unsigned text := by
  unfold unsigned
  split
  next digits => exact ⟨['+'], .inr rfl, rfl⟩
  next => exact ⟨[], .inl rfl, rfl⟩

theorem unsigned_append {sign digits : List Char} (signed : sign = [] ∨ sign = ['+'])
    (decimal : ∀ digit ∈ digits, digit.isDigit) : unsigned (sign ++ digits) = digits := by
  rcases signed with rfl | rfl
  · rw [List.nil_append]
    unfold unsigned
    split
    next => cases decimal '+' List.mem_cons_self
    next => rfl
  · rfl

theorem depth?_eq (text : String) : depth? text =
    if (unsigned text.toList).isEmpty || !(unsigned text.toList).all Char.isDigit then none
    else
      let depth := (Decimal.ofDigits (unsigned text.toList) []).digits
      if 0 < depth ∧ depth < Nat.pow 2 64 then some depth else none := rfl

theorem depth?_eq_some {text : String} {depth : Nat} :
    depth? text = some depth ↔ IsDepth text depth := by
  have bits : Nat.pow 2 64 = 2 ^ 64 := rfl
  simp only [depth?_eq, Decimal.ofDigits_eq, List.append_nil, bits]
  constructor
  · intro read
    obtain ⟨sign, signed, spelled⟩ := unsigned_eq text.toList
    split at read
    next => cases read
    next decimal =>
      split at read
      next within =>
        simp only [Bool.or_eq_true, Bool.not_eq_true', not_or, List.isEmpty_iff,
          Bool.not_eq_false, List.all_eq_true] at decimal
        exact ⟨sign, _, signed, spelled, decimal.1, decimal.2, Option.some.inj read, by
          obtain rfl := Option.some.inj read
          omega⟩
      next => cases read
  · rintro ⟨sign, digits, signed, spelled, filled, decimal, rfl, positive, small⟩
    rw [spelled, unsigned_append signed decimal, if_neg (by simp_all), if_pos ⟨positive, by omega⟩]

theorem ofName?_eq_some_color {text : String} {mode : ColorMode} :
    ColorMode.ofName? text = some mode ↔ text = mode.name := by
  constructor
  · intro found
    unfold ColorMode.ofName? at found
    split at found <;> cases found <;> rfl
  · rintro rfl
    cases mode <;> rfl

theorem ofName?_eq_some_layout {text : String} {layout : Layout} :
    Layout.ofName? text = some layout ↔ text = layout.name := by
  constructor
  · intro found
    unfold Layout.ofName? at found
    split at found <;> cases found <;> rfl
  · rintro rfl
    cases layout <;> rfl

/-- Whether a flag may have a value does not depend on the options so far. -/
theorem set?_isSome (options : Options) {flag : Flag} {value : String} :
    (∃ after, options.set? flag value = some after) ↔ flag.Accepts value := by
  cases flag with
  | color =>
    simp only [set?, Option.map_eq_some_iff, ofName?_eq_some_color]
    constructor
    · rintro ⟨_, mode, rfl, rfl⟩
      cases mode <;> simp [Flag.Accepts, ColorMode.name]
    · intro accepted
      have named : ∃ mode : ColorMode, value = mode.name := by
        simp only [Flag.Accepts, List.mem_cons, List.not_mem_nil, or_false] at accepted
        rcases accepted with rfl | rfl | rfl
        · exact ⟨.auto, rfl⟩
        · exact ⟨.always, rfl⟩
        · exact ⟨.never, rfl⟩
      obtain ⟨mode, rfl⟩ := named
      exact ⟨_, mode, rfl, rfl⟩
  | errorFormat =>
    simp only [set?, Option.map_eq_some_iff, ofName?_eq_some_layout]
    constructor
    · rintro ⟨_, layout, rfl, rfl⟩
      cases layout <;> simp [Flag.Accepts, Layout.name]
    · intro accepted
      have named : ∃ layout : Layout, value = layout.name := by
        simp only [Flag.Accepts, List.mem_cons, List.not_mem_nil, or_false] at accepted
        rcases accepted with rfl | rfl
        · exact ⟨.human, rfl⟩
        · exact ⟨.short, rfl⟩
      obtain ⟨layout, rfl⟩ := named
      exact ⟨_, layout, rfl, rfl⟩
  | maxCallDepth =>
    simp only [set?, Option.map_eq_some_iff, depth?_eq_some]
    constructor
    · rintro ⟨_, depth, isDepth, -⟩
      exact ⟨depth, isDepth⟩
    · rintro ⟨depth, isDepth⟩
      exact ⟨_, depth, isDepth, rfl⟩

/-- What a group does to the options. -/
def take (options : Options) (group : Group) : Except Failure Options :=
  match group.setting? with
  | none => .ok options
  | some (flag, value) => options.set flag value

/-- What arguments come to that are read in these groups. -/
def outcome (options : Options) (groups : List Group) (lacking : Option Flag) :
    Except Failure (Options × List String) :=
  (groups.foldlM take options).bind fun options =>
    match lacking with
    | none => .ok (options, groups.filterMap Group.text?)
    | some flag => .error (.missingValue flag)

theorem outcome_positional (options : Options) (text : String) (groups : List Group)
    (lacking : Option Flag) : outcome options (.positional text :: groups) lacking =
      (outcome options groups lacking).map fun (options, texts) => (options, text :: texts) := by
  simp only [outcome, List.foldlM_cons, take, Group.setting?, bind, Except.bind]
  cases groups.foldlM take options with
  | error failure => rfl
  | ok options => cases lacking <;> rfl

theorem outcome_setting (options : Options) {group : Group} {flag : Flag} {value : String}
    (setting : group.setting? = some (flag, value)) (groups : List Group) (lacking : Option Flag) :
    outcome options (group :: groups) lacking =
      (options.set flag value).bind fun options => outcome options groups lacking := by
  have noText : group.text? = none := by cases group <;> first | rfl | cases setting
  simp only [outcome, List.foldlM_cons, take, setting, bind, Except.bind]
  cases options.set flag value with
  | error failure => rfl
  | ok options => simp [noText]

theorem read_spell (options : Options) (positional : Array String) {groups : List Group}
    (lacking : Option Flag) (proper : ∀ group ∈ groups, group.Proper) :
    read options positional (Group.spell groups lacking) =
      (outcome options groups lacking).map fun (options, texts) =>
        (options, positional.toList ++ texts) := by
  induction groups generalizing options positional with
  | nil =>
    cases lacking with
    | none => simp [Group.spell, read, outcome, pure, Except.pure, Except.bind, Except.map]
    | some flag =>
      simp [Group.spell, read, split_name, outcome, pure, Except.pure, Except.bind, Except.map]
  | cons group groups ih =>
    obtain ⟨first, rest⟩ := List.forall_mem_cons.mp proper
    cases group with
    | positional text =>
      have alone : split text = (none, (split text).2) :=
        Prod.ext (Group.proper_iff.mp first) rfl
      show read options positional (text :: Group.spell groups lacking) = _
      rw [read, alone, outcome_positional]
      simp only [ih _ _ rest]
      cases outcome options groups lacking <;> simp [Except.map]
    | joined flag value =>
      show read options positional ((flag.name ++ "=" ++ value) :: Group.spell groups lacking) = _
      rw [read, split_joined, outcome_setting options rfl]
      cases set : options.set flag value with
      | error failure => simp only [set]; rfl
      | ok options => simp only [set, ih _ _ rest]; rfl
    | apart flag value =>
      show read options positional (flag.name :: value :: Group.spell groups lacking) = _
      rw [read, split_name, outcome_setting options rfl]
      cases set : options.set flag value with
      | error failure => simp only [set]; rfl
      | ok options => simp only [set, ih _ _ rest]; rfl

theorem set_eq_ok {options after : Options} {flag : Flag} {value : String} :
    options.set flag value = .ok after ↔ options.set? flag value = some after := by
  unfold set
  split <;> simp_all

theorem values_append (flag : Flag) (groups : List Group) (group : Group) :
    Group.values flag (groups ++ [group]) =
      Group.values flag groups ++ (group.value? flag).toList := by
  cases value : group.value? flag <;> simp [Group.values, value]

/-- One more group sets no option but its own. -/
theorem Sets.take {options after : Options} {groups : List Group} {group : Group}
    (sets : options.Sets groups) (taken : take options group = .ok after) :
    after.Sets (groups ++ [group]) := by
  obtain ⟨color, layout, depth⟩ := sets
  unfold Options.take at taken
  cases setting : group.setting? with
  | none =>
    rw [setting] at taken
    obtain rfl := Except.ok.inj taken
    constructor
    all_goals simp [values_append, Group.value?, setting, color, layout, depth]
  | some entry =>
    obtain ⟨flag, value⟩ := entry
    rw [setting] at taken
    have set := set_eq_ok.mp taken
    cases flag with
    | color =>
      obtain ⟨mode, named, rfl⟩ := Option.map_eq_some_iff.mp set
      obtain rfl := ofName?_eq_some_color.mp named
      constructor
      all_goals simp [values_append, Group.value?, setting, layout, depth]
    | errorFormat =>
      obtain ⟨mode, named, rfl⟩ := Option.map_eq_some_iff.mp set
      obtain rfl := ofName?_eq_some_layout.mp named
      constructor
      all_goals simp [values_append, Group.value?, setting, color, depth]
    | maxCallDepth =>
      obtain ⟨limit, read, rfl⟩ := Option.map_eq_some_iff.mp set
      have isDepth := depth?_eq_some.mp read
      constructor
      all_goals simp [values_append, Group.value?, setting, color, layout, isDepth]

theorem sets_of_taken {groups : List Group} {options : Options}
    (taken : groups.foldlM take default = .ok options) : options.Sets groups := by
  induction groups using List.reverseRecOn generalizing options with
  | nil =>
    obtain rfl := Except.ok.inj taken
    exact ⟨rfl, rfl, .none⟩
  | append_singleton groups group ih =>
    rw [List.foldlM_append] at taken
    cases before : groups.foldlM take default with
    | error failure => simp [before, bind, Except.bind] at taken
    | ok middle =>
      refine (ih before).take (Eq.trans ?_ taken)
      rw [before]
      exact (bind_pure _).symm

theorem Sets.unique {options other : Options} {groups : List Group} (sets : options.Sets groups)
    (again : other.Sets groups) : options = other := by
  have color : options.color = other.color := by
    have named := ofName?_eq_some_color.mpr (sets.color.trans again.color.symm)
    exact Option.some.inj ((ofName?_eq_some_color.mpr rfl).symm.trans named)
  have layout : options.layout = other.layout := by
    have named := ofName?_eq_some_layout.mpr (sets.layout.trans again.layout.symm)
    exact Option.some.inj ((ofName?_eq_some_layout.mpr rfl).symm.trans named)
  have depth : options.maxDepth = other.maxDepth := by
    have first := sets.depth
    have second := again.depth
    generalize (Group.values .maxCallDepth groups).getLast? = last at first second
    generalize options.maxDepth = limit at first ⊢
    generalize other.maxDepth = limit' at second ⊢
    cases first with
    | none => cases second; rfl
    | some isDepth =>
      cases second with
      | some isDepth' =>
        exact (depth?_eq_some.mpr isDepth).symm.trans (depth?_eq_some.mpr isDepth')
  obtain ⟨_, _, _⟩ := options
  obtain ⟨_, _, _⟩ := other
  simp_all

theorem take_cases (options : Options) (group : Group) :
    (group.Valid ∧ ∃ after, take options group = .ok after) ∨
      ∃ flag value, group.setting? = some (flag, value) ∧ ¬flag.Accepts value ∧
        take options group = .error (.invalidFlag flag value) := by
  unfold take Group.Valid
  cases setting : group.setting? with
  | none => exact .inl ⟨nofun, options, rfl⟩
  | some entry =>
    obtain ⟨flag, value⟩ := entry
    simp only [set]
    cases set : options.set? flag value with
    | none =>
      have refused : ¬flag.Accepts value := by
        rw [← set?_isSome options, set]
        nofun
      exact .inr ⟨flag, value, rfl, refused, rfl⟩
    | some after =>
      refine .inl ⟨?_, after, rfl⟩
      rintro _ _ ⟨⟩
      exact (set?_isSome options).mp ⟨after, set⟩

/-- A group that is not valid is at fault if it is the first, and a flag that lacks its value is if
there is no such group. -/
inductive Faulty : List Group → Option Flag → Failure → Prop where
  | invalid (before : List Group) {after : List Group} {group : Group} {flag : Flag}
    {value : String} {lacking : Option Flag} (valid : ∀ other ∈ before, other.Valid)
    (setting : group.setting? = some (flag, value)) (refused : ¬flag.Accepts value) :
    Faulty (before ++ group :: after) lacking (.invalidFlag flag value)
  | missing {groups : List Group} {flag : Flag} (valid : ∀ group ∈ groups, group.Valid) :
    Faulty groups (some flag) (.missingValue flag)

theorem taken_of_valid {groups : List Group} (valid : ∀ group ∈ groups, group.Valid)
    (options : Options) : ∃ after, groups.foldlM take options = .ok after := by
  induction groups generalizing options with
  | nil => exact ⟨options, rfl⟩
  | cons group groups ih =>
    obtain ⟨first, rest⟩ := List.forall_mem_cons.mp valid
    rcases take_cases options group with ⟨-, middle, taken⟩ | ⟨flag, value, setting, refused, -⟩
    · obtain ⟨after, taken'⟩ := ih rest middle
      exact ⟨after, by rw [List.foldlM_cons, taken]; exact taken'⟩
    · exact absurd (first flag value setting) refused

theorem Faulty.stops {groups : List Group} {lacking : Option Flag} {failure : Failure}
    (faulty : Faulty groups lacking failure) (options : Options) :
    outcome options groups lacking = .error failure := by
  cases faulty with
  | @invalid before _ group flag value _ valid setting refused =>
    obtain ⟨middle, taken⟩ := taken_of_valid valid options
    rcases take_cases middle group with ⟨valid, -⟩ | ⟨flag', value', setting', -, stopped⟩
    · exact absurd (valid flag value setting) refused
    · obtain ⟨rfl, rfl⟩ := Prod.mk.inj (Option.some.inj (setting.symm.trans setting'))
      simp [outcome, taken, stopped, bind, Except.bind]
  | missing valid =>
    obtain ⟨after, taken⟩ := taken_of_valid valid options
    rw [outcome, taken]
    rfl

theorem faulty_or_valid (groups : List Group) (lacking : Option Flag) :
    (∃ failure, Faulty groups lacking failure) ∨
      (lacking = none ∧ ∀ group ∈ groups, group.Valid) := by
  induction groups with
  | nil =>
    cases lacking with
    | none => exact .inr ⟨rfl, nofun⟩
    | some flag => exact .inl ⟨_, .missing nofun⟩
  | cons group groups ih =>
    by_cases first : group.Valid
    · rcases ih with ⟨failure, faulty⟩ | ⟨rfl, valid⟩
      · refine .inl ⟨failure, ?_⟩
        cases faulty with
        | invalid before valid setting refused =>
          exact .invalid (group :: before) (List.forall_mem_cons.mpr ⟨first, valid⟩) setting refused
        | missing valid => exact .missing (List.forall_mem_cons.mpr ⟨first, valid⟩)
      · exact .inr ⟨rfl, List.forall_mem_cons.mpr ⟨first, valid⟩⟩
    · simp only [Group.Valid, not_forall] at first
      obtain ⟨flag, value, setting, refused⟩ := first
      exact .inl ⟨_, .invalid [] nofun setting refused⟩

theorem mem_values {flag : Flag} {value : String} {groups : List Group} :
    value ∈ Group.values flag groups ↔ ∃ group ∈ groups, group.setting? = some (flag, value) := by
  simp only [Group.values, List.mem_filterMap, Group.value?, Option.bind_eq_some_iff, Prod.exists]
  refine exists_congr fun group => and_congr_right fun _ => ?_
  constructor
  · rintro ⟨other, text, setting, taken⟩
    split at taken
    next same =>
      obtain rfl := Option.some.inj taken
      rw [setting, same]
    next => cases taken
  · exact fun setting => ⟨flag, value, setting, if_pos rfl⟩

theorem valid_iff {groups : List Group} : (∀ group ∈ groups, group.Valid) ↔
    ∀ flag, ∀ value ∈ Group.values flag groups, flag.Accepts value := by
  simp only [mem_values]
  constructor
  · rintro valid flag value ⟨group, member, setting⟩
    exact valid group member flag value setting
  · exact fun accepted group member flag value setting =>
      accepted flag value ⟨group, member, setting⟩

/-- Groups that say the same: what is positional in them is the same, and each flag has the same
values. -/
structure Alike (groups other : List Group) : Prop where
  texts : groups.filterMap Group.text? = other.filterMap Group.text?
  values : ∀ flag, Group.values flag groups = Group.values flag other

/-- All that groups can come to. -/
inductive Comes (groups : List Group) (lacking : Option Flag) :
    Except Failure (Options × List String) → Prop where
  | ok {options : Options} (complete : lacking = none) (valid : ∀ group ∈ groups, group.Valid)
    (sets : options.Sets groups) : Comes groups lacking (.ok (options, groups.filterMap Group.text?))
  | error {failure : Failure} (faulty : Faulty groups lacking failure) :
    Comes groups lacking (.error failure)

theorem comes (groups : List Group) (lacking : Option Flag) :
    Comes groups lacking (outcome default groups lacking) := by
  rcases faulty_or_valid groups lacking with ⟨failure, faulty⟩ | ⟨rfl, valid⟩
  · rw [faulty.stops]
    exact .error faulty
  · obtain ⟨options, taken⟩ := taken_of_valid valid default
    rw [outcome, taken]
    exact .ok rfl valid (sets_of_taken taken)

theorem Faulty.not_valid {groups : List Group} {lacking : Option Flag} {failure : Failure}
    (faulty : Faulty groups lacking failure) :
    ¬(lacking = none ∧ ∀ group ∈ groups, group.Valid) := by
  rintro ⟨rfl, valid⟩
  cases faulty with
  | invalid _ _ setting refused =>
    exact refused (valid _ (List.mem_append_right _ List.mem_cons_self) _ _ setting)

theorem Alike.symm {groups other : List Group} (alike : Alike groups other) : Alike other groups :=
  ⟨alike.texts.symm, fun flag => (alike.values flag).symm⟩

theorem Alike.outcome {groups other : List Group} (alike : Alike groups other)
    (lacking : Option Flag) :
    (outcome default groups lacking).toOption = (outcome default other lacking).toOption := by
  have valid : (∀ group ∈ groups, group.Valid) ↔ ∀ group ∈ other, group.Valid := by
    simp only [valid_iff, alike.values]
  have first := comes groups lacking
  have second := comes other lacking
  generalize Options.outcome default groups lacking = result at first ⊢
  generalize Options.outcome default other lacking = result' at second ⊢
  cases first with
  | ok complete all sets =>
    cases second with
    | ok _ _ sets' =>
      have same := sets.unique ⟨alike.values _ ▸ sets'.color, alike.values _ ▸ sets'.layout,
        alike.values _ ▸ sets'.depth⟩
      rw [same, alike.texts]
    | error faulty => exact absurd ⟨complete, valid.mp all⟩ faulty.not_valid
  | error faulty =>
    cases second with
    | ok complete all _ => exact absurd ⟨complete, valid.mpr all⟩ faulty.not_valid
    | error => rfl

theorem ofArguments_spell {groups : List Group} (lacking : Option Flag)
    (proper : ∀ group ∈ groups, group.Proper) :
    ofArguments (Group.spell groups lacking) = outcome default groups lacking := by
  rw [ofArguments, read_spell _ _ _ proper]
  cases outcome default groups lacking <;> rfl

end Options

namespace Group

/-- A group that sets a flag has moved behind groups that do not set this flag. -/
inductive Moved : List Group → List Group → Prop where
  | behind {before middle after : List Group} {group : Group} {flag : Flag} {value : String}
    (setting : group.setting? = some (flag, value))
    (others : ∀ other ∈ middle, other.value? flag = none) :
    Moved (before ++ group :: middle ++ after) (before ++ middle ++ group :: after)

theorem Moved.mem_iff {groups other : List Group} (moved : Moved groups other) {group : Group} :
    group ∈ groups ↔ group ∈ other := by
  cases moved
  simp [or_left_comm]

theorem filterMap_moved {α : Type} (part : Group → Option α) {before middle after : List Group}
    {group : Group} (apart : part group = none ∨ ∀ other ∈ middle, part other = none) :
    (before ++ group :: middle ++ after).filterMap part =
      (before ++ middle ++ group :: after).filterMap part := by
  rcases apart with none | none
  · simp [none]
  · have nothing := List.filterMap_eq_nil_iff.mpr none
    simp [nothing, List.filterMap_cons]

theorem Moved.alike {groups other : List Group} (moved : Moved groups other) :
    Options.Alike groups other := by
  obtain @⟨before, middle, after, group, flag, value, setting, others⟩ := moved
  have noText : group.text? = none := by cases group <;> first | rfl | cases setting
  refine ⟨filterMap_moved text? (.inl noText), fun flag' => filterMap_moved (value? flag') ?_⟩
  by_cases same : flag = flag'
  · exact .inr (same ▸ others)
  · exact .inl (by simp [value?, setting, same])

@[simp] theorem text?_other (group : Group) : group.other.text? = group.text? := by
  cases group <;> rfl

@[simp] theorem setting?_other (group : Group) : group.other.setting? = group.setting? := by
  cases group <;> rfl

theorem outcome_other (before after : List Group) (group : Group) (lacking : Option Flag) :
    Options.outcome .default (before ++ group.other :: after) lacking =
      Options.outcome .default (before ++ group :: after) lacking := by
  simp [Options.outcome, Options.take, List.foldlM_append, List.filterMap_cons]

end Group

/-- What can be said of arguments that are read in these groups. -/
structure Understood (arguments : List String) (groups : List Group) (lacking : Option Flag) :
    Prop where
  only : ∀ other last, Group.Reads arguments other last → other = groups ∧ last = lacking
  accepts : (∃ taken, Options.ofArguments arguments = .ok taken) ↔
    lacking = none ∧ ∀ group ∈ groups, group.Valid
  takes : ∀ options positional, Options.ofArguments arguments = .ok (options, positional) →
    options.Sets groups ∧ positional = groups.filterMap Group.text?
  fails : ∀ failure, Options.ofArguments arguments = .error failure ↔
    Options.Faulty groups lacking failure
  reforms : ∀ before group after, groups = before ++ group :: after →
    Options.ofArguments (Group.spell (before ++ group.other :: after) lacking) =
      Options.ofArguments arguments
  moves : ∀ other, Group.Moved groups other ∨ Group.Moved other groups →
    (Options.ofArguments (Group.spell other lacking)).toOption =
      (Options.ofArguments arguments).toOption

/-- All arguments are read in groups, in one way. -/
theorem Options.arguments_are_groups (arguments : List String) :
    ∃ groups lacking, Group.Reads arguments groups lacking ∧
      Understood arguments groups lacking := by
  obtain ⟨groups, lacking, reads⟩ :
      ∃ groups lacking, Group.Reads arguments groups lacking := ⟨_, _, Group.reads_read arguments⟩
  refine ⟨groups, lacking, reads, ?_⟩
  have comes := comes groups lacking
  have result : ofArguments arguments = outcome default groups lacking :=
    reads.spelled ▸ ofArguments_spell lacking reads.proper
  refine ⟨fun other last again => ?_, ?_, ?_, ?_, ?_, ?_⟩
  · obtain ⟨same, same'⟩ := Prod.mk.inj (again.read_eq.symm.trans reads.read_eq)
    exact ⟨same, same'⟩
  · rw [result]
    generalize outcome default groups lacking = taken at comes
    cases comes with
    | ok complete valid => exact ⟨fun _ => ⟨complete, valid⟩, fun _ => ⟨_, rfl⟩⟩
    | error faulty => exact ⟨nofun, fun both => absurd both faulty.not_valid⟩
  · intro options positional taken
    rw [← result, taken] at comes
    cases comes with
    | ok complete valid sets => exact ⟨sets, rfl⟩
  · intro failure
    rw [result]
    constructor
    · intro failed
      rw [failed] at comes
      cases comes with
      | error faulty => exact faulty
    · exact fun faulty => faulty.stops default
  · rintro before group after rfl
    have proper : ∀ member ∈ before ++ group.other :: after, member.Proper := by
      have proper := reads.proper
      simp only [List.forall_mem_append, List.forall_mem_cons] at proper ⊢
      simpa [Group.Proper] using proper
    rw [result, ofArguments_spell lacking proper, Group.outcome_other]
  · intro other moved
    have same : (∀ member, member ∈ groups ↔ member ∈ other) ∧ Alike groups other := by
      rcases moved with moved | moved
      · exact ⟨fun _ => moved.mem_iff, moved.alike⟩
      · exact ⟨fun _ => moved.mem_iff.symm, moved.alike.symm⟩
    have proper : ∀ member ∈ other, member.Proper :=
      fun member inside => reads.proper member ((same.1 member).mpr inside)
    rw [result, ofArguments_spell lacking proper, same.2.outcome]

example : Options.ofArguments
    ["--color", "auto", "run", "--max-call-depth=+07", "a=b", "--color=never"] =
      .ok (⟨.never, .human, some 7⟩, ["run", "a=b"]) := by decide +kernel

end Lox
