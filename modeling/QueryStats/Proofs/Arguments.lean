import QueryStats.Proofs.Settings
import QueryStats.Service

/-!
# Arguments read group by group

A flag and what it takes are a group.  The arguments are read as groups up to the first that is
none, and files of parameters are loaded on the way.  The other groups are put aside until the end,
so that it makes no difference where among the files they stood.
-/

namespace QueryStats

namespace Launch

/-- A flag that gives a parameter its value. -/
inductive Flag where
  | file
  | workers
  | capacity
  | history
  | bucketSeconds
  | shards
  | top
  | logFile
deriving DecidableEq, Repr

namespace Flag

def name : Flag → Text
  | file => utf8 "--file"
  | workers => utf8 "--workers"
  | capacity => utf8 "--qcap"
  | history => utf8 "--history"
  | bucketSeconds => utf8 "--bucket-seconds"
  | shards => utf8 "--shards"
  | top => utf8 "--top"
  | logFile => utf8 "--log-file"

/-- The parameter that the flag is for. -/
def key : Flag → Text
  | file => utf8 "file"
  | workers => utf8 "workers"
  | capacity => utf8 "qcap"
  | history => utf8 "history_elements"
  | bucketSeconds => utf8 "bucket_seconds"
  | shards => utf8 "shards"
  | top => utf8 "top_default"
  | logFile => utf8 "log_file"

end Flag

/-- A flag together with what it takes. -/
inductive Group where
  | config (path : Text)
  | follow
  | value (flag : Flag) (v : Text)
deriving DecidableEq, Repr

namespace Group

def name : Group → Text
  | config _ => utf8 "--config"
  | follow => utf8 "--follow"
  | value flag _ => flag.name

/-- The arguments that make up a group. -/
def words : Group → List Text
  | config path => [utf8 "--config", path]
  | follow => [utf8 "--follow"]
  | value flag v => [flag.name, v]

/-- The file that a group names. -/
def path? : Group → Option Text
  | config path => some path
  | _ => none

/-- The parameter that a group gives. -/
def parameter? : Group → Option (Text × Text)
  | config _ => none
  | follow => some (utf8 "follow", utf8 "true")
  | value flag v => some (flag.key, v)

/-- The value that a group gives a parameter. -/
def value? (key : Text) (g : Group) : Option Text :=
  g.parameter?.bind fun p => if p.1 = key then some p.2 else none

def argument : Group → Argument
  | config path => .config path
  | follow => followArgument
  | value flag v => .setting flag.key v

end Group

/-- The values that groups give a parameter, in their order. -/
def values (key : Text) (gs : List Group) : List Text := gs.filterMap (Group.value? key)

/-- The flags that take the next argument, whatever that is. -/
def TakesValue (a : Text) : Prop := a = utf8 "--config" ∨ ∃ flag : Flag, a = flag.name

abbrev AsksForHelp (a : Text) : Prop := a = utf8 "--help" ∨ a = utf8 "-h"

/-- Why arguments are read no further. -/
inductive Ends : List Text → Ending → Prop where
  | complete : Ends [] .complete
  | help {a : Text} {rest : List Text} : AsksForHelp a → Ends (a :: rest) .help
  | unrecognised {a : Text} {rest : List Text} :
    ¬ TakesValue a → a ≠ utf8 "--follow" → ¬ AsksForHelp a → Ends (a :: rest) .misuse
  | dangling {a : Text} : TakesValue a → Ends [a] .misuse

/-! ## Reading -/

/-- Each flag is found under its name and gives the parameter that it is for. -/
theorem lookup_name (flag : Flag) : valueFlags.lookup flag.name = some (.setting flag.key) := by
  cases flag <;> rfl

/-- No other argument is found among the flags. -/
theorem lookup_eq_none_iff (a : Text) : valueFlags.lookup a = none ↔ ¬ TakesValue a := by
  have hflags : (∃ flag : Flag, a = flag.name) ↔ a = Flag.file.name ∨ a = Flag.workers.name ∨
      a = Flag.capacity.name ∨ a = Flag.history.name ∨ a = Flag.bucketSeconds.name ∨
      a = Flag.shards.name ∨ a = Flag.top.name ∨ a = Flag.logFile.name := by
    constructor
    · rintro ⟨flag, rfl⟩
      cases flag <;> simp
    · rintro (h | h | h | h | h | h | h | h) <;> exact ⟨_, h⟩
  rw [List.lookup_eq_none_iff, TakesValue, hflags]
  simp [valueFlags, Flag.name]

/-- A flag that takes a value is none of those that stand alone. -/
theorem not_follow_of_takesValue {a : Text} (h : TakesValue a) : a ≠ utf8 "--follow" := by
  rcases h with rfl | ⟨flag, rfl⟩
  · decide
  · cases flag <;> decide

/-- A flag that takes a value does not ask for help. -/
theorem not_help_of_takesValue {a : Text} (h : TakesValue a) : ¬ AsksForHelp a := by
  rcases h with rfl | ⟨flag, rfl⟩
  · unfold AsksForHelp
    decide
  · unfold AsksForHelp
    cases flag <;> decide

/-- A flag takes the next argument, whatever that looks like, and reading goes on behind it. -/
theorem read_of_takesValue {a v : Text} {flag : Text → Argument} (h : TakesValue a)
    (hl : valueFlags.lookup a = some flag) (rest : List Text) :
    read (a :: v :: rest) = (flag v :: (read rest).1, (read rest).2) := by
  rw [read.eq_def]
  simp only [if_neg (not_follow_of_takesValue h)]
  rw [if_neg (not_help_of_takesValue h)]
  simp only [hl]

/-- A group in front is read as one, and reading goes on behind it. -/
theorem read_words (g : Group) (rest : List Text) :
    read (g.words ++ rest) = (g.argument :: (read rest).1, (read rest).2) := by
  cases g with
  | config path => exact read_of_takesValue (.inl rfl) rfl rest
  | follow =>
    change read (utf8 "--follow" :: rest) = _
    rw [read.eq_def]
    rfl
  | value flag v => exact read_of_takesValue (.inr ⟨flag, rfl⟩) (lookup_name flag) rest

/-- Where reading ends nothing more is read, and the ending is known. -/
theorem read_of_ends {rest : List Text} {ending : Ending} (h : Ends rest ending) :
    read rest = ([], ending) := by
  cases h with
  | complete => rfl
  | @help a rest ha =>
    have hne : a ≠ utf8 "--follow" := by rcases ha with rfl | rfl <;> decide
    rw [read.eq_def]
    simp only [if_neg hne]
    rw [if_pos ha]
  | @unrecognised a rest hvalue hfollow hhelp =>
    rw [read.eq_def]
    simp only [if_neg hfollow]
    rw [if_neg hhelp]
    simp only [(lookup_eq_none_iff a).2 hvalue]
  | @dangling a ha =>
    rw [read.eq_def]
    simp only [if_neg (not_follow_of_takesValue ha)]
    rw [if_neg (not_help_of_takesValue ha)]
    -- Without a next argument it makes no difference which flag this is.
    cases valueFlags.lookup a <;> rfl

/-- Groups up to an ending are read as they stand. -/
theorem read_groups (gs : List Group) {rest : List Text} {ending : Ending} (h : Ends rest ending) :
    read (gs.flatMap Group.words ++ rest) = (gs.map Group.argument, ending) := by
  induction gs with
  | nil => exact read_of_ends h
  | cons g gs ih => rw [List.flatMap_cons, List.append_assoc, read_words, ih, List.map_cons]

/-- All arguments are groups up to where reading ends. -/
theorem exists_groups (arguments : List Text) :
    ∃ (gs : List Group) (rest : List Text) (ending : Ending),
      arguments = gs.flatMap Group.words ++ rest ∧ Ends rest ending := by
  induction hn : arguments.length using Nat.strongRecOn generalizing arguments with
  | ind n ih =>
    cases arguments with
    | nil => exact ⟨[], [], _, rfl, .complete⟩
    | cons a rest =>
      by_cases hvalue : TakesValue a
      · cases rest with
        | nil => exact ⟨[], [a], _, rfl, .dangling hvalue⟩
        | cons v rest =>
          have hlt : rest.length < n := by
            rw [← hn, List.length_cons, List.length_cons]
            omega
          obtain ⟨gs, rest', ending, rfl, h⟩ := ih rest.length hlt rest rfl
          rcases hvalue with rfl | ⟨flag, rfl⟩
          · exact ⟨.config v :: gs, rest', ending, rfl, h⟩
          · exact ⟨.value flag v :: gs, rest', ending, rfl, h⟩
      · by_cases hfollow : a = utf8 "--follow"
        · obtain ⟨gs, rest', ending, rfl, h⟩ := ih rest.length (by simp [← hn]) rest rfl
          exact ⟨.follow :: gs, rest', ending, by rw [hfollow]; rfl, h⟩
        · by_cases hhelp : AsksForHelp a
          · exact ⟨[], a :: rest, _, rfl, .help hhelp⟩
          · exact ⟨[], a :: rest, _, rfl, .unrecognised hvalue hfollow hhelp⟩

/-! ## Files -/

/-- Files of parameters are loaded one after the other, each as it is found after what was reported
of those before it. -/
inductive Loads : Journal → List Text → List Parameters → Journal → Prop where
  | nil {j : Journal} : Loads j [] [] j
  | cons {j j' : Journal} {path t : Text} {paths : List Text} {ps : Parameters}
    {files : List Parameters} :
    j.directory.read? path = some t → Parameters.ofText t = .ok ps →
    Loads (j.report (Config.refusals ps.toList)) paths files j' →
    Loads j (path :: paths) (ps :: files) j'

/-- The configuration with the parameters of files, one file after the other. -/
def applyAll (c : Config) (files : List Parameters) : Config :=
  files.foldl (fun c ps => c.apply ps.toList) c

/-- A file cannot be loaded, of which there is something to report. -/
inductive Fails (j : Journal) (path : Text) : List Message → Prop where
  | unreadable : j.directory.read? path = none → Fails j path [.configUnreadable path]
  | malformed {t : Text} {bad : BadLine} :
    j.directory.read? path = some t → Parameters.ofText t = .error bad →
    Fails j path [bad.message, .configMalformed path]

/-- Files that can be loaded are loaded, and loading goes on with those behind them. -/
theorem loadAll_of_loads {j j' : Journal} {paths : List Text} {files : List Parameters}
    (h : Loads j paths files j') (c : Config) (rest : List Text) :
    loadAll j c (paths ++ rest) = loadAll j' (applyAll c files) rest := by
  induction h generalizing c with
  | nil => rfl
  | cons hread hps _ ih =>
    rw [List.cons_append, loadAll, hread]
    simp only [Config.load, Option.map_some, hps, if_true]
    exact ih _

/-- A file that cannot be loaded is reported and stops the loading. -/
theorem loadAll_of_fails {j : Journal} {path : Text} {ms : List Message} (h : Fails j path ms)
    (c : Config) (rest : List Text) : loadAll j c (path :: rest) = (j.report ms, none) := by
  rw [loadAll]
  cases h with
  | unreadable hread =>
    simp only [hread, Config.load, Option.map_none, Bool.false_eq_true, if_false]
  | malformed hread hbad =>
    simp only [hread, Config.load, Option.map_some, hbad, Bool.false_eq_true, if_false]

/-- Files are loaded, all of them or those before the first that cannot be loaded. -/
theorem exists_loads (j : Journal) (paths : List Text) :
    (∃ files j', Loads j paths files j') ∨
    ∃ front path back files j' ms, paths = front ++ path :: back ∧ Loads j front files j' ∧
      Fails j' path ms := by
  induction paths generalizing j with
  | nil => exact .inl ⟨[], j, .nil⟩
  | cons path paths ih =>
    cases hread : j.directory.read? path with
    | none => exact .inr ⟨[], path, paths, [], j, _, rfl, .nil, .unreadable hread⟩
    | some t =>
      cases hps : Parameters.ofText t with
      | error bad => exact .inr ⟨[], path, paths, [], j, _, rfl, .nil, .malformed hread hps⟩
      | ok ps =>
        rcases ih (j.report (Config.refusals ps.toList)) with
          ⟨files, j', h⟩ | ⟨front, path', back, files, j', ms, rfl, h, hfails⟩
        · exact .inl ⟨ps :: files, j', .cons hread hps h⟩
        · exact .inr ⟨path :: front, path', back, ps :: files, j', ms, rfl, .cons hread hps h,
            hfails⟩

/-! ## What comes of the arguments -/

/-- Prints how the program is called, under the name that it was called by, and does nothing
else. -/
structure PrintsUsage (program : Text) (j j' : Journal) : Prop where
  stderr : j'.stderr = j.stderr ++ (utf8 "Usage: " ++ program
    ++ utf8 " [--config <file>] [--file <querylog.json>] [--follow]"
    ++ utf8 " [--workers N] [--qcap N] [--history N] [--bucket-seconds N] [--shards N]"
    ++ utf8 " [--top N] [--log-file <path>]\n")
  path : j'.path = j.path
  directory : j'.directory = j.directory

/-- The text that the service prints is the one above. -/
theorem printsUsage_print (program : Text) (j : Journal) :
    PrintsUsage program j (j.print (usage program)) :=
  ⟨rfl, rfl, rfl⟩

/-- There is only one journal that comes of printing the usage. -/
theorem PrintsUsage.eq_print {program : Text} {j j' : Journal} (h : PrintsUsage program j j') :
    j' = j.print (usage program) := by
  obtain ⟨stderr, path, directory⟩ := j'
  obtain ⟨rfl, rfl, rfl⟩ := h
  rfl

/-- What comes of the arguments `rest` after groups, when files have led to a configuration.  At the
end of the arguments the last value of each parameter among the groups is applied. -/
inductive Yields (program : Text) (j : Journal) (c : Config) (gs : List Group) :
    List Text → Journal × Except Nat Config → Prop where
  | complete {flags : Parameters} : (∀ key, flags[key]? = (values key gs).getLast?) →
    Yields program j c gs [] (j.report (Config.refusals flags.toList), .ok (c.apply flags.toList))
  | help {rest : List Text} {j' : Journal} : Ends rest .help → PrintsUsage program j j' →
    Yields program j c gs rest (j', .error 0)
  | misuse {rest : List Text} {j' : Journal} : Ends rest .misuse → PrintsUsage program j j' →
    Yields program j c gs rest (j', .error 1)
  | unloadable {path : Text} {rest : List Text} {ms : List Message} : Fails j path ms →
    Yields program j c gs (utf8 "--config" :: path :: rest) (j.report ms, .error 1)

/-- What a journal and arguments lead to, read from left to right. -/
def Scans (program : Text) (j : Journal) (arguments : List Text)
    (r : Journal × Except Nat Config) : Prop :=
  ∃ (gs : List Group) (rest : List Text) (files : List Parameters) (j' : Journal),
    arguments = gs.flatMap Group.words ++ rest ∧ Loads j (gs.filterMap Group.path?) files j' ∧
    Yields program j' (applyAll {} files) gs rest r

/-- The paths among arguments are those of the groups. -/
theorem configPaths_map (gs : List Group) :
    configPaths (gs.map Group.argument) = gs.filterMap Group.path? := by
  rw [configPaths, List.filterMap_map]
  congr 1
  funext g
  cases g <;> rfl

/-- In pairs turned round a look-up finds the last value of a key. -/
theorem lookup_reverse (key : Text) (ps : List (Text × Text)) :
    ps.reverse.lookup key =
      (ps.filterMap fun p => if p.1 = key then some p.2 else none).getLast? := by
  induction ps using List.reverseRecOn with
  | nil => rfl
  | append_singleton ps p ih =>
    obtain ⟨k, v⟩ := p
    by_cases h : k = key
    · subst h
      simp
    · have hbeq : (key == k) = false := by simpa using Ne.symm h
      simp [h, hbeq, List.lookup_cons, ih]

/-- The parameters among arguments are those of the groups. -/
theorem settings_map (gs : List Group) :
    settings (gs.map Group.argument) = Parameters.ofPairs (gs.filterMap Group.parameter?) := by
  rw [settings, List.filterMap_map]
  congr 2
  funext g
  cases g <;> rfl

/-- Of several groups for one parameter the last one counts. -/
theorem getElem?_settings (gs : List Group) (key : Text) :
    (settings (gs.map Group.argument))[key]? = (values key gs).getLast? := by
  rw [settings_map, Parameters.getElem?_ofPairs, lookup_reverse, List.filterMap_filterMap]
  rfl

/-! ## Other orders -/

/-- Groups of each name come in the same order; those of different names need not. -/
def Rearranged (gs gs' : List Group) : Prop :=
  ∀ name, gs.filter (·.name = name) = gs'.filter (·.name = name)

/-- No two flags are for the same parameter. -/
theorem Flag.key_injective : Function.Injective Flag.key := by
  intro flag flag' h
  cases flag <;> cases flag' <;> simp [key] at h <;> rfl

/-- The flag that stands alone has a parameter of its own. -/
theorem Flag.key_ne_follow (flag : Flag) : flag.key ≠ utf8 "follow" := by
  cases flag <;> simp [key]

/-- A group gives a key a value exactly if both are the parameter that it gives. -/
theorem Group.value?_eq_some_iff {key v : Text} {g : Group} :
    g.value? key = some v ↔ g.parameter? = some (key, v) := by
  cases h : g.parameter? with
  | none => simp [value?, h]
  | some p => simp [value?, h, Prod.ext_iff]

/-- Groups that give the same parameter a value have the same name. -/
theorem Group.name_eq_of_parameter? {g g' : Group} {key v v' : Text}
    (h : g.parameter? = some (key, v)) (h' : g'.parameter? = some (key, v')) :
    g.name = g'.name := by
  cases g with
  | config => simp [parameter?] at h
  | follow =>
    obtain ⟨rfl, -⟩ : utf8 "follow" = key ∧ _ := by simpa [parameter?] using h
    cases g' with
    | config => simp [parameter?] at h'
    | follow => rfl
    | value flag' => simp [parameter?, flag'.key_ne_follow] at h'
  | value flag =>
    obtain ⟨rfl, -⟩ : flag.key = key ∧ _ := by simpa [parameter?] using h
    cases g' with
    | config => simp [parameter?] at h'
    | follow => simp [parameter?, Ne.symm flag.key_ne_follow] at h'
    | value flag' =>
      obtain ⟨hkey, -⟩ : flag'.key = flag.key ∧ _ := by simpa [parameter?] using h'
      rw [name, name, Flag.key_injective hkey]

namespace Rearranged

variable {gs gs' : List Group}

/-- What only groups of one name have comes in the same order. -/
theorem filterMap_eq {β : Type} {f : Group → Option β} (h : Rearranged gs gs') (name : Text)
    (hf : ∀ g, (f g).isSome → g.name = name) : gs.filterMap f = gs'.filterMap f := by
  have hfilter : ∀ hs : List Group, (hs.filter (·.name = name)).filterMap f = hs.filterMap f := by
    intro hs
    rw [List.filterMap_filter]
    congr 1
    funext g
    by_cases hname : g.name = name
    · simp [hname]
    · cases hg : f g with
      | none => simp
      | some b => exact absurd (hf g (by simp [hg])) hname
  rw [← hfilter gs, h name, hfilter gs']

/-- The files keep their order, since all of them come under one name. -/
theorem paths_eq (h : Rearranged gs gs') :
    gs.filterMap Group.path? = gs'.filterMap Group.path? := by
  refine h.filterMap_eq (utf8 "--config") fun g hg => ?_
  cases g with
  | config => rfl
  | follow => simp [Group.path?] at hg
  | value => simp [Group.path?] at hg

/-- The values of one parameter keep their order, since they come under one name. -/
theorem values_eq (h : Rearranged gs gs') (key : Text) : values key gs = values key gs' := by
  by_cases hkey : ∃ g v, Group.parameter? g = some (key, v)
  · obtain ⟨g, v, hg⟩ := hkey
    refine h.filterMap_eq g.name fun g' hg' => ?_
    obtain ⟨v', hv'⟩ := Option.isSome_iff_exists.1 hg'
    exact Group.name_eq_of_parameter? (Group.value?_eq_some_iff.1 hv') hg
  · refine h.filterMap_eq [] fun g' hg' => ?_
    obtain ⟨v', hv'⟩ := Option.isSome_iff_exists.1 hg'
    exact absurd ⟨g', v', Group.value?_eq_some_iff.1 hv'⟩ hkey

/-- The last value of every parameter is the same. -/
theorem settings_eq (h : Rearranged gs gs') :
    settings (gs.map Group.argument) = settings (gs'.map Group.argument) :=
  Std.ExtTreeMap.ext_getElem? fun key => by
    rw [getElem?_settings, getElem?_settings, h.values_eq]

end Rearranged

end Launch

namespace Service

open Launch

variable {program : Text}

/-- What the arguments are said to lead to is what the service makes of them. -/
theorem configure_of_scans {j : Journal} {arguments : List Text} {r : Journal × Except Nat Config}
    (h : Scans program j arguments r) : configure program arguments j = r := by
  obtain ⟨gs, rest, files, j', rfl, hloads, hyields⟩ := h
  have hload := loadAll_of_loads hloads {}
  have hall : loadAll j {} (gs.filterMap Group.path?) = (j', some (applyAll {} files)) := by
    simpa [loadAll] using hload []
  cases hyields with
  | @complete flags hflags =>
    have hsettings : settings (gs.map Group.argument) = flags :=
      Std.ExtTreeMap.ext_getElem? fun key => (getElem?_settings gs key).trans (hflags key).symm
    rw [configure, read_groups gs .complete]
    simp only [Launch.configure, configPaths_map, hall, hsettings]
  | help hends husage =>
    rw [configure, read_groups gs hends, husage.eq_print]
    simp only [configPaths_map, hall]
    rfl
  | misuse hends husage =>
    rw [configure, read_groups gs hends, husage.eq_print]
    simp only [configPaths_map, hall]
    rfl
  | @unloadable path rest ms hfails =>
    obtain ⟨gs', rest', ending, hrest, hends⟩ := exists_groups rest
    have hargs : gs.flatMap Group.words ++ utf8 "--config" :: path :: rest =
        (gs ++ Group.config path :: gs').flatMap Group.words ++ rest' := by
      simp [hrest, Group.words]
    have hnone : loadAll j {} ((gs ++ Group.config path :: gs').filterMap Group.path?) =
        (j'.report ms, none) := by
      rw [List.filterMap_append, List.filterMap_cons_some (f := Group.path?) rfl, hload]
      exact loadAll_of_fails hfails _ _
    rw [hargs, configure, read_groups _ hends]
    cases ending <;> simp only [Launch.configure, configPaths_map, hnone]

/-- Every list of arguments leads to something. -/
theorem exists_scans (program : Text) (j : Journal) (arguments : List Text) :
    ∃ r, Scans program j arguments r := by
  obtain ⟨gs, rest, ending, rfl, hends⟩ := exists_groups arguments
  rcases exists_loads j (gs.filterMap Group.path?) with
    ⟨files, j', hloads⟩ | ⟨front, path, back, files, j', ms, hpaths, hloads, hfails⟩
  · cases ending with
    | complete =>
      cases hends
      exact ⟨_, gs, [], files, j', rfl, hloads, .complete (getElem?_settings gs)⟩
    | help => exact ⟨_, gs, rest, files, j', rfl, hloads, .help hends (printsUsage_print _ j')⟩
    | misuse =>
      exact ⟨_, gs, rest, files, j', rfl, hloads, .misuse hends (printsUsage_print _ j')⟩
  · obtain ⟨gs₁, gs₂, rfl, rfl, hback⟩ := List.filterMap_eq_append_iff.1 hpaths
    obtain ⟨skipped, g, gs₃, rfl, hskipped, hg, -⟩ := List.filterMap_eq_cons_iff.1 hback
    obtain rfl : g = .config path := by
      cases g <;> simp_all [Group.path?]
    have hnone : skipped.filterMap Group.path? = [] :=
      List.filterMap_eq_nil_iff.2 hskipped
    refine ⟨_, gs₁ ++ skipped, utf8 "--config" :: path :: (gs₃.flatMap Group.words ++ rest),
      files, j', ?_, ?_, .unloadable hfails⟩
    · simp [Group.words]
    · rwa [List.filterMap_append, hnone, List.append_nil]

/-- What arguments lead to, in full. -/
theorem configure_eq_iff {j : Journal} {arguments : List Text} {r : Journal × Except Nat Config} :
    configure program arguments j = r ↔ Scans program j arguments r := by
  refine ⟨?_, configure_of_scans⟩
  rintro rfl
  obtain ⟨r, hr⟩ := exists_scans program j arguments
  rwa [configure_of_scans hr]

/-- Where the groups stand among the files makes no difference, nor does the order of groups of
different names. -/
theorem configure_eq_of_rearranged {gs gs' : List Group} (h : Rearranged gs gs') (j : Journal) :
    configure program (gs.flatMap Group.words) j =
      configure program (gs'.flatMap Group.words) j := by
  have hread : ∀ hs : List Group,
      read (hs.flatMap Group.words) = (hs.map Group.argument, .complete) := fun hs => by
    rw [← read_groups hs .complete, List.append_nil]
  rw [configure, configure, hread, hread]
  simp only [Launch.configure, configPaths_map, h.paths_eq, h.settings_eq]

/-- The arguments are read from left to right, as groups up to the first that is none or that names
a file that cannot be loaded.  If all are groups, the configuration is the default one with the
parameters of each file applied in their order, and on top of them the last value that a flag gives
each parameter, if it is a setting of that parameter.  So flags win over files wherever they stand.
A run ends with the exit code that the arguments lead to, or goes on with the configuration. -/
theorem flags_win_over_files :
    (∀ program j arguments r,
      configure program arguments j = r ↔ Scans program j arguments r) ∧
    (∀ (c d : Config) (flags : Parameters), d = c.apply flags.toList ↔
      ∀ key, d.get? key = (flags[key]?.bind fun v => Setting.read? (key, v)).or (c.get? key)) ∧
    (∀ gs gs' : List Group, Rearranged gs gs' → ∀ program j,
      configure program (gs.flatMap Group.words) j =
        configure program (gs'.flatMap Group.words) j) ∧
    ∀ program arguments m stdin d, ∃ r,
      Scans (Text.untilZero program) (.create (utf8 "statpulse.err.log") d)
        (arguments.map Text.untilZero) r ∧
      (∀ j code, r = (j, .error code) →
        run program arguments m stdin d = ⟨some code, [], j⟩) ∧
      ∀ j c, r = (j, .ok c) → run program arguments m stdin d = proceed c m stdin j := by
  refine ⟨fun _ _ _ _ => configure_eq_iff, fun c d flags => ⟨?_, fun h => ?_⟩,
    fun _ _ h _ j => configure_eq_of_rearranged h j,
    fun program arguments m stdin d => ⟨_, configure_eq_iff.1 rfl, fun j code h => ?_,
      fun j c h => ?_⟩⟩
  · rintro rfl key
    exact Config.get?_apply_toList c flags key
  · exact Config.ext_get? fun key => (h key).trans (Config.get?_apply_toList c flags key).symm
  · have hrun : configure program.untilZero (arguments.map Text.untilZero)
        (.create (Config.logFile {}) d) = (j, .error code) := h
    rw [run, hrun]
  · have hrun : configure program.untilZero (arguments.map Text.untilZero)
        (.create (Config.logFile {}) d) = (j, .ok c) := h
    rw [run, hrun]

/-- Two workers before the file and three behind it, whose five are not asked for. -/
theorem flags_win_over_files_before_and_after :
    let two := Group.value .workers (utf8 "2")
    let three := Group.value .workers (utf8 "3")
    let seven := Group.value .top (utf8 "7")
    let file := Group.config (utf8 "a.cfg")
    let gs := [two, file, seven, three]
    let gs' := [file, two, three, seven]
    let program := utf8 "statpulse"
    let j := Journal.create [] (.ofFiles [(utf8 "a.cfg", utf8 "workers=5\nshards=2\n")])
    Rearranged gs gs' ∧
    configure program (gs.flatMap Group.words) j = configure program (gs'.flatMap Group.words) j ∧
    (configure program (gs.flatMap Group.words) j).2 =
      .ok { workers := 3, shards := 2, topDefault := 7 } := by
  intro two three seven file gs gs' program j
  have h : Rearranged gs gs' := by
    intro name
    by_cases hworkers : utf8 "--workers" = name
    · subst hworkers
      decide
    by_cases hfile : utf8 "--config" = name
    · subst hfile
      decide
    by_cases htop : utf8 "--top" = name
    · subst htop
      decide
    simp only [gs, gs', two, three, seven, file, List.filter_cons]
    simp [Group.name, Flag.name, hworkers, hfile, htop]
  exact ⟨h, flags_win_over_files.2.2.1 gs gs' h program j, by decide⟩

end Service

end QueryStats
