import LinuxAnalysis.Lib.Dict
import LinuxAnalysis.Lib.Shell

/-!
# ss-analysis.sh and the options that ss-gen.sh hands on

`ss-gen.sh` reads its options and writes those of stage 1 into a command line of `ss-analysis.sh`, and
that script reads them again, sources the input file and starts `opt`.
-/

open LinuxAnalysis.Lib

namespace LinuxAnalysis

/-- An option of `ss-gen.sh`, which has those of `ss-analysis.sh` too. -/
inductive CliOption where
  | linuxWllvm (dir : Text)
  | vmlinuxBc (path : Text)
  | plugin (path : Text)
  | vmlinux (path : Text)
  | modulesDir (path : Text)
  | tunable (name : Text)
  | dataset (dir : Text)
  | interproc
  | noUpwardInterproc
  | indirectCall
  | timeout (seconds : Text)
  deriving DecidableEq

namespace CliOption

def words : CliOption → List Text
  | .linuxWllvm dir => ["--linux-wllvm".toList, dir]
  | .vmlinuxBc path => ["--vmlinux-bc".toList, path]
  | .plugin path => ["--plugin".toList, path]
  | .vmlinux path => ["--vmlinux".toList, path]
  | .modulesDir path => ["--modules-dir".toList, path]
  | .tunable name => ["--tunable".toList, name]
  | .dataset dir => ["--dataset".toList, dir]
  | .interproc => ["--interproc".toList]
  | .noUpwardInterproc => ["--no-upward-interproc".toList]
  | .indirectCall => ["--indirect-call".toList]
  | .timeout seconds => ["--timeout".toList, seconds]

/-- An option of `ss-analysis.sh`. -/
def stage1 : CliOption → Bool
  | .vmlinux _ | .modulesDir _ | .tunable _ | .dataset _ => false
  | _ => true

end CliOption

/-! ## 1. ss-analysis.sh -/

namespace SsAnalysis

/-- The options with a value, and the variable that takes it. -/
def valueVariables : List (Text × Text) := [
  ("--linux-wllvm".toList, "LINUX_WLLVM_ARG".toList),
  ("--vmlinux-bc".toList, "VMLINUX_BC_ARG".toList),
  ("--plugin".toList, "PLUGIN_ARG".toList),
  ("--timeout".toList, "TIMEOUT_ARG".toList)]

/-- The flags, with the assignment that each of them makes. -/
def flagAssignments : List (Text × Text × Text) := [
  ("--interproc".toList, "INTERPROC".toList, "true".toList),
  ("--no-upward-interproc".toList, "UPWARD_INTERPROC".toList, "false".toList),
  ("--indirect-call".toList, "INDIRECT_CALL".toList, "true".toList)]

def branch (w : Text) : Option (OptionBranch ShellVars) :=
  match valueVariables.lookup w with
  | some name => some (.value (ShellVars.assign name))
  | none => (flagAssignments.lookup w).map fun a => .flag (ShellVars.assign a.1 a.2)

/-- The variables before the options are read. -/
def defaults (env : ShellVars) : ShellVars :=
  ((((((env.assign "LINUX_WLLVM_ARG".toList []).assign "VMLINUX_BC_ARG".toList []).assign
    "PLUGIN_ARG".toList []).assign "INTERPROC".toList "false".toList).assign
    "UPWARD_INTERPROC".toList "true".toList).assign "INDIRECT_CALL".toList "false".toList).assign
    "TIMEOUT_ARG".toList []

def parse (env : ShellVars) (args : List Text) : Except Nat (ShellVars × List Text) :=
  optionLoop branch args (defaults env)

/-- `${s:-default}` -/
def orDefault (s default : Text) : Text := if s.isEmpty then default else s

/-- What the script meets. -/
structure Host where
  env : ShellVars
  repoRoot : Text
  isFile : Text → Bool
  /-- `opt` is found, in the path or among the programs of LLVM -/
  hasOpt : Bool
  read : Text → Text

/-- The run of `opt` that the script ends with. -/
structure OptCommand where
  timeout : Option Text
  plugin : Text
  passes : Text
  bitcode : Text

inductive Outcome where
  | exited (status : Nat)
  | runs (command : OptCommand)
  /-- The input file does more than assign plain words. -/
  | beyond

/-- `LINUX_WLLVM`, `VMLINUX_BC` and `PLUGIN` as they are set behind the options. -/
def setPaths (repoRoot : Text) (vars : ShellVars) : ShellVars :=
  let linuxWllvm := orDefault (vars "LINUX_WLLVM_ARG".toList) (vars "LINUX_WLLVM".toList)
  let image := if linuxWllvm.isEmpty then [] else linuxWllvm ++ "/vmlinux-xk-dataset.bc".toList
  let vmlinuxBc := orDefault (vars "VMLINUX_BC_ARG".toList)
    (orDefault (vars "VMLINUX_BC".toList) image)
  let plugin := orDefault (vars "PLUGIN_ARG".toList)
    (repoRoot ++ "/passes/build/libTaintTrackerPass.so".toList)
  ((vars.assign "LINUX_WLLVM".toList linuxWllvm).assign "VMLINUX_BC".toList vmlinuxBc).assign
    "PLUGIN".toList plugin

/-- The argument of the pass. -/
def passArgs (vars : ShellVars) : Text :=
  [';'].intercalate [vars "FUNCTION_NAME".toList, vars "SOURCE_OP".toList,
    vars "CONSTANT_VALUE".toList, "false".toList, vars "INTERPROC".toList,
    vars "INDIRECT_CALL".toList, vars "UPWARD_INTERPROC".toList, vars "OCCURENCE".toList,
    "true".toList]

/-- The command, from the variables at the end. -/
def optCommand (vars : ShellVars) : OptCommand where
  timeout := some (vars "TIMEOUT_ARG".toList) |>.filter fun s => !s.isEmpty
  plugin := vars "PLUGIN".toList
  passes := "taint-tracker<".toList ++ passArgs vars ++ ['>']
  bitcode := vars "VMLINUX_BC".toList

def main (host : Host) (args : List Text) : Outcome :=
  match parse host.env args with
  | .error status => .exited status
  | .ok (vars, rest) =>
    let vars := setPaths host.repoRoot vars
    let vmlinuxBc := vars "VMLINUX_BC".toList
    if vmlinuxBc.isEmpty || !host.isFile vmlinuxBc then .exited 1
    else if !host.isFile (vars "PLUGIN".toList) then .exited 1
    else if !host.hasOpt then .exited 1
    else
      match rest with
      | [input] =>
        if !host.isFile input then .exited 1
        else
          -- a file of assignments may overwrite the variables of the script as well
          match sourceText (host.read input) (vars.assign "INPUT".toList input) with
          | none => .beyond
          | some vars => .runs (optCommand vars)
      | _ => .exited 2

/-- What an option of the script does. -/
def apply : CliOption → ShellVars → ShellVars
  | .linuxWllvm dir => ShellVars.assign "LINUX_WLLVM_ARG".toList dir
  | .vmlinuxBc path => ShellVars.assign "VMLINUX_BC_ARG".toList path
  | .plugin path => ShellVars.assign "PLUGIN_ARG".toList path
  | .interproc => ShellVars.assign "INTERPROC".toList "true".toList
  | .noUpwardInterproc => ShellVars.assign "UPWARD_INTERPROC".toList "false".toList
  | .indirectCall => ShellVars.assign "INDIRECT_CALL".toList "true".toList
  | .timeout seconds => ShellVars.assign "TIMEOUT_ARG".toList seconds
  | .vmlinux _ | .modulesDir _ | .tunable _ | .dataset _ => id

theorem isOption {o : CliOption} (h : o.stage1 = true) : IsOption branch o.words (apply o) := by
  have hvalue {w v : Text} {name : Text} (hw : branch w = some (.value (ShellVars.assign name))) :
      IsOption branch [w, v] (ShellVars.assign name v) := .value hw
  cases o with
  | linuxWllvm dir | vmlinuxBc path | plugin path | timeout seconds => exact hvalue rfl
  | interproc | noUpwardInterproc | indirectCall => exact .flag rfl
  | vmlinux path | modulesDir path | tunable name | dataset dir => cases h

theorem branch_eq_none {w : Text} (h : Str.startswith w "--".toList = false) : branch w = none := by
  have hvalues : ∀ a ∈ valueVariables, Str.startswith a.1 "--".toList = true := by decide
  have hflags : ∀ a ∈ flagAssignments, Str.startswith a.1 "--".toList = true := by decide
  have hne {key : Text} (hkey : Str.startswith key "--".toList = true) : (w != key) = true := by
    apply bne_iff_ne.mpr
    rintro rfl
    rw [h] at hkey
    cases hkey
  have hlookup : valueVariables.lookup w = none :=
    List.lookup_eq_none_iff.mpr fun a ha => hne (hvalues a ha)
  have hflag : flagAssignments.lookup w = none :=
    List.lookup_eq_none_iff.mpr fun a ha => hne (hflags a ha)
  rw [branch, hlookup]
  dsimp only
  rw [hflag]
  rfl

/-- The options are all read, up to the input file. -/
theorem parse_options {os : List CliOption} (h : ∀ o ∈ os, o.stage1 = true) {env : ShellVars}
    {input : Text} (hinput : Str.startswith input "--".toList = false) :
    parse env (os.flatMap CliOption.words ++ [input]) =
      .ok (os.foldl (fun s o => apply o s) (defaults env), [input]) := by
  have hend : input ≠ "--".toList := by
    rintro rfl
    cases hinput
  rw [parse, optionLoop_options fun o ho => isOption (h o ho), optionLoop, branch_eq_none hinput]
  dsimp only
  rw [if_neg hend, if_neg (by rw [hinput]; decide)]

end SsAnalysis

/-! ## 2. The options of ss-gen.sh -/

namespace SsGen

/-- What the option loop has read. -/
structure Settings where
  vars : ShellVars
  stage1Flags : List Text

def valueVariables : List (Text × Text) := [
  ("--linux-wllvm".toList, "LINUX_WLLVM_ARG".toList),
  ("--vmlinux-bc".toList, "VMLINUX_BC_ARG".toList),
  ("--plugin".toList, "PLUGIN_ARG".toList),
  ("--vmlinux".toList, "VMLINUX_ARG".toList),
  ("--modules-dir".toList, "MODULES_DIR_ARG".toList),
  ("--tunable".toList, "TUNABLE".toList),
  ("--dataset".toList, "DATASET_DIR_ARG".toList)]

def flagOptions : List Text :=
  ["--interproc".toList, "--no-upward-interproc".toList, "--indirect-call".toList]

def Settings.assign (name value : Text) (s : Settings) : Settings :=
  { s with vars := s.vars.assign name value }

/-- `STAGE1_FLAGS+=(…)` -/
def Settings.addFlags (ws : List Text) (s : Settings) : Settings :=
  { s with stage1Flags := s.stage1Flags ++ ws }

def branch (w : Text) : Option (OptionBranch Settings) :=
  match valueVariables.lookup w with
  | some name => some (.value (Settings.assign name))
  | none =>
    if w ∈ flagOptions then some (.flag (Settings.addFlags [w]))
    else if w = "--timeout".toList then some (.value fun v => Settings.addFlags [w, v])
    else none

def defaults (env : ShellVars) : Settings where
  vars := (((((((env.assign "LINUX_WLLVM_ARG".toList []).assign "VMLINUX_BC_ARG".toList []).assign
    "PLUGIN_ARG".toList []).assign "VMLINUX_ARG".toList []).assign "MODULES_DIR_ARG".toList
    []).assign "TUNABLE".toList []).assign "DATASET_DIR_ARG".toList [])
  stage1Flags := []

def parse (env : ShellVars) (args : List Text) : Except Nat (Settings × List Text) :=
  optionLoop branch args (defaults env)

/-- `[[ -n "$value" ]] && …+=(option "$value")` -/
def forwarded (option value : Text) : List Text := if value.isEmpty then [] else [option, value]

/-- `STAGE1_OPTS` -/
def Settings.stage1Opts (s : Settings) : List Text :=
  forwarded "--linux-wllvm".toList (s.vars "LINUX_WLLVM_ARG".toList) ++
    forwarded "--vmlinux-bc".toList (s.vars "VMLINUX_BC_ARG".toList) ++
    forwarded "--plugin".toList (s.vars "PLUGIN_ARG".toList) ++ s.stage1Flags

/-- What an option of the script does. -/
def apply : CliOption → Settings → Settings
  | .linuxWllvm dir => Settings.assign "LINUX_WLLVM_ARG".toList dir
  | .vmlinuxBc path => Settings.assign "VMLINUX_BC_ARG".toList path
  | .plugin path => Settings.assign "PLUGIN_ARG".toList path
  | .vmlinux path => Settings.assign "VMLINUX_ARG".toList path
  | .modulesDir path => Settings.assign "MODULES_DIR_ARG".toList path
  | .tunable name => Settings.assign "TUNABLE".toList name
  | .dataset dir => Settings.assign "DATASET_DIR_ARG".toList dir
  | .interproc => Settings.addFlags CliOption.interproc.words
  | .noUpwardInterproc => Settings.addFlags CliOption.noUpwardInterproc.words
  | .indirectCall => Settings.addFlags CliOption.indirectCall.words
  | .timeout seconds => Settings.addFlags (CliOption.timeout seconds).words

/-- The branches of the loop are the options. -/
theorem option_of_isOption {ws : List Text} {set : Settings → Settings} (h : IsOption branch ws set) :
    ∃ o : CliOption, o.words = ws ∧ apply o = set := by
  cases h with
  | @flag w set h =>
    unfold branch at h
    split at h
    next => cases h
    next =>
      split at h
      next hmem =>
        cases h
        simp only [flagOptions, List.mem_cons, List.not_mem_nil, or_false] at hmem
        rcases hmem with rfl | rfl | rfl
        · exact ⟨.interproc, rfl, rfl⟩
        · exact ⟨.noUpwardInterproc, rfl, rfl⟩
        · exact ⟨.indirectCall, rfl, rfl⟩
      next =>
        split at h
        next => cases h
        next => cases h
  | @value w v set h =>
    unfold branch at h
    split at h
    next name hlookup =>
      cases h
      have hmem := Dict.mem_of_lookup hlookup
      simp only [valueVariables, List.mem_cons, List.not_mem_nil, or_false, Prod.mk.injEq] at hmem
      rcases hmem with ⟨rfl, rfl⟩ | ⟨rfl, rfl⟩ | ⟨rfl, rfl⟩ | ⟨rfl, rfl⟩ | ⟨rfl, rfl⟩ | ⟨rfl, rfl⟩ |
        ⟨rfl, rfl⟩
      · exact ⟨.linuxWllvm v, rfl, rfl⟩
      · exact ⟨.vmlinuxBc v, rfl, rfl⟩
      · exact ⟨.plugin v, rfl, rfl⟩
      · exact ⟨.vmlinux v, rfl, rfl⟩
      · exact ⟨.modulesDir v, rfl, rfl⟩
      · exact ⟨.tunable v, rfl, rfl⟩
      · exact ⟨.dataset v, rfl, rfl⟩
    next =>
      split at h
      next => cases h
      next =>
        split at h
        next hw =>
          cases h
          rw [hw]
          exact ⟨.timeout v, rfl, rfl⟩
        next => cases h

/-! ## 3. What stage 1 is handed -/

/-- An option that stage 1 is handed as it is. -/
def isFlag : CliOption → Bool
  | .interproc | .noUpwardInterproc | .indirectCall | .timeout _ => true
  | _ => false

theorem stage1_of_isFlag {o : CliOption} (h : isFlag o = true) : o.stage1 = true := by
  cases o with
  | interproc | noUpwardInterproc | indirectCall | timeout _ => rfl
  | linuxWllvm _ | vmlinuxBc _ | plugin _ | vmlinux _ | modulesDir _ | tunable _ | dataset _ => cases h

/-- The variables of stage 1 that hold a path. -/
def pathNames : List Text :=
  ["LINUX_WLLVM_ARG".toList, "VMLINUX_BC_ARG".toList, "PLUGIN_ARG".toList]

/-- A flag leaves the paths alone. -/
theorem assign_flag {o : CliOption} (ho : isFlag o = true) {name value : Text}
    (hname : name ∈ pathNames) (s : ShellVars) :
    SsAnalysis.apply o (s.assign name value) = (SsAnalysis.apply o s).assign name value := by
  have hne {n : Text} (hn : n ∉ pathNames) : name ≠ n := by
    rintro rfl
    exact hn hname
  cases o with
  | interproc | noUpwardInterproc | indirectCall | timeout _ =>
    exact ShellVars.assign_comm (hne (by decide))
  | linuxWllvm _ | vmlinuxBc _ | plugin _ | vmlinux _ | modulesDir _ | tunable _ | dataset _ => cases ho

theorem assign_flags {flags : List CliOption} (h : ∀ o ∈ flags, isFlag o = true) {name value : Text}
    (hname : name ∈ pathNames) (s : ShellVars) :
    flags.foldl (fun s o => SsAnalysis.apply o s) (s.assign name value) =
      (flags.foldl (fun s o => SsAnalysis.apply o s) s).assign name value := by
  induction flags generalizing s with
  | nil => rfl
  | cons o flags ih =>
    obtain ⟨ho, hflags⟩ := List.forall_mem_cons.mp h
    rw [List.foldl_cons, assign_flag ho hname, ih hflags, List.foldl_cons]

/-- The variables of stage 1 once the paths are read. -/
def pathVars (env : ShellVars) (g : Settings) : ShellVars := fun x =>
  if x ∈ pathNames then g.vars x else SsAnalysis.defaults env x

theorem pathVars_assign {env : ShellVars} {g : Settings} {name value : Text} :
    pathVars env (g.assign name value) =
      if name ∈ pathNames then (pathVars env g).assign name value else pathVars env g := by
  funext x
  show (if x ∈ pathNames then g.vars.assign name value x else _) = _
  by_cases hname : name ∈ pathNames
  · rw [if_pos hname]
    by_cases hx : x = name
    · subst hx
      rw [if_pos hname, ShellVars.assign_self, ShellVars.assign_self]
    · rw [ShellVars.assign_of_ne hx, ShellVars.assign_of_ne hx]
      rfl
  · rw [if_neg hname, pathVars]
    split
    next hmem => exact ShellVars.assign_of_ne fun hx => hname (hx ▸ hmem)
    next => rfl

/-- The two scripts side by side: `ss-gen.sh` has read some options, and `vars` are the variables of
`ss-analysis.sh` had it read its own among them. -/
structure Beside (env : ShellVars) (g : Settings) (vars : ShellVars) (flags : List CliOption) :
    Prop where
  kinds : ∀ o ∈ flags, isFlag o = true
  words : g.stage1Flags = flags.flatMap CliOption.words
  vars : vars = flags.foldl (fun s o => SsAnalysis.apply o s) (pathVars env g)

theorem defaults_path {env : ShellVars} {name : Text} (hname : name ∈ pathNames) :
    SsAnalysis.defaults env name = [] := by
  simp only [pathNames, List.mem_cons, List.not_mem_nil, or_false] at hname
  rcases hname with rfl | rfl | rfl
  · rfl
  · rfl
  · rfl

theorem beside_defaults (env genEnv : ShellVars) :
    Beside env (defaults genEnv) (SsAnalysis.defaults env) [] := by
  refine ⟨fun o ho => absurd ho List.not_mem_nil, rfl, ?_⟩
  funext x
  show SsAnalysis.defaults env x = if x ∈ pathNames then (defaults genEnv).vars x else _
  split
  next hx =>
    rw [defaults_path hx]
    simp only [pathNames, List.mem_cons, List.not_mem_nil, or_false] at hx
    rcases hx with rfl | rfl | rfl
    · rfl
    · rfl
    · rfl
  next => rfl

theorem Beside.path {env vars : ShellVars} {g : Settings} {flags : List CliOption}
    (h : Beside env g vars flags) {name : Text} (hname : name ∈ pathNames) (value : Text) :
    Beside env (g.assign name value) (vars.assign name value) flags := by
  refine ⟨h.kinds, h.words, ?_⟩
  rw [pathVars_assign, if_pos hname, assign_flags h.kinds hname, h.vars]

theorem Beside.other {env vars : ShellVars} {g : Settings} {flags : List CliOption}
    (h : Beside env g vars flags) {name : Text} (hname : name ∉ pathNames) (value : Text) :
    Beside env (g.assign name value) vars flags := by
  refine ⟨h.kinds, h.words, ?_⟩
  rw [pathVars_assign, if_neg hname, h.vars]

theorem Beside.flag {env vars : ShellVars} {g : Settings} {flags : List CliOption}
    (h : Beside env g vars flags) {o : CliOption} (ho : isFlag o = true) :
    Beside env (g.addFlags o.words) (SsAnalysis.apply o vars) (flags ++ [o]) := by
  refine ⟨fun o' ho' => ?_, ?_, ?_⟩
  · rcases List.mem_append.mp ho' with ho' | ho'
    · exact h.kinds o' ho'
    · rw [List.mem_singleton.mp ho']
      exact ho
  · rw [List.flatMap_append, List.flatMap_singleton, ← h.words]
    rfl
  · rw [List.foldl_append, h.vars]
    rfl

/-- One option. -/
theorem Beside.step {env vars : ShellVars} {g : Settings} {flags : List CliOption}
    (h : Beside env g vars flags) (o : CliOption) : ∃ flags', Beside env (apply o g)
      (if o.stage1 then SsAnalysis.apply o vars else vars) flags' := by
  cases o with
  | linuxWllvm value | vmlinuxBc value | plugin value => exact ⟨flags, h.path (by decide) value⟩
  | vmlinux value | modulesDir value | tunable value | dataset value =>
    exact ⟨flags, h.other (by decide) value⟩
  | interproc | noUpwardInterproc | indirectCall | timeout _ => exact ⟨_, h.flag rfl⟩

/-- All the options. -/
theorem Beside.run {env vars : ShellVars} {g : Settings} {flags : List CliOption}
    (h : Beside env g vars flags) (os : List CliOption) : ∃ flags', Beside env
      (os.foldl (fun g o => apply o g) g)
      ((os.filter CliOption.stage1).foldl (fun s o => SsAnalysis.apply o s) vars) flags' := by
  induction os generalizing g vars flags with
  | nil => exact ⟨flags, h⟩
  | cons o os ih =>
    obtain ⟨flags', hstep⟩ := h.step o
    rw [List.foldl_cons, List.filter_cons]
    split at hstep
    next hstage1 =>
      rw [if_pos hstage1]
      exact ih hstep
    next hstage1 =>
      rw [if_neg hstage1]
      exact ih hstep

/-- A path is handed on when it is not empty. -/
def pathOption (option : Text → CliOption) (value : Text) : List CliOption :=
  if value.isEmpty then [] else [option value]

def pathOptions (g : Settings) : List CliOption :=
  pathOption .linuxWllvm (g.vars "LINUX_WLLVM_ARG".toList) ++
    pathOption .vmlinuxBc (g.vars "VMLINUX_BC_ARG".toList) ++
    pathOption .plugin (g.vars "PLUGIN_ARG".toList)

theorem stage1_pathOptions {g : Settings} : ∀ o ∈ pathOptions g, o.stage1 = true := by
  have hone {option : Text → CliOption} {value : Text} (h : (option value).stage1 = true) :
      ∀ o ∈ pathOption option value, o.stage1 = true := by
    intro o ho
    unfold pathOption at ho
    split at ho
    · cases ho
    · rw [List.mem_singleton.mp ho]
      exact h
  intro o ho
  rcases List.mem_append.mp ho with ho | ho
  · rcases List.mem_append.mp ho with ho | ho
    · exact hone rfl o ho
    · exact hone rfl o ho
  · exact hone rfl o ho

theorem stage1Opts_eq {env vars : ShellVars} {g : Settings} {flags : List CliOption}
    (h : Beside env g vars flags) :
    g.stage1Opts = (pathOptions g ++ flags).flatMap CliOption.words := by
  have hone {option : Text → CliOption} {name value : Text}
      (hwords : (option value).words = [name, value]) :
      (pathOption option value).flatMap CliOption.words = forwarded name value := by
    unfold pathOption forwarded
    split
    · rfl
    · rw [List.flatMap_singleton, hwords]
  rw [List.flatMap_append, pathOptions, List.flatMap_append, List.flatMap_append, hone rfl, hone rfl,
    hone rfl, ← h.words]
  rfl

/-- An empty path need not be handed on, as it is the default. -/
theorem foldl_pathOptions (env : ShellVars) (g : Settings) :
    (pathOptions g).foldl (fun s o => SsAnalysis.apply o s) (SsAnalysis.defaults env) =
      pathVars env g := by
  have hone (option : Text → CliOption) (name value : Text) (s : ShellVars)
      (happly : SsAnalysis.apply (option value) = ShellVars.assign name value) (hs : s name = []) :
      (pathOption option value).foldl (fun s o => SsAnalysis.apply o s) s = s.assign name value := by
    unfold pathOption
    split
    next hempty =>
      rw [List.isEmpty_iff.mp hempty, ShellVars.assign_eq_self hs]
      rfl
    next =>
      rw [List.foldl_cons, happly]
      rfl
  rw [pathOptions, List.foldl_append, List.foldl_append, hone _ _ _ _ rfl (defaults_path (by decide))]
  -- each of the other paths is still unset when it is its turn
  have hbitcode := hone .vmlinuxBc _ (g.vars "VMLINUX_BC_ARG".toList)
    ((SsAnalysis.defaults env).assign "LINUX_WLLVM_ARG".toList (g.vars "LINUX_WLLVM_ARG".toList))
    rfl rfl
  rw [hbitcode, hone _ _ _ _ rfl rfl]
  funext x
  unfold pathVars ShellVars.assign
  by_cases hx : x ∈ pathNames
  · rw [if_pos hx]
    simp only [pathNames, List.mem_cons, List.not_mem_nil, or_false] at hx
    rcases hx with rfl | rfl | rfl
    · rfl
    · rfl
    · rfl
  · rw [if_neg hx]
    simp only [pathNames, List.mem_cons, List.not_mem_nil, or_false, not_or] at hx
    rw [if_neg hx.2.2, if_neg hx.2.1, if_neg hx.1]

/-- What is handed on for a sequence of options has the effect of those that stage 1 knows. -/
theorem main_stage1Opts (env : ShellVars) (os : List CliOption) (host : SsAnalysis.Host)
    {input : Text} (hinput : Str.startswith input "--".toList = false) :
    SsAnalysis.main host
        ((os.foldl (fun g o => apply o g) (defaults env)).stage1Opts ++ [input]) =
      SsAnalysis.main host ((os.filter CliOption.stage1).flatMap CliOption.words ++ [input]) := by
  obtain ⟨flags, hbeside⟩ := (beside_defaults host.env env).run os
  have hstage1 : ∀ o ∈ pathOptions (os.foldl (fun g o => apply o g) (defaults env)) ++ flags,
      o.stage1 = true := by
    intro o ho
    rcases List.mem_append.mp ho with ho | ho
    · exact stage1_pathOptions o ho
    · exact stage1_of_isFlag (hbeside.kinds o ho)
  have hparse : SsAnalysis.parse host.env
      ((os.foldl (fun g o => apply o g) (defaults env)).stage1Opts ++ [input]) =
        SsAnalysis.parse host.env
          ((os.filter CliOption.stage1).flatMap CliOption.words ++ [input]) := by
    rw [stage1Opts_eq hbeside, SsAnalysis.parse_options hstage1 hinput,
      SsAnalysis.parse_options (fun o ho => (List.mem_filter.mp ho).2) hinput, List.foldl_append,
      foldl_pathOptions, hbeside.vars]
  rw [SsAnalysis.main, SsAnalysis.main, hparse]

/-- **Stage 1 is handed the options it was given.**  Whatever `ss-gen.sh` accepts, `ss-analysis.sh`
does with the options handed on what it does with those of its own among the options given, in their
order. -/
theorem stage1_forwarded (env : ShellVars) (args : List Text) (g : Settings) (rest : List Text)
    (h : parse env args = .ok (g, rest)) :
    ∃ (os : List CliOption) (tail : List Text), args = os.flatMap CliOption.words ++ tail ∧
      (tail = rest ∨ tail = "--".toList :: rest) ∧
      ∀ (host : SsAnalysis.Host) (input : Text), Str.startswith input "--".toList = false →
        SsAnalysis.main host (g.stage1Opts ++ [input]) =
          SsAnalysis.main host
            ((os.filter CliOption.stage1).flatMap CliOption.words ++ [input]) := by
  obtain ⟨os, tail, hargs, rfl, htail⟩ := accepts_of_optionLoop (fun _ _ h => option_of_isOption h) h
  exact ⟨os, tail, hargs, htail, fun host input hinput => main_stage1Opts env os host hinput⟩

/-- A limit for stage 1, an image for stage 2 and an empty path. -/
theorem stage1_forwarded_timeout :
    ∃ (os : List CliOption) (tail : List Text),
      ["--timeout".toList, "60".toList, "--vmlinux".toList, "vmlinux".toList, "--plugin".toList, [],
          "1.input.txt".toList] = os.flatMap CliOption.words ++ tail ∧
      (tail = ["1.input.txt".toList] ∨ tail = ["--".toList, "1.input.txt".toList]) ∧
      ∀ (host : SsAnalysis.Host) (input : Text), Str.startswith input "--".toList = false →
        SsAnalysis.main host (["--timeout".toList, "60".toList] ++ [input]) =
          SsAnalysis.main host ((os.filter CliOption.stage1).flatMap CliOption.words ++ [input]) :=
  stage1_forwarded (fun _ => [])
    ["--timeout".toList, "60".toList, "--vmlinux".toList, "vmlinux".toList, "--plugin".toList, [],
      "1.input.txt".toList] _ _ rfl

end SsGen

end LinuxAnalysis
