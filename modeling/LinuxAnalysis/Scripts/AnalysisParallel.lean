import LinuxAnalysis.Lib.Path
import Mathlib.Data.List.Basic

/-!
# ss-analysis-parallel.py: the output file as a done-marker

`process_input_file` creates the output file before it starts `opt`, and a later call takes a file
that exists for a finished report.  A call sees the configuration of its invocation of the script and
the way its run of `opt` ends; the state between calls is the output file.
-/

open LinuxAnalysis.Lib

namespace LinuxAnalysis

namespace AnalysisParallel

/-! ## The input file -/

def doubleQuote : Char := Char.ofNat 34

def singleQuote : Char := Char.ofNat 39

/-- The value of an assignment: comment and quotes removed. -/
def parseValue (value : Text) : Text :=
  let value := match Str.splitOnce '#' value with
    | some (before, _) => before
    | none => value
  Str.stripBy (· == singleQuote) (Str.stripBy (· == doubleQuote) (Str.strip value))

/-- One line of the input file; the newest assignment stands first. -/
def parseLine (vars : List (Text × Text)) (line : Text) : List (Text × Text) :=
  let line := Str.strip line
  if line.isEmpty || Str.startswith line ['#'] then vars
  else
    match Str.splitOnce '=' line with
    | some (key, value) => (key, parseValue value) :: vars
    | none => vars

/-- `parse_input_file` -/
def parseInputFile (lines : List Text) : List (Text × Text) := lines.foldl parseLine []

/-- `variables.get(key, '')` -/
def getVariable (vars : List (Text × Text)) (key : String) : Text :=
  (vars.lookup key.toList).getD []

/-! ## One call -/

structure Config where
  kernelDir : Text
  plugin : Text
  interproc : Text
  upwardInterproc : Text
  indirectCall : Text
  cwd : Text
  timeout : Option Nat

/-- How the block that opens the output file and runs `opt` ends. -/
inductive RunOutcome where
  /-- `open` raises and creates no file. -/
  | notOpened (error : Text)
  /-- `Popen` raises. -/
  | notStarted (error : Text)
  /-- The process ends by itself, having written `output`. -/
  | exited (returncode : Int) (output : Text)
  /-- The process is killed; `removed` says whether `os.remove` succeeds. -/
  | timedOut (partialOutput : Text) (removed : Bool)
  deriving DecidableEq

/-- A call: its configuration, and what running a command in a directory comes to. -/
structure Call where
  config : Config
  run : List Text → Text → RunOutcome

structure Result where
  inputFile : Text
  success : Bool
  errorMessage : Option Text
  deriving DecidableEq

def strTimeout : Option Nat → Text
  | some n => Str.str n
  | none => "None".toList

/-- `{input_file.stem.replace('.input', '')}` with an ending, next to the input file. -/
def sibling (inputFile : Path) (ending : String) : Path :=
  inputFile.parent.join
    (.parse (Str.replace inputFile.stem ".input".toList [] ++ ending.toList))

def passArgs (config : Config) (vars : List (Text × Text)) : Text :=
  [';'].intercalate [getVariable vars "FUNCTION_NAME", getVariable vars "SOURCE_OP",
    getVariable vars "CONSTANT_VALUE", "false".toList, config.interproc, config.indirectCall,
    config.upwardInterproc, getVariable vars "OCCURENCE", "true".toList]

def optCmd (inputFile : Path) (config : Config) (vars : List (Text × Text)) : List Text :=
  ["/usr/bin/time".toList, "-o".toList, (sibling inputFile ".time.txt").str, "-v".toList,
    "opt".toList,
    "-load-pass-plugin=".toList ++ config.plugin,
    "-passes=taint-tracker<".toList ++ passArgs config vars ++ ['>'],
    "-disable-output".toList,
    ((Path.parse config.kernelDir).join (.parse "vmlinux-xk-dataset.bc".toList)).str]

/-- The two lines written behind the output of `opt`. -/
def additionalInfo (kernelDir llFile sourceFile : Path) : Text :=
  '\n' :: (kernelDir.join llFile).str ++ '\n' :: (kernelDir.join sourceFile).str ++ ['\n']

/-- `process_input_file` on an input file with the given lines; the last argument and component are the
output file before and after. -/
def processInputFile (inputFile : Path) (lines : List Text) (call : Call) (outputFile : Option Text) :
    Result × Option Text :=
  let failure (message : Text) : Result := ⟨inputFile.str, false, some message⟩
  let success : Result := ⟨inputFile.str, true, none⟩
  let vars := parseInputFile lines
  match outputFile with
  -- an output file that exists counts as done, whatever it holds
  | some _ => (success, outputFile)
  | none =>
    let kernelDir := Path.parse call.config.kernelDir
    let sourcePath := Path.parse (getVariable vars "SOURCE_FILE")
    match sourcePath.withSuffix ".ll".toList with
    | .error message => (failure message, none)
    | .ok llFile =>
      match call.run (optCmd inputFile call.config vars) call.config.cwd with
      | .notOpened message => (failure message, none)
      -- the output file was opened, and stays behind empty
      | .notStarted message => (failure message, some [])
      | .timedOut partialOutput removed =>
        (failure ("opt timed out after ".toList ++ strTimeout call.config.timeout ++ ['s']),
          if removed then none else some partialOutput)
      | .exited returncode output =>
        -- the source lines are appended before the exit code is looked at
        let outputFile := some (output ++ additionalInfo kernelDir llFile sourcePath)
        if returncode ≠ 0 then
          (failure ("opt command failed with exit code ".toList ++ Str.strInt returncode), outputFile)
        else (success, outputFile)

/-! ## A sequence of calls -/

/-- A call with the output file before and after it. -/
structure Record where
  call : Call
  before : Option Text
  result : Result
  after : Option Text

def processCalls (inputFile : Path) (lines : List Text) : List Call → Option Text → List Record
  | [], _ => []
  | call :: calls, outputFile =>
    let r := processInputFile inputFile lines call outputFile
    ⟨call, outputFile, r.1, r.2⟩ :: processCalls inputFile lines calls r.2

/-- The record is that of a call. -/
def Record.OfCall (inputFile : Path) (lines : List Text) (r : Record) : Prop :=
  processInputFile inputFile lines r.call r.before = (r.result, r.after)

/-- The run of `opt` that a call makes: none when the file is there or no source file is named. -/
def Record.optRun (inputFile : Path) (lines : List Text) (r : Record) : Option RunOutcome :=
  let vars := parseInputFile lines
  if r.before.isSome || (Path.parse (getVariable vars "SOURCE_FILE")).name.isEmpty then none
  else some (r.call.run (optCmd inputFile r.call.config vars) r.call.config.cwd)

/-- Every call that reports success leaves a file with the whole output of a run of `opt`, by this call
or an earlier one, that exited with 0. -/
def SuccessesComplete (inputFile : Path) (lines : List Text) (trace : List Record) : Prop :=
  ∀ pre r post, trace = pre ++ r :: post → r.result.success = true →
    ∃ r' ∈ pre ++ [r], ∃ output info, r'.optRun inputFile lines = some (.exited 0 output) ∧
      r.after = some (output ++ info)

/-- No call that reports failure leaves a file. -/
def FailuresLeaveNothing (trace : List Record) : Prop :=
  ∀ r ∈ trace, r.result.success = false → r.after = none

/-- The run of `opt` exits with 0, or its file is never made or is removed. -/
def RunOutcome.leavesNoPartialFile : RunOutcome → Bool
  | .notOpened _ => true
  | .notStarted _ => false
  | .exited returncode _ => returncode == 0
  | .timedOut _ removed => removed

/-- The run of `opt` that the call makes, if it makes one, ends in such a way. -/
def Record.Settled (inputFile : Path) (lines : List Text) (r : Record) : Prop :=
  ∀ outcome, r.optRun inputFile lines = some outcome → outcome.leavesNoPartialFile = true

variable {inputFile : Path} {lines : List Text}

/-- A call without a run of its own leaves the file as it is. -/
theorem Record.OfCall.of_no_run {r : Record} (hr : r.OfCall inputFile lines)
    (hrun : r.optRun inputFile lines = none) :
    r.after = r.before ∧ r.result.success = r.before.isSome := by
  obtain ⟨call, before, result, after⟩ := r
  dsimp only [Record.OfCall] at hr ⊢
  cases before with
  | some content =>
    obtain ⟨rfl, rfl⟩ := Prod.mk.inj hr
    exact ⟨rfl, rfl⟩
  | none =>
    have hname : (Path.parse (getVariable (parseInputFile lines) "SOURCE_FILE")).name.isEmpty := by
      by_contra h
      simp [Record.optRun, h] at hrun
    simp only [processInputFile, Path.withSuffix, hname, if_true] at hr
    obtain ⟨rfl, rfl⟩ := Prod.mk.inj hr
    exact ⟨rfl, rfl⟩

/-- A call with a run of its own either succeeds, `opt` having exited with 0 and its output standing at
the head of the file, or fails, and then leaves no file exactly when the outcome says so. -/
theorem Record.OfCall.of_run {r : Record} (hr : r.OfCall inputFile lines) {outcome : RunOutcome}
    (hrun : r.optRun inputFile lines = some outcome) :
    (∃ output info, outcome = .exited 0 output ∧ r.result.success = true ∧
      r.after = some (output ++ info)) ∨
    (r.result.success = false ∧ (r.after = none ↔ outcome.leavesNoPartialFile = true)) := by
  obtain ⟨call, before, result, after⟩ := r
  -- the run started, so there was no output and the source file has a name
  have hbefore : before = none := by
    cases before with
    | none => rfl
    | some content => simp [Record.optRun] at hrun
  have hname :
      (Path.parse (getVariable (parseInputFile lines) "SOURCE_FILE")).name.isEmpty = false := by
    by_contra h
    rw [Bool.not_eq_false] at h
    simp [Record.optRun, h] at hrun
  subst hbefore
  simp only [Record.optRun, hname, Option.isSome_none, Bool.or_false, Bool.false_eq_true, if_false,
    Option.some.injEq] at hrun
  simp only [Record.OfCall, processInputFile, Path.withSuffix, hname, Bool.false_eq_true, if_false,
    hrun] at hr
  -- only a run that exits with 0 is a success
  cases outcome with
  | notOpened message =>
    obtain ⟨rfl, rfl⟩ := Prod.mk.inj hr
    exact .inr ⟨rfl, by simp [RunOutcome.leavesNoPartialFile]⟩
  | notStarted message =>
    obtain ⟨rfl, rfl⟩ := Prod.mk.inj hr
    exact .inr ⟨rfl, by simp [RunOutcome.leavesNoPartialFile]⟩
  | timedOut partialOutput removed =>
    obtain ⟨rfl, rfl⟩ := Prod.mk.inj hr
    refine .inr ⟨rfl, ?_⟩
    cases removed <;> simp [RunOutcome.leavesNoPartialFile]
  | exited returncode output =>
    by_cases hcode : returncode = 0
    · subst hcode
      obtain ⟨rfl, rfl⟩ := Prod.mk.inj hr
      exact .inl ⟨output, _, rfl, rfl, rfl⟩
    · simp only [ne_eq, hcode, not_false_eq_true, if_true] at hr
      obtain ⟨rfl, rfl⟩ := Prod.mk.inj hr
      exact .inr ⟨rfl, by simp [hcode, RunOutcome.leavesNoPartialFile]⟩

theorem ofCall_of_mem {calls : List Call} {outputFile : Option Text} {r : Record}
    (h : r ∈ processCalls inputFile lines calls outputFile) : r.OfCall inputFile lines := by
  induction calls generalizing outputFile with
  | nil => cases h
  | cons call calls ih =>
    rcases List.mem_cons.mp h with rfl | h
    · rfl
    · exact ih h

/-- A call that fails and leaves a file is one whose run ends badly. -/
theorem settled_iff {r : Record} (hr : r.OfCall inputFile lines) :
    r.Settled inputFile lines ↔ (r.result.success = false → r.after = none) := by
  unfold Record.Settled
  cases hrun : r.optRun inputFile lines with
  | none =>
    obtain ⟨hafter, hsuccess⟩ := hr.of_no_run hrun
    refine iff_of_true (fun _ h => by cases h) (fun hfail => ?_)
    rw [hfail] at hsuccess
    rw [hafter]
    exact Option.isNone_iff_eq_none.mp (by simpa using hsuccess.symm)
  | some outcome =>
    rcases hr.of_run hrun with ⟨output, info, rfl, hsuccess, _⟩ | ⟨hfail, hnone⟩
    · refine iff_of_true (fun _ h => by cases h; rfl) (fun hfail => ?_)
      rw [hsuccess] at hfail
      cases hfail
    · simp [hfail, hnone]

/-- A file that is there comes from one of the runs recorded so far, and that run exited with 0. -/
def Explained (inputFile : Path) (lines : List Text) (done : List Record) (file : Option Text) :
    Prop :=
  ∀ content, file = some content → ∃ r ∈ done, ∃ output info,
    r.optRun inputFile lines = some (.exited 0 output) ∧ content = output ++ info

theorem explained_after {done : List Record} {r : Record} (hr : r.OfCall inputFile lines)
    (hsettled : r.Settled inputFile lines) (hbefore : Explained inputFile lines done r.before) :
    Explained inputFile lines (done ++ [r]) r.after ∧
      (r.result.success = true → r.after.isSome = true) := by
  cases hrun : r.optRun inputFile lines with
  | none =>
    obtain ⟨hafter, hsuccess⟩ := hr.of_no_run hrun
    refine ⟨fun content hcontent => ?_, fun h => ?_⟩
    · obtain ⟨r', hr', hfrom⟩ := hbefore content (hafter ▸ hcontent)
      exact ⟨r', List.mem_append_left _ hr', hfrom⟩
    · rw [hafter]
      exact hsuccess.symm.trans h
  | some outcome =>
    rcases hr.of_run hrun with ⟨output, info, rfl, _, hafter⟩ | ⟨hfail, _⟩
    · refine ⟨fun content hcontent => ⟨r, by simp, output, info, hrun, ?_⟩, fun _ => ?_⟩
      · exact Option.some.inj (hcontent.symm.trans hafter)
      · exact hafter ▸ rfl
    · have hnone : r.after = none := (settled_iff hr).mp hsettled hfail
      refine ⟨fun content hcontent => ?_, fun h => ?_⟩
      · rw [hnone] at hcontent
        cases hcontent
      · rw [hfail] at h
        cases h

/-- When every run ends well, a success stands for a finished run. -/
theorem processCalls_success {calls : List Call} {outputFile : Option Text} {done pre : List Record}
    {r : Record} {post : List Record} (hfile : Explained inputFile lines done outputFile)
    (hsettled : ∀ r ∈ processCalls inputFile lines calls outputFile, r.Settled inputFile lines)
    (htrace : processCalls inputFile lines calls outputFile = pre ++ r :: post)
    (hsuccess : r.result.success = true) :
    ∃ r' ∈ done ++ (pre ++ [r]), ∃ output info,
      r'.optRun inputFile lines = some (.exited 0 output) ∧ r.after = some (output ++ info) := by
  induction calls generalizing outputFile done pre with
  | nil => cases pre <;> cases htrace
  | cons call calls ih =>
    rw [processCalls] at hsettled htrace
    generalize hp : processInputFile inputFile lines call outputFile = p at hsettled htrace
    have hr : (⟨call, outputFile, p.1, p.2⟩ : Record).OfCall inputFile lines := hp
    obtain ⟨hafter, hsome⟩ := explained_after hr (hsettled _ List.mem_cons_self) hfile
    cases pre with
    | nil =>
      obtain ⟨rfl, _⟩ := List.cons.inj htrace
      obtain ⟨content, hcontent⟩ := Option.isSome_iff_exists.mp (hsome hsuccess)
      obtain ⟨r', hr', output, info, hrun, rfl⟩ := hafter content hcontent
      exact ⟨r', hr', output, info, hrun, hcontent⟩
    | cons r₀ pre =>
      obtain ⟨rfl, htail⟩ := List.cons.inj htrace
      have hnext : Explained inputFile lines (done ++ [⟨call, outputFile, p.1, p.2⟩]) p.2 := hafter
      have hrest := ih hnext (fun r hr => hsettled r (List.mem_cons_of_mem _ hr)) htail
      rwa [List.append_assoc] at hrest

/-- **Success means a whole report.**  In a sequence of calls that starts without an output file, every
success stands for a finished run and no failure leaves a file, if and only if each run of `opt` exits
with 0 or has its file removed or never made. -/
theorem processCalls_complete_iff (inputFile : Path) (lines : List Text) (calls : List Call) :
    (SuccessesComplete inputFile lines (processCalls inputFile lines calls none) ∧
      FailuresLeaveNothing (processCalls inputFile lines calls none)) ↔
    ∀ r ∈ processCalls inputFile lines calls none, r.Settled inputFile lines := by
  constructor
  · intro h r hr
    exact (settled_iff (ofCall_of_mem hr)).mpr (h.2 r hr)
  · intro hsettled
    refine ⟨fun pre r post htrace hsuccess => ?_, fun r hr => ?_⟩
    · have hempty : Explained inputFile lines [] none := fun _ h => by cases h
      exact processCalls_success hempty hsettled htrace hsuccess
    · exact (settled_iff (ofCall_of_mem hr)).mp (hsettled r hr)

/-- Two runs of the script on `T/1.input.txt`; `opt` fails in the same way each time it is started. -/
def failingCalls : List Call :=
  List.replicate 2
    { config := {
        kernelDir := "linux".toList
        plugin := "libTaintTrackerPass.so".toList
        interproc := "true".toList
        upwardInterproc := "true".toList
        indirectCall := "true".toList
        cwd := "repo".toList
        timeout := none }
      run := fun _ _ => .exited 1 "opt: error".toList }

/-- The first call reports exit code 1 and leaves its file; the second one takes it for a report. -/
theorem processCalls_skips_failed_run :
    ¬ (SuccessesComplete (.parse "T/1.input.txt".toList) ["SOURCE_FILE=a.c".toList]
        (processCalls (.parse "T/1.input.txt".toList) ["SOURCE_FILE=a.c".toList] failingCalls none) ∨
      FailuresLeaveNothing
        (processCalls (.parse "T/1.input.txt".toList) ["SOURCE_FILE=a.c".toList] failingCalls none)) := by
  generalize htrace : processCalls _ _ failingCalls none = trace
  have hlength : trace.length = 2 := by
    rw [← htrace]
    rfl
  have hsuccess : trace.map (·.result.success) = [false, true] := by
    rw [← htrace]
    decide
  have hafter : trace.map (·.after.isSome) = [true, true] := by
    rw [← htrace]
    decide
  have hruns : trace.map (fun r => r.optRun (.parse "T/1.input.txt".toList)
      ["SOURCE_FILE=a.c".toList]) = [some (.exited 1 "opt: error".toList), none] := by
    rw [← htrace]
    decide
  -- the first call fails and leaves its output, the second takes it for a finished one
  obtain ⟨r₁, r₂, rfl⟩ := List.length_eq_two.mp hlength
  obtain ⟨hfirst, hsecond⟩ : r₁.result.success = false ∧ r₂.result.success = true := by
    simpa using hsuccess
  rintro (hcomplete | hnothing)
  · obtain ⟨r, hr, output, _, hrun, _⟩ := hcomplete [r₁] r₂ [] rfl hsecond
    have hmem : some (RunOutcome.exited 0 output) ∈ [some (.exited 1 "opt: error".toList), none] := by
      rw [← hruns, ← hrun]
      exact List.mem_map_of_mem hr
    simp at hmem
  · have hnone := hnothing r₁ (by simp) hfirst
    simp [hnone] at hafter

end AnalysisParallel

end LinuxAnalysis
