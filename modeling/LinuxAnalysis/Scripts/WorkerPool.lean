import LinuxAnalysis.Lib.Pool
import LinuxAnalysis.Lib.Transition
import LinuxAnalysis.Scripts.AnalysisParallel

/-!
# ss-analysis-parallel.py: the pool of workers

`main` hands the input files to a pool and collects the results in the order in which workers finish.
Here `process_input_file` runs in small steps, one for each access to the output file, and the steps of
different workers interleave in any way.  A job works on the output file of its own, so two jobs meet
only where they have the same output file.
-/

open LinuxAnalysis.Lib

namespace LinuxAnalysis

namespace AnalysisParallel

/-! ## 1. `process_input_file` in small steps -/

/-- What `opt` writes before it exits or is killed, when it is started. -/
def RunOutcome.output : RunOutcome → Option Text
  | .notOpened _ | .notStarted _ => none
  | .exited _ output => some output
  | .timedOut partialOutput _ => some partialOutput

/-- The arguments of `process_input_file`, with the lines of the input file. -/
structure Job where
  inputFile : Path
  lines : List Text
  call : Call

namespace Job

def outputFile (j : Job) : Path := sibling j.inputFile ".output.txt"

/-- `time_statistics`: what `/usr/bin/time` writes there is read by nothing. -/
def timeStatistics (j : Job) : Path := sibling j.inputFile ".time.txt"

def vars (j : Job) : List (Text × Text) := parseInputFile j.lines

def sourcePath (j : Job) : Path := .parse (getVariable j.vars "SOURCE_FILE")

def llFile (j : Job) : Except Text Path := j.sourcePath.withSuffix ".ll".toList

def outcome (j : Job) : RunOutcome :=
  j.call.run (optCmd j.inputFile j.call.config j.vars) j.call.config.cwd

def info (j : Job) (llFile : Path) : Text :=
  additionalInfo (.parse j.call.config.kernelDir) llFile j.sourcePath

def success (j : Job) : Result := ⟨j.inputFile.str, true, none⟩

def failure (j : Job) (message : Text) : Result := ⟨j.inputFile.str, false, some message⟩

def timeoutFailure (j : Job) : Result :=
  j.failure ("opt timed out after ".toList ++ strTimeout j.call.config.timeout ++ ['s'])

def exitResult (j : Job) (returncode : Int) : Result :=
  if returncode ≠ 0 then
    j.failure ("opt command failed with exit code ".toList ++ Str.strInt returncode)
  else j.success

/-- The result and the output file of a call whose run of `opt` ends in some way. -/
def ending (j : Job) (llFile : Path) : RunOutcome → Result × Option Text
  | .notOpened message => (j.failure message, none)
  | .notStarted message => (j.failure message, some [])
  | .timedOut output removed => (j.timeoutFailure, if removed then none else some output)
  | .exited returncode output => (j.exitResult returncode, some (output ++ j.info llFile))

/-- The call on its own, from an output file to an output file. -/
def alone (j : Job) (outputFile : Option Text) : Result × Option Text :=
  processInputFile j.inputFile j.lines j.call outputFile

end Job

/-- Where a worker is in `process_input_file`. -/
inductive Phase where
  | start
  /-- `output_file.exists()` was false. -/
  | absent
  /-- The output file is open and `opt` not started. -/
  | opened (llFile : Path)
  /-- `opt` is running and has `rest` still to write. -/
  | writing (llFile : Path) (rest : Text)
  /-- The process group was killed. -/
  | killed (removed : Bool)
  | done (result : Result)

/-- One step of a worker, with the output file before and after it. -/
inductive Move (j : Job) : Phase × Option Text → Phase × Option Text → Prop where
  | skip {content} : Move j (.start, some content) (.done j.success, some content)
  | absent : Move j (.start, none) (.absent, none)
  | noSuffix {message file} : j.llFile = .error message →
      Move j (.absent, file) (.done (j.failure message), file)
  | notOpened {llFile message file} : j.llFile = .ok llFile → j.outcome = .notOpened message →
      Move j (.absent, file) (.done (j.failure message), file)
  -- mode 'w' empties a file that came up since the test
  | opened {llFile file} : j.llFile = .ok llFile → (∀ message, j.outcome ≠ .notOpened message) →
      Move j (.absent, file) (.opened llFile, some [])
  | notStarted {llFile message file} : j.outcome = .notStarted message →
      Move j (.opened llFile, file) (.done (j.failure message), file)
  | started {llFile output file} : j.outcome.output = some output →
      Move j (.opened llFile, file) (.writing llFile output, file)
  | write {llFile chunk rest file} : chunk ≠ [] →
      Move j (.writing llFile (chunk ++ rest), file) (.writing llFile rest, file.map (· ++ chunk))
  | timedOut {llFile output removed file} : j.outcome = .timedOut output removed →
      Move j (.writing llFile [], file) (.killed removed, file)
  | remove {removed file} :
      Move j (.killed removed, file) (.done j.timeoutFailure, if removed then none else file)
  | exited {llFile returncode output file} : j.outcome = .exited returncode output →
      Move j (.writing llFile [], file)
        (.done (j.exitResult returncode), file.map (· ++ j.info llFile))

/-- A worker that found the output file `before` is on the way to what the call does alone. -/
def OnTheWay (j : Job) (before : Option Text) : Phase × Option Text → Prop
  | (.start, file) => file = before
  | (.absent, file) => before = none ∧ file = none
  | (.opened llFile, file) => before = none ∧ j.llFile = .ok llFile ∧
      (∀ message, j.outcome ≠ .notOpened message) ∧ file = some []
  | (.writing llFile rest, file) => before = none ∧ j.llFile = .ok llFile ∧
      ∃ written, j.outcome.output = some (written ++ rest) ∧ file = some written
  | (.killed removed, file) => before = none ∧ ∃ llFile output, j.llFile = .ok llFile ∧
      j.outcome = .timedOut output removed ∧ file = some output
  | (.done result, file) => (result, file) = j.alone before

theorem alone_of_error {j : Job} {message : Text} (h : j.llFile = .error message) :
    j.alone none = (j.failure message, none) := by
  unfold Job.llFile Job.sourcePath Job.vars at h
  simp only [Job.alone, processInputFile, h]
  rfl

theorem alone_of_ok {j : Job} {llFile : Path} (h : j.llFile = .ok llFile) :
    j.alone none = j.ending llFile j.outcome := by
  unfold Job.llFile Job.sourcePath Job.vars at h
  simp only [Job.alone, processInputFile, h]
  unfold Job.outcome Job.vars
  cases j.call.run (optCmd j.inputFile j.call.config (parseInputFile j.lines)) j.call.config.cwd with
  | exited returncode output =>
    simp only [Job.ending, Job.exitResult]
    split <;> rfl
  | _ => rfl

/-- A step keeps a worker on the way. -/
theorem onTheWay_of_move {j : Job} {before : Option Text} {p q : Phase × Option Text}
    (hp : OnTheWay j before p) (h : Move j p q) : OnTheWay j before q := by
  cases h with
  | skip =>
    cases hp
    rfl
  | absent => exact ⟨hp.symm, rfl⟩
  | noSuffix herror =>
    obtain ⟨rfl, rfl⟩ := hp
    exact (alone_of_error herror).symm
  | notOpened hok hrun =>
    obtain ⟨rfl, rfl⟩ := hp
    show _ = j.alone none
    rw [alone_of_ok hok, hrun, Job.ending]
  | opened hok hrun => exact ⟨hp.1, hok, hrun, rfl⟩
  | notStarted hrun =>
    obtain ⟨rfl, hok, _, rfl⟩ := hp
    show _ = j.alone none
    rw [alone_of_ok hok, hrun, Job.ending]
  | started hrun =>
    obtain ⟨rfl, hok, _, rfl⟩ := hp
    exact ⟨rfl, hok, [], hrun, rfl⟩
  | @write llFile chunk rest file _ =>
    obtain ⟨rfl, hok, written, hrun, rfl⟩ := hp
    exact ⟨rfl, hok, written ++ chunk, by rw [hrun, List.append_assoc], rfl⟩
  | timedOut hrun =>
    obtain ⟨rfl, hok, written, houtput, rfl⟩ := hp
    rw [hrun, List.append_nil] at houtput
    cases houtput
    exact ⟨rfl, _, _, hok, hrun, rfl⟩
  | @remove removed file =>
    obtain ⟨rfl, llFile, output, hok, hrun, rfl⟩ := hp
    show _ = j.alone none
    rw [alone_of_ok hok, hrun, Job.ending]
  | exited hrun =>
    obtain ⟨rfl, hok, written, houtput, rfl⟩ := hp
    rw [hrun, List.append_nil] at houtput
    cases houtput
    show _ = j.alone none
    rw [alone_of_ok hok, hrun]
    rfl

theorem onTheWay_of_moves {j : Job} {before : Option Text} {q : Phase × Option Text}
    (h : Relation.ReflTransGen (Move j) (.start, before) q) : OnTheWay j before q := by
  have hstart : OnTheWay j before (.start, before) := rfl
  exact steps_invariant (I := OnTheWay j before) (fun _ _ => onTheWay_of_move) hstart h

/-- A worker on the way is done or has a step to make. -/
theorem move_of_onTheWay {j : Job} {before : Option Text} {phase : Phase} {file : Option Text}
    (h : OnTheWay j before (phase, file)) :
    (∃ result, phase = .done result) ∨ ∃ q, Move j (phase, file) q := by
  cases phase with
  | start =>
    cases file with
    | none => exact .inr ⟨_, .absent⟩
    | some content => exact .inr ⟨_, .skip⟩
  | absent =>
    cases hsuffix : j.llFile with
    | error message => exact .inr ⟨_, .noSuffix hsuffix⟩
    | ok llFile =>
      by_cases hopen : ∃ message, j.outcome = .notOpened message
      · obtain ⟨message, hrun⟩ := hopen
        exact .inr ⟨_, .notOpened hsuffix hrun⟩
      · exact .inr ⟨_, .opened hsuffix (not_exists.mp hopen)⟩
  | opened llFile =>
    obtain ⟨_, _, hopen, _⟩ := h
    cases hrun : j.outcome with
    | notOpened message => exact absurd hrun (hopen message)
    | notStarted message => exact .inr ⟨_, .notStarted hrun⟩
    | exited returncode output =>
      have houtput : j.outcome.output = some output := by
        rw [hrun]
        rfl
      exact .inr ⟨_, .started houtput⟩
    | timedOut output removed =>
      have houtput : j.outcome.output = some output := by
        rw [hrun]
        rfl
      exact .inr ⟨_, .started houtput⟩
  | writing llFile rest =>
    cases rest with
    | cons c rest => exact .inr ⟨_, @Move.write j llFile [c] rest file (by simp)⟩
    | nil =>
      obtain ⟨_, _, written, houtput, _⟩ := h
      cases hrun : j.outcome with
      | notOpened message =>
        rw [hrun] at houtput
        cases houtput
      | notStarted message =>
        rw [hrun] at houtput
        cases houtput
      | exited returncode output => exact .inr ⟨_, .exited hrun⟩
      | timedOut output removed => exact .inr ⟨_, .timedOut hrun⟩
  | killed removed => exact .inr ⟨_, .remove⟩
  | done result => exact .inl ⟨result, rfl⟩

/-- A bound on the steps a worker has still to make. -/
def Job.remaining (j : Job) : Phase → Nat
  | .start => (j.outcome.output.getD []).length + 5
  | .absent => (j.outcome.output.getD []).length + 4
  | .opened _ => (j.outcome.output.getD []).length + 3
  | .writing _ rest => rest.length + 2
  | .killed _ => 1
  | .done _ => 0

theorem remaining_lt {j : Job} {p q : Phase × Option Text} (h : Move j p q) :
    j.remaining q.1 < j.remaining p.1 := by
  cases h with
  | started hrun => simp only [Job.remaining, hrun, Option.getD_some]; omega
  | @write llFile chunk rest file hchunk =>
    have hpos := List.length_pos_of_ne_nil hchunk
    simp only [Job.remaining, List.length_append]
    omega
  | _ => simp only [Job.remaining]; omega

/-! ## 2. Output files

`sibling` drops every `.input` of the stem, so `1.input.txt` and `1.input.input.txt` share an output
file; the names that the inputs of a data set have do not. -/

/-- `dir / f"{base}.input.txt"` -/
def numberedInput (dir : Path) (base : Text) : Path :=
  ⟨dir.root, dir.parts ++ [base ++ ".input.txt".toList]⟩

theorem sibling_numberedInput (dir : Path) {base : Text} (hne : base ≠ []) (hdot : '.' ∉ base)
    (hslash : '/' ∉ base) : sibling (numberedInput dir base) ".output.txt" =
      ⟨dir.root, dir.parts ++ [base ++ ".output.txt".toList]⟩ := by
  have hname : (numberedInput dir base).name = base ++ ".input".toList ++ '.' :: "txt".toList := by
    simp [numberedInput, Path.name, List.getLastD_eq_getLast?]
  have hstem : (numberedInput dir base).stem = base ++ ".input".toList := by
    rw [Path.stem, hname, Path.stemAndSuffix, Str.rsplitOnce_append (by decide)]
    simp
  have hreplace : Str.replace (base ++ ".input".toList) ".input".toList [] = base := by
    have htail : Str.replace ".input".toList ".input".toList [] = [] := by decide
    rw [show ".input".toList = '.' :: "input".toList from rfl, Str.replace_append hdot,
      show '.' :: "input".toList = ".input".toList from rfl, htail, List.append_nil]
  have hparse : Path.parse (base ++ ".output.txt".toList) = ⟨[], [base ++ ".output.txt".toList]⟩ := by
    refine Path.parse_of_not_mem ?_ (by simp [hne]) fun h => ?_
    · rw [List.mem_append, not_or]
      exact ⟨hslash, by decide⟩
    · have hlength := congrArg List.length h
      simp at hlength
  rw [sibling, hstem, hreplace, hparse, Path.join, if_pos (by rfl)]
  simp [Path.parent, numberedInput]

/-- Different plain names in the directories of a data set have different output files. -/
theorem nodup_outputFile (names : List (Path × Text)) {jobs : List Job} (hnames : names.Nodup)
    (hplain : ∀ e ∈ names, e.2 ≠ [] ∧ '.' ∉ e.2 ∧ '/' ∉ e.2)
    (hjobs : jobs.map Job.inputFile = names.map fun e => numberedInput e.1 e.2) :
    (jobs.map Job.outputFile).Nodup := by
  have houtputs : jobs.map Job.outputFile =
      names.map fun e => ⟨e.1.root, e.1.parts ++ [e.2 ++ ".output.txt".toList]⟩ := by
    have hsibling := congrArg (List.map fun p => sibling p ".output.txt") hjobs
    rw [List.map_map, List.map_map] at hsibling
    refine hsibling.trans (List.map_congr_left fun e he => ?_)
    obtain ⟨hne, hdot, hslash⟩ := hplain e he
    exact sibling_numberedInput e.1 hne hdot hslash
  rw [houtputs]
  refine hnames.map_on fun e _ e' _ heq => ?_
  simp only [Lib.Path.mk.injEq] at heq
  obtain ⟨hparts, hbase⟩ := List.append_inj' heq.2 rfl
  simp only [List.cons.injEq, List.append_cancel_right_eq, and_true] at hbase
  have hdir : e.1 = e'.1 :=
    calc e.1 = ⟨e.1.root, e.1.parts⟩ := rfl
      _ = ⟨e'.1.root, e'.1.parts⟩ := by rw [heq.1, hparts]
      _ = e'.1 := rfl
  exact Prod.ext hdir hbase

/-! ## 3. The pool -/

def Phase.result : Phase → Option Result
  | .done result => some result
  | _ => none

/-- What `main` hands to `imap_unordered`. -/
def workload (jobs : List Job) : Workload jobs.length Phase Path (Option Text) Result where
  cell i := (jobs.get i).outputFile
  start := .start
  move i := Move (jobs.get i)
  outcome := Phase.result
  remaining i := (jobs.get i).remaining
  remaining_lt := remaining_lt
  outcome_of_move h := by cases h <;> rfl
  progress {i b q} h := by
    rcases move_of_onTheWay (onTheWay_of_moves h) with ⟨result, hdone⟩ | hmove
    · rw [hdone]
      exact .inl rfl
    · exact .inr hmove

/-- What the calls give one by one. -/
def aloneResults (jobs : List Job) (files : Path → Option Text) : List Result :=
  jobs.map fun j => (j.alone (files j.outputFile)).1

variable {jobs : List Job} {processes : Nat} {files : Path → Option Text}
  {s : Pool jobs.length Phase Path (Option Text) Result}

theorem injective_cell (h : (jobs.map Job.outputFile).Nodup) :
    Function.Injective (workload jobs).cell := by
  intro i k heq
  have hi : (jobs.map Job.outputFile)[i.val]? = (jobs.map Job.outputFile)[k.val]? := by
    simpa [workload] using heq
  exact Fin.ext ((List.getElem?_inj (by simp) h).mp hi)

/-- A collected result is that of the call alone, and so is the output file. -/
theorem alone_of_collected (hdistinct : (jobs.map Job.outputFile).Nodup)
    (h : Pool.Reaches (workload jobs) processes files s) (hend : s.Finished)
    {e : Fin jobs.length × Result} (he : e ∈ s.collected) :
    (e.2, s.state.2 (jobs.get e.1).outputFile) =
      (jobs.get e.1).alone (files (jobs.get e.1).outputFile) := by
  obtain ⟨_, hcollected, _⟩ := Pool.of_finished (injective_cell hdistinct) h hend
  obtain ⟨phase, hmoves, hresult⟩ := hcollected e he
  have hway := onTheWay_of_moves hmoves
  cases phase with
  | done result =>
    cases hresult
    exact hway
  | _ => cases hresult

theorem results_perm (hdistinct : (jobs.map Job.outputFile).Nodup)
    (h : Pool.Reaches (workload jobs) processes files s) (hend : s.Finished) :
    (s.collected.map Prod.snd).Perm (aloneResults jobs files) := by
  have hperm := (Pool.collected_perm (injective_cell hdistinct) h hend
    (fun i => ((jobs.get i).alone (files (jobs.get i).outputFile)).1)
    fun e he => congrArg Prod.fst (alone_of_collected hdistinct h hend he)).map Prod.snd
  have hall := congrArg (List.map fun j : Job => (j.alone (files j.outputFile)).1)
    (List.map_get_finRange jobs)
  rw [List.map_map] at hperm hall
  exact hperm.trans (.of_eq hall)

theorem files_of_finished (hdistinct : (jobs.map Job.outputFile).Nodup)
    (h : Pool.Reaches (workload jobs) processes files s) (hend : s.Finished) :
    (∀ j ∈ jobs, s.state.2 j.outputFile = (j.alone (files j.outputFile)).2) ∧
    ∀ path, (∀ j ∈ jobs, j.outputFile ≠ path ∧ j.timeStatistics ≠ path) →
      s.state.2 path = files path := by
  obtain ⟨hperm, _, hframe⟩ := Pool.of_finished (injective_cell hdistinct) h hend
  constructor
  · intro j hj
    obtain ⟨i, rfl⟩ := List.get_of_mem hj
    obtain ⟨e, he, rfl⟩ := List.mem_map.mp (hperm.mem_iff.mpr (List.mem_finRange i))
    exact congrArg Prod.snd (alone_of_collected hdistinct h hend he)
  · intro path hpath
    exact hframe path fun i => (hpath _ (List.get_mem jobs i)).1

/-- **Every schedule ends.**  With at least one worker the pool is never stuck before all results are
collected, the number of its steps is bounded, and from every state it comes to its end. -/
theorem pool_terminates (jobs : List Job) (processes : Nat) (files : Path → Option Text)
    (hprocesses : 0 < processes) (hdistinct : (jobs.map Job.outputFile).Nodup) :
    (WellFounded fun t s => Pool.Step (workload jobs) processes s t) ∧
    ∀ s, Pool.Reaches (workload jobs) processes files s →
      (s.Finished ∨ ∃ t, Pool.Step (workload jobs) processes s t) ∧
      ∃ t, Relation.ReflTransGen (Pool.Step (workload jobs) processes) s t ∧ t.Finished := by
  have hcell := injective_cell hdistinct
  refine ⟨Pool.wellFounded_step, fun s hs => ⟨?_, Pool.reaches_finished hprocesses hcell hs⟩⟩
  by_cases hend : s.Finished
  · exact .inl hend
  · exact .inr (Pool.step_of_not_finished hprocesses hcell hs hend)

/-- Two inputs of a data set: `opt` fails on the first one and succeeds on the second. -/
def twoJobs : List Job :=
  [("1".toList, .exited 1 "opt: error".toList), ("2".toList, .exited 0 "report".toList)].map
    fun e : Text × RunOutcome =>
      { inputFile := numberedInput (.parse "dataset/T".toList) e.1
        lines := ["SOURCE_FILE=a.c".toList]
        call := {
          config := {
            kernelDir := "linux".toList
            plugin := "libTaintTrackerPass.so".toList
            interproc := "true".toList
            upwardInterproc := "true".toList
            indirectCall := "true".toList
            cwd := "repo".toList
            timeout := none }
          run := fun _ _ => e.2 } }

theorem nodup_twoJobs : (twoJobs.map Job.outputFile).Nodup := by
  exact nodup_outputFile [(.parse "dataset/T".toList, "1".toList),
    (.parse "dataset/T".toList, "2".toList)] (by decide) (by decide) rfl

theorem pool_terminates_twoJobs :
    ∃ t, Pool.Reaches (workload twoJobs) 2 (fun _ => none) t ∧ t.Finished :=
  ((pool_terminates twoJobs 2 (fun _ => none) (by decide) nodup_twoJobs).2 _ .refl).2

/-! ## 4. The summary of `main` -/

structure Summary where
  failed : List (Text × Option Text)
  successCount : Nat
  total : Nat
  exitCode : Nat
  deriving DecidableEq

def failedJobs (results : List Result) : List (Text × Option Text) :=
  (results.filter fun r => !r.success).map fun r => (r.inputFile, r.errorMessage)

/-- What `main` prints and returns after the loop. -/
def summarize (total : Nat) (results : List Result) : Summary where
  failed := failedJobs results
  successCount := results.length - (failedJobs results).length
  total := total
  exitCode := if (failedJobs results).isEmpty then 0 else 1

theorem summarize_perm {results results' : List Result} (h : results.Perm results') (total : Nat) :
    (summarize total results).failed.Perm (summarize total results').failed ∧
    (summarize total results).successCount = (summarize total results').successCount ∧
    (summarize total results).exitCode = (summarize total results').exitCode := by
  have hfailed : (failedJobs results).Perm (failedJobs results') := (h.filter _).map _
  have hempty : (failedJobs results).isEmpty = (failedJobs results').isEmpty := by
    rw [Bool.eq_iff_iff, List.isEmpty_iff_length_eq_zero, List.isEmpty_iff_length_eq_zero,
      hfailed.length_eq]
  refine ⟨hfailed, ?_, ?_⟩
  · simp only [summarize]
    rw [h.length_eq, hfailed.length_eq]
  · simp only [summarize, hempty]

/-- **The schedule does not matter.**  When no two jobs have the same output file, every run of the pool
that ends, with any number of workers and in any order of their steps, collects the results of the calls
made one by one, each once, leaves the output files that they leave and changes no file but these and the
time statistics, and so ends in the same summary. -/
theorem pool_schedule_independent (jobs : List Job) (processes : Nat) (files : Path → Option Text)
    (hdistinct : (jobs.map Job.outputFile).Nodup)
    (s : Pool jobs.length Phase Path (Option Text) Result)
    (h : Pool.Reaches (workload jobs) processes files s) (hend : s.Finished) :
    (s.collected.map Prod.snd).Perm (aloneResults jobs files) ∧
    (∀ j ∈ jobs, s.state.2 j.outputFile = (j.alone (files j.outputFile)).2) ∧
    (∀ path, (∀ j ∈ jobs, j.outputFile ≠ path ∧ j.timeStatistics ≠ path) →
      s.state.2 path = files path) ∧
    (summarize jobs.length (s.collected.map Prod.snd)).failed.Perm
      (summarize jobs.length (aloneResults jobs files)).failed ∧
    (summarize jobs.length (s.collected.map Prod.snd)).successCount =
      (summarize jobs.length (aloneResults jobs files)).successCount ∧
    (summarize jobs.length (s.collected.map Prod.snd)).exitCode =
      (summarize jobs.length (aloneResults jobs files)).exitCode := by
  have hperm := results_perm hdistinct h hend
  obtain ⟨halone, hframe⟩ := files_of_finished hdistinct h hend
  exact ⟨hperm, halone, hframe, summarize_perm hperm jobs.length⟩

theorem pool_schedule_independent_twoJobs : ∃ s,
    Pool.Reaches (workload twoJobs) 2 (fun _ => none) s ∧ s.Finished ∧
    (summarize 2 (s.collected.map Prod.snd)).successCount = 1 ∧
    (summarize 2 (s.collected.map Prod.snd)).exitCode = 1 := by
  have hstart : Pool.Reaches (workload twoJobs) 2 (fun _ => none)
      (Pool.initial (workload twoJobs) fun _ => none) := .refl
  obtain ⟨s, hs, hend⟩ := Pool.reaches_finished (by decide) (injective_cell nodup_twoJobs) hstart
  obtain ⟨_, _, _, _, hcount, hcode⟩ :=
    pool_schedule_independent twoJobs 2 (fun _ => none) nodup_twoJobs s hs hend
  exact ⟨s, hs, hend, hcount.trans (by decide), hcode.trans (by decide)⟩

end AnalysisParallel

end LinuxAnalysis
