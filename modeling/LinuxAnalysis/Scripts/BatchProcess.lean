import LinuxAnalysis.Lib.Pointwise
import LinuxAnalysis.Lib.Pool
import LinuxAnalysis.Lib.Transition
import LinuxAnalysis.Scripts.FuncOffset
import LinuxAnalysis.Scripts.SsGen

/-!
# ir_to_assembly.py --batch: many reports at once

`batch_process` gives the reports of a directory to a thread pool and sums up the results in the order in
which they are completed.  Each report has an offset file of its own, so that the threads do not meet; the
log is written by the main thread alone, which opens it before the first report is read.
-/

open LinuxAnalysis.Lib

namespace LinuxAnalysis

namespace IrToAssembly

/-! ## 1. `process_single_file` in small steps -/

/-- A result with its status. -/
abbrev FileResult := Except Text SpanResult

/-- What `process_single_file` returns. -/
inductive FileOutcome where
  /-- The report is not there any more. -/
  | missing
  | raised
  | results (rs : List FileResult)
  deriving DecidableEq

def FileOutcome.results? : FileOutcome → Option (List FileResult)
  | .results rs => some rs
  | _ => none

/-- An offset file that is open, or that is written. -/
inductive OffsetFile where
  | opened
  | written (entries : List OffsetEntry)
  deriving DecidableEq

/-- `output_file[:-len('.output.txt')] + '.func_offset.json'` -/
def jsonPath (outputFile : Text) : Text :=
  outputFile.take (outputFile.length - ".output.txt".toList.length) ++ ".func_offset.json".toList

/-- The entries of some results. -/
def offsetEntries (rs : List FileResult) : List OffsetEntry :=
  rs.filterMap fun r => r.toOption.bind funcOffsetEntry

section Files

variable [Unicode]

/-- The results for a parsed report; `none` is an exception. -/
def fileResults (c : Caches) : Parsed → Option (List FileResult)
  | .error message => some [.error message]
  | .multiple rs => rs.mapM fun r =>
    match r with
    | .error message => some (.error message)
    | .ok r => (processSingleResult c r).map .ok
  | .single r => (processSingleResult c r).map fun res => [.ok res]

/-- The outcome for a report. -/
def fileOutcome (c : Caches) (outputFile : Text) : Option Text → FileOutcome
  | none => .missing
  | some text =>
    match (parseDataflowAnalysisOutputFile outputFile text).bind (fileResults c) with
    | none => .raised
    | some rs => .results rs

/-- The offset file behind an outcome. -/
def offsetFileAfter (outcome : FileOutcome) (before : Option OffsetFile) : Option OffsetFile :=
  (outcome.results?.map fun rs => .written (offsetEntries rs)).or before

/-- The single-file mode drops the messages of errors. -/
theorem processParsed_eq (c : Caches) (p : Parsed) :
    processParsed c p = (fileResults c p).map (List.map Except.toOption) := by
  cases p with
  | error message => rfl
  | single r =>
    rw [processParsed, fileResults]
    cases processSingleResult c r <;> rfl
  | multiple rs =>
    rw [processParsed, fileResults]
    induction rs with
    | nil => rfl
    | cons r rs ih =>
      rw [List.mapM_cons, List.mapM_cons, ih]
      generalize (List.mapM _ rs : Option (List FileResult)) = tail
      cases r with
      | error message => cases tail <;> rfl
      | ok r =>
        dsimp only
        cases processSingleResult c r with
        | none => rfl
        | some res => cases tail <;> rfl

/-- What the results leave in the offset file is what the single-file mode writes. -/
theorem processSingleFile_eq (c : Caches) {outputFile : Text} (text : Text)
    (hends : Str.endswith outputFile ".output.txt".toList = true) :
    processSingleFile c outputFile text =
      (fileOutcome c outputFile (some text)).results?.map fun rs =>
        some (jsonPath outputFile, offsetEntries rs) := by
  rw [processSingleFile, fileOutcome]
  cases parseDataflowAnalysisOutputFile outputFile text with
  | none => rfl
  | some parsed =>
    rw [Option.bind_some, Option.bind_some, processParsed_eq]
    cases fileResults c parsed with
    | none => rfl
    | some rs =>
      rw [Option.map_some, Option.map_some, writeFuncOffsetJson, if_pos hends, List.filterMap_map]
      rfl

end Files

/-- Where a thread is in `process_single_file`. -/
inductive FilePhase where
  | start
  /-- The offset file is open and empty. -/
  | opened (rs : List FileResult)
  | done (outcome : FileOutcome)

def FilePhase.outcome : FilePhase → Option FileOutcome
  | .done outcome => some outcome
  | _ => none

def FilePhase.remaining : FilePhase → Nat
  | .start => 2
  | .opened _ => 1
  | .done _ => 0

/-- One step of a thread whose report has the given outcome, with the offset file. -/
inductive FileMove (outcome : FileOutcome) :
    FilePhase × Option OffsetFile → FilePhase × Option OffsetFile → Prop where
  | missing {file} : outcome = .missing → FileMove outcome (.start, file) (.done .missing, file)
  | raised {file} : outcome = .raised → FileMove outcome (.start, file) (.done .raised, file)
  | opened {rs file} : outcome = .results rs →
      FileMove outcome (.start, file) (.opened rs, some .opened)
  | written {rs file} : FileMove outcome (.opened rs, file)
      (.done (.results rs), some (.written (offsetEntries rs)))

/-- A thread is on the way to the outcome. -/
def OnTheWay (outcome : FileOutcome) (before : Option OffsetFile) :
    FilePhase × Option OffsetFile → Prop
  | (.start, file) => file = before
  | (.opened rs, _) => outcome = .results rs
  | (.done result, file) => result = outcome ∧ file = offsetFileAfter outcome before

theorem onTheWay_of_moves {outcome : FileOutcome} {before : Option OffsetFile}
    {q : FilePhase × Option OffsetFile}
    (h : Relation.ReflTransGen (FileMove outcome) (.start, before) q) : OnTheWay outcome before q := by
  have hstart : OnTheWay outcome before (.start, before) := rfl
  refine steps_invariant (I := OnTheWay outcome before) (fun p q hp hmove => ?_) hstart h
  cases hmove with
  | missing h =>
    cases hp
    rw [h]
    exact ⟨rfl, rfl⟩
  | raised h =>
    cases hp
    rw [h]
    exact ⟨rfl, rfl⟩
  | opened h => exact h
  | written =>
    rw [show outcome = _ from hp]
    exact ⟨rfl, rfl⟩

/-! ## 2. The thread pool -/

section Batch

variable [Unicode]

/-- What `batch_process` submits to the executor. -/
def batchWorkload (c : Caches) (reports : Text → Option Text) (files : List Text) :
    Workload files.length FilePhase Text (Option OffsetFile) FileOutcome where
  cell i := jsonPath (files.get i)
  start := .start
  move i := FileMove (fileOutcome c (files.get i) (reports (files.get i)))
  outcome := FilePhase.outcome
  remaining _ := FilePhase.remaining
  remaining_lt h := by cases h <;> simp [FilePhase.remaining]
  outcome_of_move h := by cases h <;> rfl
  progress {i b q} h := by
    obtain ⟨phase, file⟩ := q
    cases phase with
    | start =>
      cases houtcome : fileOutcome c (files.get i) (reports (files.get i)) with
      | missing => exact .inr ⟨_, .missing rfl⟩
      | raised => exact .inr ⟨_, .raised rfl⟩
      | results rs => exact .inr ⟨_, .opened rfl⟩
    | opened rs => exact .inr ⟨_, .written⟩
    | done outcome => exact .inl rfl

end Batch

/-- `results` and the log, while results come in. -/
structure BatchState where
  completedCount : Nat
  success : List (Text × Text)
  notFound : List Text
  error : List (Text × Text)
  log : List Text

def headerLine (completedCount total : Nat) (file : Text) : Text :=
  '[' :: (Str.str completedCount ++ '/' :: (Str.str total ++ ']' :: ' ' :: file))

/-- An `f`-string shows `None`. -/
def shown (x : Option Text) : Text := x.getD "None".toList

def outputStr (res : SpanResult) (startAddr endAddr : Text) : Text :=
  ", ".toList.intercalate [
    res.earliestFile ++ ':' :: Str.strInt res.earliestLine,
    res.latestFile ++ ':' :: Str.strInt res.latestLine,
    "0x".toList ++ startAddr,
    "0x".toList ++ endAddr,
    shown res.startSymbol,
    shown res.startOffset,
    shown res.endOffset]

/-- The turn for one result of a file. -/
def recordResult (total : Nat) (file : Text) (st : BatchState) (r : FileResult) : BatchState :=
  let header := headerLine st.completedCount total file
  match r with
  | .error message =>
    { st with
      error := st.error ++ [(file, message)]
      log := st.log ++ [header, "  -> ERROR: ".toList ++ message, []] }
  | .ok res =>
    match present res.startAddr, present res.endAddr with
    | some startAddr, some endAddr =>
      { st with
        success := st.success ++ [(file, outputStr res startAddr endAddr)]
        log := st.log ++ [header, "  -> ".toList ++ outputStr res startAddr endAddr, []] }
    | _, _ =>
      { st with
        notFound := st.notFound ++ [file]
        log := st.log ++ [header, "  -> Addresses not found".toList, []] }

/-- The turn for one completed file; `raisedText` is the text of an exception. -/
def recordFile (raisedText : Text → Text) (total : Nat) (st : BatchState)
    (e : Text × FileOutcome) : BatchState :=
  let st := { st with completedCount := st.completedCount + 1 }
  match e.2 with
  | .missing => st
  | .raised =>
    { st with
      error := st.error ++ [(e.1, raisedText e.1)]
      log := st.log ++ [headerLine st.completedCount total e.1,
        "  -> EXCEPTION: ".toList ++ raisedText e.1, []] }
  | .results rs => rs.foldl (recordResult total e.1) st

/-- The loop over `as_completed`. -/
def recordAll (raisedText : Text → Text) (total : Nat) (completed : List (Text × FileOutcome)) :
    BatchState :=
  completed.foldl (recordFile raisedText total) ⟨0, [], [], [], []⟩

/-! ## 3. The summary -/

/-- Where a result is counted. -/
def successOf (file : Text) : FileResult → Option (Text × Text)
  | .error _ => none
  | .ok res => (present res.startAddr).bind fun startAddr =>
    (present res.endAddr).map fun endAddr => (file, outputStr res startAddr endAddr)

def notFoundOf (file : Text) : FileResult → Option Text
  | .error _ => none
  | .ok res =>
    if (present res.startAddr).isSome && (present res.endAddr).isSome then none else some file

def errorOf (file : Text) : FileResult → Option (Text × Text)
  | .error message => some (file, message)
  | .ok _ => none

def FileOutcome.resultList (o : FileOutcome) : List FileResult := o.results?.getD []

def successes (e : Text × FileOutcome) : List (Text × Text) :=
  e.2.resultList.filterMap (successOf e.1)

def notFounds (e : Text × FileOutcome) : List Text := e.2.resultList.filterMap (notFoundOf e.1)

def errors (raisedText : Text → Text) (e : Text × FileOutcome) : List (Text × Text) :=
  if e.2 = .raised then [(e.1, raisedText e.1)] else e.2.resultList.filterMap (errorOf e.1)

theorem recordResult_lists (total : Nat) (file : Text) (st : BatchState) (r : FileResult) :
    (recordResult total file st r).success = st.success ++ (successOf file r).toList ∧
    (recordResult total file st r).notFound = st.notFound ++ (notFoundOf file r).toList ∧
    (recordResult total file st r).error = st.error ++ (errorOf file r).toList := by
  cases r with
  | error message => simp [recordResult, successOf, notFoundOf, errorOf]
  | ok res =>
    cases hstart : present res.startAddr <;> cases hstop : present res.endAddr <;>
      simp [recordResult, successOf, notFoundOf, errorOf, hstart, hstop]

theorem recordResults_lists (total : Nat) (file : Text) (st : BatchState) (rs : List FileResult) :
    (rs.foldl (recordResult total file) st).success = st.success ++ rs.filterMap (successOf file) ∧
    (rs.foldl (recordResult total file) st).notFound =
      st.notFound ++ rs.filterMap (notFoundOf file) ∧
    (rs.foldl (recordResult total file) st).error = st.error ++ rs.filterMap (errorOf file) := by
  induction rs generalizing st with
  | nil => simp
  | cons r rs ih =>
    obtain ⟨hsuccess, hnotFound, herror⟩ := ih (recordResult total file st r)
    obtain ⟨hsuccess', hnotFound', herror'⟩ := recordResult_lists total file st r
    have hcons {β : Type} (f : FileResult → Option β) :
        (r :: rs).filterMap f = (f r).toList ++ rs.filterMap f := by
      rw [List.filterMap_cons]
      cases f r <;> rfl
    rw [List.foldl_cons, hsuccess, hnotFound, herror, hsuccess', hnotFound', herror', hcons, hcons,
      hcons]
    simp only [List.append_assoc, true_and]

theorem recordFile_lists (raisedText : Text → Text) (total : Nat) (st : BatchState)
    (e : Text × FileOutcome) :
    (recordFile raisedText total st e).success = st.success ++ successes e ∧
    (recordFile raisedText total st e).notFound = st.notFound ++ notFounds e ∧
    (recordFile raisedText total st e).error = st.error ++ errors raisedText e := by
  obtain ⟨file, outcome⟩ := e
  cases outcome with
  | missing => simp [recordFile, successes, notFounds, errors, FileOutcome.resultList,
      FileOutcome.results?]
  | raised => simp [recordFile, successes, notFounds, errors, FileOutcome.resultList,
      FileOutcome.results?]
  | results rs => exact recordResults_lists total file _ rs

theorem recordAll_lists (raisedText : Text → Text) (total : Nat)
    (completed : List (Text × FileOutcome)) :
    (recordAll raisedText total completed).success = completed.flatMap successes ∧
    (recordAll raisedText total completed).notFound = completed.flatMap notFounds ∧
    (recordAll raisedText total completed).error = completed.flatMap (errors raisedText) := by
  induction completed using List.reverseRecOn with
  | nil => exact ⟨rfl, rfl, rfl⟩
  | append_singleton completed e ih =>
    obtain ⟨hsuccess, hnotFound, herror⟩ := recordFile_lists raisedText total
      (recordAll raisedText total completed) e
    rw [recordAll, List.foldl_append, List.foldl_cons, List.foldl_nil, ← recordAll, hsuccess,
      hnotFound, herror, ih.1, ih.2.1, ih.2.2]
    simp only [List.flatMap_append, List.flatMap_singleton, true_and]

/-! ## 4. Entries and successes -/

section Entries

variable [Unicode]

/-- A result with both offsets has both addresses. -/
theorem successOf_of_entry {c : Caches} {r : ParsedResult} {res : SpanResult} {entry : OffsetEntry}
    (hres : processSingleResult c r = some res) (hentry : funcOffsetEntry res = some entry)
    (file : Text) : (successOf file (.ok res)).isSome = true := by
  obtain ⟨⟨e, l⟩, hends, rfl⟩ := Option.map_eq_some_iff.mp hres
  obtain ⟨hstartOffset, hendOffset⟩ := present_of_funcOffsetEntry hentry
  obtain ⟨a, b, ha, hb, haddr, haddr', _⟩ := spanEnds_cases hends hstartOffset hendOffset
  obtain ⟨startAddr, hstart, _⟩ := Option.bind_eq_some_iff.mp ha
  obtain ⟨endAddr, hend, _⟩ := Option.bind_eq_some_iff.mp hb
  rw [← haddr] at hstart
  rw [← haddr'] at hend
  simp [successOf, hstart, hend]

/-- Every result without an error comes from `process_single_result`. -/
theorem of_mem_fileResults {c : Caches} {parsed : Parsed} {rs : List FileResult} {res : SpanResult}
    (h : fileResults c parsed = some rs) (hres : .ok res ∈ rs) :
    ∃ r, processSingleResult c r = some res := by
  cases parsed with
  | error message =>
    cases h
    cases List.mem_singleton.mp hres
  | single r =>
    obtain ⟨res', hres', rfl⟩ := Option.map_eq_some_iff.mp h
    cases List.mem_singleton.mp hres
    exact ⟨r, hres'⟩
  | multiple parsed =>
    obtain ⟨r, _, hr⟩ := forall₂_right (mapM_eq_some_iff.mp h) _ hres
    cases r with
    | error message => cases hr
    | ok r =>
      obtain ⟨res', hres', heq⟩ := Option.map_eq_some_iff.mp hr
      cases heq
      exact ⟨r, hres'⟩

/-- Every entry that is written is counted as a success. -/
theorem length_offsetEntries_le {c : Caches} {file : Text} {report : Option Text}
    {rs : List FileResult} (h : fileOutcome c file report = .results rs) :
    (offsetEntries rs).length ≤ (successes (file, .results rs)).length := by
  have hfrom : ∀ res, .ok res ∈ rs → ∃ r, processSingleResult c r = some res := by
    intro res hres
    cases report with
    | none => cases h
    | some text =>
      rw [fileOutcome] at h
      cases hparsed : (parseDataflowAnalysisOutputFile file text).bind (fileResults c) with
      | none =>
        rw [hparsed] at h
        cases h
      | some rs' =>
        rw [hparsed] at h
        cases h
        obtain ⟨parsed, _, hresults⟩ := Option.bind_eq_some_iff.mp hparsed
        exact of_mem_fileResults hresults hres
  show (rs.filterMap _).length ≤ (rs.filterMap _).length
  rw [List.length_filterMap_eq_countP, List.length_filterMap_eq_countP]
  refine List.countP_mono_left fun r hr hentry => ?_
  obtain ⟨entry, hentry⟩ := Option.isSome_iff_exists.mp hentry
  obtain ⟨res, hres, hentry⟩ := Option.bind_eq_some_iff.mp hentry
  cases r with
  | error message => cases hres
  | ok res' =>
    cases hres
    obtain ⟨parsed, hparsed⟩ := hfrom res hr
    exact successOf_of_entry hparsed hentry file

end Entries

/-! ## 5. The end of a batch -/

section Ends

variable [Unicode]

/-- The offset file behind a run of the script for this report alone. -/
def singleMode (c : Caches) (reports : Text → Option Text) (file : Text)
    (before : Option OffsetFile) : Option OffsetFile :=
  ((((reports file).bind (processSingleFile c file)).join).map fun w => .written w.2).or before

theorem singleMode_eq (c : Caches) (reports : Text → Option Text) {file : Text}
    (hends : Str.endswith file ".output.txt".toList = true) (before : Option OffsetFile) :
    singleMode c reports file before =
      offsetFileAfter (fileOutcome c file (reports file)) before := by
  unfold singleMode
  cases reports file with
  | none => rfl
  | some text =>
    rw [Option.bind_some, processSingleFile_eq c text hends, offsetFileAfter]
    cases (fileOutcome c file (some text)).results? <;> rfl

/-- The outcomes of the files one by one. -/
def aloneOutcomes (c : Caches) (reports : Text → Option Text) (files : List Text) :
    List (Text × FileOutcome) :=
  files.map fun file => (file, fileOutcome c file (reports file))

/-- What `batch_process` has summed up at the end. -/
def batchSummary (raisedText : Text → Text) (files : List Text)
    (s : Pool files.length FilePhase Text (Option OffsetFile) FileOutcome) : BatchState :=
  recordAll raisedText files.length (s.collected.map fun e => (files.get e.1, e.2))

/-- `output_log_path` -/
def outputLogPath : Text := "find-binary-addresses/addr.log".toList

/-- What a batch writes: offset files and the lines of the log. -/
structure BatchFiles where
  offsets : Text → Option OffsetFile
  log : Option (List Text)

/-- How `batch_process` ends. -/
inductive BatchEnd where
  | noReports
  /-- `open` raises, as where the directory of the log does not exist. -/
  | logNotOpened
  /-- `ThreadPoolExecutor` raises. -/
  | noWorkers
  | finished (results : BatchState)

/-- `batch_process` on the reports that are found, where `opens` says which paths can be opened for
writing: the files before, the end and the files after. -/
inductive BatchProcess (c : Caches) (reports : Text → Option Text) (files : List Text) (workers : Nat)
    (opens : Text → Bool) (raisedText : Text → Text) : BatchFiles → BatchEnd → BatchFiles → Prop where
  | noReports {b} : files = [] → BatchProcess c reports files workers opens raisedText b .noReports b
  | logNotOpened {b} : files ≠ [] → opens outputLogPath = false →
      BatchProcess c reports files workers opens raisedText b .logNotOpened b
  -- the log is empty by now
  | noWorkers {b} : files ≠ [] → opens outputLogPath = true → workers = 0 →
      BatchProcess c reports files workers opens raisedText b .noWorkers { b with log := some [] }
  | finished {b s} : files ≠ [] → opens outputLogPath = true → 0 < workers →
      Pool.Reaches (batchWorkload c reports files) workers b.offsets s → s.Finished →
      BatchProcess c reports files workers opens raisedText b (.finished (batchSummary raisedText files s))
        { offsets := s.state.2, log := some (batchSummary raisedText files s).log }

variable {c : Caches} {reports : Text → Option Text} {files : List Text} {workers : Nat}
  {offsets : Text → Option OffsetFile}
  {s : Pool files.length FilePhase Text (Option OffsetFile) FileOutcome}

theorem injective_jsonPath (c : Caches) (reports : Text → Option Text) (hnodup : files.Nodup)
    (hends : ∀ file ∈ files, Str.endswith file ".output.txt".toList = true) :
    Function.Injective (batchWorkload c reports files).cell := by
  intro i k heq
  have hfile := Str.eq_of_take_eq (hends _ (List.get_mem files i)) (hends _ (List.get_mem files k))
    (List.append_cancel_right heq)
  exact List.nodup_iff_injective_get.mp hnodup hfile

theorem outcome_of_collected (hcell : Function.Injective (batchWorkload c reports files).cell)
    (h : Pool.Reaches (batchWorkload c reports files) workers offsets s) (hend : s.Finished)
    {e : Fin files.length × FileOutcome} (he : e ∈ s.collected) :
    e.2 = fileOutcome c (files.get e.1) (reports (files.get e.1)) ∧
      s.state.2 (jsonPath (files.get e.1)) = offsetFileAfter e.2 (offsets (jsonPath (files.get e.1))) := by
  obtain ⟨_, hcollected, _⟩ := Pool.of_finished hcell h hend
  obtain ⟨phase, hmoves, houtcome⟩ := hcollected e he
  have hway := onTheWay_of_moves hmoves
  cases phase with
  | done outcome =>
    cases houtcome
    obtain ⟨houtcome, hfile⟩ := hway
    rw [← houtcome] at hfile
    exact ⟨houtcome, hfile⟩
  | start => cases houtcome
  | opened rs => cases houtcome

/-- The offset files behind the pool. -/
theorem offsets_of_finished (hcell : Function.Injective (batchWorkload c reports files).cell)
    (hends : ∀ file ∈ files, Str.endswith file ".output.txt".toList = true)
    (h : Pool.Reaches (batchWorkload c reports files) workers offsets s) (hend : s.Finished) :
    (∀ file ∈ files, s.state.2 (jsonPath file) =
      singleMode c reports file (offsets (jsonPath file))) ∧
    ∀ path, (∀ file ∈ files, jsonPath file ≠ path) → s.state.2 path = offsets path := by
  obtain ⟨hperm, _, hframe⟩ := Pool.of_finished hcell h hend
  refine ⟨fun file hfile => ?_, fun path hpath => hframe path fun i => hpath _ (List.get_mem files i)⟩
  obtain ⟨i, rfl⟩ := List.get_of_mem hfile
  obtain ⟨e, he, rfl⟩ := List.mem_map.mp (hperm.mem_iff.mpr (List.mem_finRange i))
  obtain ⟨houtcome, hafter⟩ := outcome_of_collected hcell h hend he
  rw [singleMode_eq c reports (hends _ hfile), ← houtcome]
  exact hafter

/-- The results are collected in some order of the files. -/
theorem collected_of_finished (hcell : Function.Injective (batchWorkload c reports files).cell)
    (h : Pool.Reaches (batchWorkload c reports files) workers offsets s) (hend : s.Finished) :
    (s.collected.map fun e => (files.get e.1, e.2)).Perm (aloneOutcomes c reports files) := by
  have hcollected := Pool.collected_perm hcell h hend
    (fun i => fileOutcome c (files.get i) (reports (files.get i)))
    fun e he => (outcome_of_collected hcell h hend he).1
  have hmap := hcollected.map fun e => (files.get e.1, e.2)
  have hall := congrArg (List.map fun file => (file, fileOutcome c file (reports file)))
    (List.map_get_finRange files)
  rw [List.map_map] at hmap hall
  exact hmap.trans (.of_eq hall)

/-- The files have no more entries than results count as successes. -/
theorem length_entries_le (c : Caches) (reports : Text → Option Text) (files : List Text) :
    ((aloneOutcomes c reports files).flatMap fun e => offsetEntries e.2.resultList).length ≤
      ((aloneOutcomes c reports files).flatMap successes).length := by
  rw [List.length_flatMap, List.length_flatMap]
  refine List.sum_le_sum fun e he => ?_
  obtain ⟨file, _, rfl⟩ := List.mem_map.mp he
  cases houtcome : fileOutcome c file (reports file) with
  | missing => exact Nat.zero_le _
  | raised => exact Nat.zero_le _
  | results rs => exact length_offsetEntries_le houtcome

/-- **A batch is its files one by one.**  An offset file of no report is left alone, and all of them are
when the batch does not get to its reports.  However the threads take turns, when it has finished each
report has the offset file that the single mode leaves it; the results and the log are those of the files
one by one, in the order in which they were completed, so that the three lists are, up to that order,
those of the files; and no fewer results count as successes than entries are written. -/
theorem batch_schedule_independent (c : Caches) (reports : Text → Option Text) (files : List Text)
    (workers : Nat) (opens : Text → Bool) (raisedText : Text → Text) (hnodup : files.Nodup)
    (hends : ∀ file ∈ files, Str.endswith file ".output.txt".toList = true)
    (before after : BatchFiles) (ending : BatchEnd)
    (h : BatchProcess c reports files workers opens raisedText before ending after) :
    (∀ path, (∀ file ∈ files, jsonPath file ≠ path) → after.offsets path = before.offsets path) ∧
    ((∀ results, ending ≠ .finished results) → after.offsets = before.offsets) ∧
    ∀ results, ending = .finished results →
      (∀ file ∈ files, after.offsets (jsonPath file) =
        singleMode c reports file (before.offsets (jsonPath file))) ∧
      (∃ completed, completed.Perm (aloneOutcomes c reports files) ∧
        results = recordAll raisedText files.length completed ∧ after.log = some results.log) ∧
      results.success.Perm ((aloneOutcomes c reports files).flatMap successes) ∧
      results.notFound.Perm ((aloneOutcomes c reports files).flatMap notFounds) ∧
      results.error.Perm ((aloneOutcomes c reports files).flatMap (errors raisedText)) ∧
      ((aloneOutcomes c reports files).flatMap fun e => offsetEntries e.2.resultList).length ≤
        results.success.length := by
  cases h with
  | noReports _ => exact ⟨fun _ _ => rfl, fun _ => rfl, fun _ h => by cases h⟩
  | logNotOpened _ _ => exact ⟨fun _ _ => rfl, fun _ => rfl, fun _ h => by cases h⟩
  | noWorkers _ _ _ => exact ⟨fun _ _ => rfl, fun _ => rfl, fun _ h => by cases h⟩
  | @finished s _ _ _ hreaches hend =>
    have hcell := injective_jsonPath c reports hnodup hends
    obtain ⟨hfiles, hframe⟩ := offsets_of_finished hcell hends hreaches hend
    have hperm := collected_of_finished hcell hreaches hend
    obtain ⟨hsuccess, hnotFound, herror⟩ := recordAll_lists raisedText files.length
      (s.collected.map fun e => (files.get e.1, e.2))
    refine ⟨hframe, fun hnot => absurd rfl (hnot _), ?_⟩
    rintro _ ⟨⟩
    refine ⟨hfiles, ⟨_, hperm, rfl, rfl⟩, ?_, ?_, ?_, ?_⟩
    · rw [batchSummary, hsuccess]
      exact hperm.flatMap_right successes
    · rw [batchSummary, hnotFound]
      exact hperm.flatMap_right notFounds
    · rw [batchSummary, herror]
      exact hperm.flatMap_right (errors raisedText)
    · rw [batchSummary, hsuccess, (hperm.flatMap_right successes).length_eq]
      exact length_entries_le c reports files

end Ends

/-! A report without a source line, and one that is gone when its turn comes. -/

def batchFiles : List Text := ["/d/1.output.txt".toList, "/d/2.output.txt".toList]

def batchReports (file : Text) : Option Text :=
  if file = "/d/1.output.txt".toList then
    some "Earliest: %5 FUNC=f\nNumber of max-level functions: 1\nFunction: f\n".toList
  else none

theorem batch_schedule_independent_two :
    ∃ results after, @BatchProcess Unicode.ascii SsGen.bareCaches batchReports batchFiles 2
        (fun _ => true) (fun _ => "error".toList) ⟨fun _ => none, none⟩ (.finished results) after ∧
      after.offsets "/d/1.func_offset.json".toList = some (.written []) ∧
      after.offsets "/d/2.func_offset.json".toList = none ∧ after.log = some results.log := by
  let _ := Unicode.ascii
  have hnodup : batchFiles.Nodup := by decide
  have hends : ∀ file ∈ batchFiles, Str.endswith file ".output.txt".toList = true := by decide
  have hstart : Pool.Reaches (batchWorkload SsGen.bareCaches batchReports batchFiles) 2
      (fun _ => none) (Pool.initial _ fun _ => none) := .refl
  obtain ⟨s, hs, hend⟩ := Pool.reaches_finished (by decide)
    (injective_jsonPath SsGen.bareCaches batchReports hnodup hends) hstart
  have hbatch : BatchProcess SsGen.bareCaches batchReports batchFiles 2 (fun _ => true)
      (fun _ => "error".toList) ⟨fun _ => none, none⟩ _ _ :=
    .finished (List.cons_ne_nil _ _) rfl (by decide) hs hend
  obtain ⟨_, _, hfinished⟩ := batch_schedule_independent SsGen.bareCaches batchReports batchFiles 2
    (fun _ => true) (fun _ => "error".toList) hnodup hends _ _ _ hbatch
  obtain ⟨hfiles, ⟨_, _, _, hlog⟩, _⟩ := hfinished _ rfl
  exact ⟨_, _, hbatch, (hfiles "/d/1.output.txt".toList (by decide)).trans (by decide +kernel),
    (hfiles "/d/2.output.txt".toList (by decide)).trans (by decide +kernel), hlog⟩

end IrToAssembly

end LinuxAnalysis
