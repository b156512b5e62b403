import LinuxAnalysis.Scripts.AssemblySpan
import LinuxAnalysis.Scripts.ReportParser

/-!
# ss-gen.sh: a report and the offset file made from it

`run_one` writes the report of one input and has `ir_to_assembly.py` write the offset file next to it.
Either program may stop before its file is written, so the offset file is followed through a whole
sequence of invocations together with the report that it was made from.
-/

open LinuxAnalysis.Lib

namespace LinuxAnalysis

namespace IrToAssembly

/-- The tweaks are for relative paths. -/
theorem applyTweaks_of_absolute {outputFile content : Text} (h : outputFile.head? = some '/') :
    applyTweaks outputFile content = content := by
  cases outputFile with
  | nil => cases h
  | cons c rest =>
    obtain rfl : c = '/' := Option.some.inj h
    have hnone : tweaks ('/' :: rest) = [] := by simp [tweaks]
    rw [applyTweaks, hnone]
    rfl

section Files

variable [Unicode]

/-- The results of `process_single_file`, `none` standing for one with an error; the outer `none` is an
exception. -/
def processParsed (c : Caches) : Parsed → Option (List (Option SpanResult))
  | .error _ => some [none]
  | .multiple rs => rs.mapM fun r =>
    match r with
    | .error _ => some none
    | .ok r => (processSingleResult c r).map some
  | .single r => (processSingleResult c r).map fun res => [some res]

/-- `process_single_file` on a report with the given text: the file written and its entries. -/
def processSingleFile (c : Caches) (outputFile text : Text) :
    Option (Option (Text × List OffsetEntry)) :=
  ((parseDataflowAnalysisOutputFile outputFile text).bind (processParsed c)).map
    (writeFuncOffsetJson outputFile)

end Files

end IrToAssembly

namespace SsGen

open IrToAssembly

/-! ## Paths -/

def inputSuffix : Text := ".input.txt".toList

def outputSuffix : Text := ".output.txt".toList

/-- `${s%suffix}` -/
def withoutSuffix (suffix s : Text) : Text :=
  if Str.endswith s suffix then s.take (s.length - suffix.length) else s

/-- `output` -/
def outputPath (inputAbs : Text) : Text := withoutSuffix inputSuffix inputAbs ++ outputSuffix

/-- `func_offset_json` -/
def funcOffsetJson (inputAbs : Text) : Text :=
  withoutSuffix outputSuffix (outputPath inputAbs) ++ ".func_offset.json".toList

/-- The test for a name that does not end in `.input.txt` never succeeds. -/
theorem outputPath_ne (inputAbs : Text) : outputPath inputAbs ≠ inputAbs := by
  unfold outputPath withoutSuffix
  intro h
  split at h
  next hends =>
    -- the two suffixes would be one
    obtain ⟨stem, rfl⟩ := List.isSuffixOf_iff_suffix.mp hends
    rw [List.length_append, Nat.add_sub_cancel, List.take_left] at h
    exact absurd (List.append_cancel_left h) (by decide)
  next =>
    have hlength := congrArg List.length h
    rw [List.length_append] at hlength
    have hpos : 0 < outputSuffix.length := by decide
    omega

/-- The report of an input with an absolute path has one too. -/
theorem outputPath_absolute {inputAbs : Text} (h : inputAbs.head? = some '/') :
    (outputPath inputAbs).head? = some '/' := by
  have hstem : (withoutSuffix inputSuffix inputAbs).head? = some '/' := by
    unfold withoutSuffix
    split
    next hends =>
      obtain ⟨stem, rfl⟩ := List.isSuffixOf_iff_suffix.mp hends
      rw [List.length_append, Nat.add_sub_cancel, List.take_left]
      cases stem with
      | nil => cases h
      | cons c stem => exact h
    next => exact h
  rw [outputPath, List.head?_append, hstem]
  rfl

/-! ## One invocation -/

/-- What an invocation of `run_one` meets. -/
structure Invocation where
  /-- the exit status of `ss-analysis.sh`; 124 is a timeout -/
  exitCode : Nat
  /-- all that `ss-analysis.sh` prints -/
  printed : Text
  /-- the tables that stage 2 loads; `none` when `main` exits before it processes the report -/
  caches : Option Caches

/-- The two files next to the input. -/
structure Files where
  output : Option Text
  funcOffset : Option (List OffsetEntry)

section Runs

variable [Unicode]

/-- `ir_to_assembly.py` on the report: the entries it writes. -/
def stageTwo (inputAbs : Text) (caches : Option Caches) (report : Text) : Option (List OffsetEntry) :=
  caches.bind fun c =>
    match processSingleFile c (outputPath inputAbs) report with
    | some (some (_, entries)) => some entries
    | _ => none

/-- `run_one`: the status and the files. -/
def runOne (inputAbs : Text) (i : Invocation) (files : Files) : Nat × Files :=
  if outputPath inputAbs = inputAbs then (1, files)
  else if i.exitCode ≠ 0 then
    -- the redirection has replaced the report, which is removed
    (i.exitCode, { files with output := none })
  else
    match stageTwo inputAbs i.caches i.printed with
    | some entries => (0, { output := some i.printed, funcOffset := some entries })
    | none => (1, { files with output := some i.printed })

/-- The files after some invocations. -/
def runs (inputAbs : Text) (files : Files) (calls : List Invocation) : Files :=
  calls.foldl (fun files i => (runOne inputAbs i files).2) files

/-- The report that an invocation leaves. -/
def Invocation.report (i : Invocation) : Option Text :=
  if i.exitCode = 0 then some i.printed else none

/-- The entries that stage 2 writes in an invocation, after the report it makes them from. -/
def Invocation.written (inputAbs : Text) (i : Invocation) : Option (Text × List OffsetEntry) :=
  i.report.bind fun report => (stageTwo inputAbs i.caches report).map (Prod.mk report)

/-- The last write of the offset file. -/
def lastWritten (inputAbs : Text) (calls : List Invocation) : Option (Text × List OffsetEntry) :=
  (calls.filterMap (Invocation.written inputAbs)).getLast?

/-- The offset file is absent, or stage 2 made it from the report that is there. -/
def Current (inputAbs : Text) (calls : List Invocation) (files : Files) : Prop :=
  files.funcOffset = none ∨ ∃ report entries, lastWritten inputAbs calls = some (report, entries) ∧
    files = { output := some report, funcOffset := some entries }

variable {inputAbs : Text}

theorem runOne_files (inputAbs : Text) (i : Invocation) (files : Files) :
    (runOne inputAbs i files).2 =
      { output := i.report
        funcOffset := ((i.written inputAbs).map Prod.snd).or files.funcOffset } := by
  rw [runOne, if_neg (outputPath_ne inputAbs)]
  by_cases hcode : i.exitCode = 0
  · have hreport : i.report = some i.printed := if_pos hcode
    rw [if_neg (not_not.mpr hcode), Invocation.written, hreport, Option.bind_some]
    cases stageTwo inputAbs i.caches i.printed <;> rfl
  · have hreport : i.report = none := if_neg hcode
    rw [if_pos hcode, Invocation.written, hreport]
    rfl

theorem lastWritten_append (calls : List Invocation) (i : Invocation) :
    lastWritten inputAbs (calls ++ [i]) = (i.written inputAbs).or (lastWritten inputAbs calls) := by
  unfold lastWritten
  rw [List.filterMap_append, List.getLast?_append]
  cases h : i.written inputAbs <;> simp [h]

/-- The offset file is what stage 2 wrote last, whatever has become of the report. -/
theorem runs_funcOffset {files : Files} (hstart : files.funcOffset = none) (calls : List Invocation) :
    (runs inputAbs files calls).funcOffset = (lastWritten inputAbs calls).map Prod.snd := by
  induction calls using List.reverseRecOn with
  | nil => exact hstart
  | append_singleton calls i ih =>
    rw [runs, List.foldl_append, List.foldl_cons, List.foldl_nil, runOne_files, lastWritten_append]
    show Option.or _ (runs inputAbs files calls).funcOffset = _
    rw [ih]
    cases i.written inputAbs <;> rfl

theorem runs_output {files : Files} (calls : List Invocation) (i : Invocation) :
    (runs inputAbs files (calls ++ [i])).output = i.report := by
  rw [runs, List.foldl_append, List.foldl_cons, List.foldl_nil, runOne_files]

/-- An invocation leaves a current offset file, or none, when it writes one or finds none, or leaves the
report that the last one was made from. -/
theorem current_append_iff {files : Files} (hstart : files.funcOffset = none)
    (calls : List Invocation) (i : Invocation) :
    Current inputAbs (calls ++ [i]) (runs inputAbs files (calls ++ [i])) ↔
      (i.written inputAbs = none → ∀ w ∈ lastWritten inputAbs calls, i.report = some w.1) := by
  -- the report of the last call, and the offsets of the last call that wrote any
  have hfiles : runs inputAbs files (calls ++ [i]) =
      { output := i.report
        funcOffset := ((i.written inputAbs).or (lastWritten inputAbs calls)).map Prod.snd } := by
    rw [← lastWritten_append, ← runs_funcOffset hstart, ← runs_output calls i]
  rw [hfiles, Current, lastWritten_append]
  cases hwritten : i.written inputAbs with
  | some w =>
    obtain ⟨report, hreport, hentries⟩ := Option.bind_eq_some_iff.mp hwritten
    obtain ⟨entries, _, rfl⟩ := Option.map_eq_some_iff.mp hentries
    refine iff_of_true (.inr ⟨report, entries, rfl, ?_⟩) (fun h => by cases h)
    rw [hreport]
    rfl
  -- the last call wrote no offsets: they are current only if its report is the one they came from
  | none =>
    cases hlast : lastWritten inputAbs calls with
    | none => exact iff_of_true (.inl rfl) (fun _ w hw => by cases hw)
    | some w =>
      constructor
      · rintro (h | ⟨report, entries, hw, hfile⟩) _ w' hw'
        · cases h
        · cases hw'
          cases hw
          exact congrArg Files.output hfile
      · intro h
        refine .inr ⟨w.1, w.2, rfl, ?_⟩
        rw [h rfl w rfl]
        rfl

/-- **Offset files and their reports.**  From a directory without an offset file, each invocation of a
sequence leaves a current one or none, if and only if no invocation whose stage 2 writes nothing comes
behind one whose stage 2 writes, unless it leaves the report that the offset file was made from. -/
theorem runs_current_iff (inputAbs : Text) (output : Option Text) (calls : List Invocation) :
    (∀ done, done <+: calls → Current inputAbs done (runs inputAbs ⟨output, none⟩ done)) ↔
      ∀ done i, done ++ [i] <+: calls → i.written inputAbs = none →
        ∀ w ∈ lastWritten inputAbs done, i.report = some w.1 := by
  constructor
  · intro h done i hdone
    exact (current_append_iff rfl done i).mp (h (done ++ [i]) hdone)
  · intro h done hdone
    induction done using List.reverseRecOn with
    | nil => exact .inl rfl
    | append_singleton done i _ => exact (current_append_iff rfl done i).mpr (h done i hdone)

end Runs

/-! ## A stale offset file -/

/-- Tables of a kernel without symbols. -/
def bareCaches : Caches where
  vmlinuxPath := "/vmlinux".toList
  nmOutput := "0 t f".toList
  readelfOutput := "File:".toList
  symbolToModule := []
  moduleNmCache := []
  moduleReadelfCache := []
  objdump := fun _ => none

/-- The report of a run whose earliest instruction has no source line, and the report of a run that
finds no occurrence of the constant. -/
def reportThenNothing : List Invocation :=
  [{ exitCode := 0
     printed := "Earliest: %5 FUNC=f\nNumber of max-level functions: 1\nFunction: f\n".toList
     caches := some bareCaches },
    { exitCode := 0
      printed := "=== Taint Analysis Complete ===\n".toList
      caches := some bareCaches }]

/-- The offset file of the first report stays next to the second one. -/
theorem runs_keeps_stale_offsets :
    ¬ ∀ done, done <+: reportThenNothing →
      @Current Unicode.ascii "/d/1.input.txt".toList done
        (@runs Unicode.ascii "/d/1.input.txt".toList ⟨none, none⟩ done) := by
  let _ := Unicode.ascii
  intro h
  have hfirst : (runs "/d/1.input.txt".toList ⟨none, none⟩ reportThenNothing).funcOffset = some [] := by
    decide +kernel
  have houtput : (runs "/d/1.input.txt".toList ⟨none, none⟩ reportThenNothing).output =
      some "=== Taint Analysis Complete ===\n".toList := by
    decide +kernel
  have hwritten : (lastWritten "/d/1.input.txt".toList reportThenNothing).map Prod.fst =
      some "Earliest: %5 FUNC=f\nNumber of max-level functions: 1\nFunction: f\n".toList := by
    decide +kernel
  rcases h reportThenNothing List.prefix_rfl with hnone | ⟨report, entries, hlast, hfiles⟩
  · rw [hfirst] at hnone
    cases hnone
  · rw [hlast] at hwritten
    rw [hfiles] at houtput
    have hreport := (Option.some.inj hwritten).symm.trans (Option.some.inj houtput)
    exact absurd hreport (by decide)

end SsGen

end LinuxAnalysis
