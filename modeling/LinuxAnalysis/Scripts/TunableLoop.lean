import LinuxAnalysis.Scripts.SsGen

/-!
# ss-gen.sh --tunable: the inputs of a directory

The loop runs the pipeline for every numbered input of a tunable and goes on after a failure.  Each
invocation has the two files of its own input, so that the loop does to an input what the invocation
does alone, and its exit status tells whether all of them succeeded.
-/

open LinuxAnalysis.Lib

namespace LinuxAnalysis

namespace SsGen

open IrToAssembly

/-! ## 1. The script -/

/-- The reports and the offset files of a directory, by their paths. -/
structure Directory where
  outputs : Text → Option Text
  funcOffsets : Text → Option (List OffsetEntry)

namespace Directory

def files (d : Directory) (inputAbs : Text) : Files :=
  ⟨d.outputs (outputPath inputAbs), d.funcOffsets (funcOffsetJson inputAbs)⟩

def put (d : Directory) (inputAbs : Text) (files : Files) : Directory :=
  ⟨Function.update d.outputs (outputPath inputAbs) files.output,
    Function.update d.funcOffsets (funcOffsetJson inputAbs) files.funcOffset⟩

end Directory

/-- The pattern `[0-9]*.input.txt`. -/
def isNumbered : Text → Bool
  | c :: rest => decide ('0' ≤ c ∧ c ≤ '9') && Str.endswith rest inputSuffix
  | [] => false

/-- `inputs=( "$tunable_dir"/[0-9]*.input.txt )`, of the sorted names in the directory; a pattern that
matches nothing stands for itself. -/
def globInputs (tunableDir : Text) (names : List Text) : List Text :=
  let matching := names.filter isNumbered
  (if matching.isEmpty then ["[0-9]*.input.txt".toList] else matching).map fun name =>
    tunableDir ++ '/' :: name

section Script

variable [Unicode]

/-- `run_one "$input" || rc=$?` -/
def loopStep (readlink : Text → Text) (call : Text → Invocation) (s : Nat × Directory)
    (input : Text) : Nat × Directory :=
  let r := runOne (readlink input) (call input) (s.2.files (readlink input))
  (if r.1 ≠ 0 then r.1 else s.1, s.2.put (readlink input) r.2)

/-- The branch for `--tunable`: exit status and files. -/
def tunableMain (tunableDir : Text) (names : List Text) (isFile : Text → Bool)
    (readlink : Text → Text) (call : Text → Invocation) (d : Directory) : Nat × Directory :=
  let inputs := globInputs tunableDir names
  if ¬ inputs.head?.any isFile then (1, d)
  else inputs.foldl (loopStep readlink call) (0, d)

end Script

/-! ## 2. The files of different inputs -/

theorem withoutSuffix_outputPath (inputAbs : Text) :
    outputPath inputAbs = withoutSuffix outputSuffix (outputPath inputAbs) ++ outputSuffix := by
  have hends : Str.endswith (outputPath inputAbs) outputSuffix = true :=
    List.isSuffixOf_iff_suffix.mpr (List.suffix_append _ _)
  rw [withoutSuffix, if_pos hends, outputPath, List.length_append, Nat.add_sub_cancel, List.take_left]

theorem funcOffsetJson_ne {a b : Text} (h : outputPath a ≠ outputPath b) :
    funcOffsetJson a ≠ funcOffsetJson b := by
  intro heq
  have hstem := List.append_cancel_right heq
  rw [withoutSuffix_outputPath a, withoutSuffix_outputPath b, hstem] at h
  exact h rfl

namespace Directory

theorem files_put (d : Directory) (inputAbs : Text) (files : Files) :
    (d.put inputAbs files).files inputAbs = files := by
  simp only [Directory.files, put, Function.update_self]

theorem files_put_of_ne (d : Directory) {a b : Text} (h : outputPath a ≠ outputPath b)
    (files : Files) : (d.put b files).files a = d.files a := by
  simp only [Directory.files, put, Function.update_of_ne h,
    Function.update_of_ne (funcOffsetJson_ne h)]

end Directory

/-- Different inputs whose names have the suffix have files of their own. -/
theorem nodup_outputPath {inputs : List Text} (hnodup : inputs.Nodup)
    (hends : ∀ input ∈ inputs, Str.endswith input inputSuffix = true) :
    (inputs.map outputPath).Nodup := by
  refine hnodup.map_on fun a hamem b hbmem h => ?_
  have ha := hends a hamem
  have hb := hends b hbmem
  have hstem := List.append_cancel_right h
  rw [withoutSuffix, withoutSuffix, if_pos ha, if_pos hb] at hstem
  exact Str.eq_of_take_eq ha hb hstem

/-! ## 3. The loop -/

/-- The last status that is not zero. -/
def lastFailure (codes : List Nat) : Nat := ((codes.filter (· ≠ 0)).getLast?).getD 0

theorem lastFailure_append (codes : List Nat) (code : Nat) :
    lastFailure (codes ++ [code]) = if code ≠ 0 then code else lastFailure codes := by
  unfold lastFailure
  rw [List.filter_append]
  split
  next h => simp [h]
  next h => simp [not_not.mp h]

theorem lastFailure_eq_zero {codes : List Nat} : lastFailure codes = 0 ↔ ∀ code ∈ codes, code = 0 := by
  induction codes using List.reverseRecOn with
  | nil => simp [lastFailure]
  | append_singleton codes code ih =>
    have hall : (∀ c ∈ codes ++ [code], c = 0) ↔ (∀ c ∈ codes, c = 0) ∧ code = 0 := by
      simp only [List.mem_append, List.mem_singleton, or_imp, forall_and, forall_eq]
    rw [lastFailure_append, hall, ← ih]
    by_cases h : code = 0 <;> simp [h]

section Loop

variable [Unicode] {readlink : Text → Text} {call : Text → Invocation}

/-- What an invocation does to the files it finds. -/
def alone (readlink : Text → Text) (call : Text → Invocation) (d : Directory) (input : Text) :
    Nat × Files :=
  runOne (readlink input) (call input) (d.files (readlink input))

/-- After some inputs, those have what their invocations do alone, and everything else is as it was. -/
theorem loop_spec (call : Text → Invocation) (d : Directory) {inputs : List Text}
    (hdistinct : (inputs.map fun input => outputPath (readlink input)).Nodup) :
    let r := inputs.foldl (loopStep readlink call) (0, d)
    r.1 = lastFailure (inputs.map fun input => (alone readlink call d input).1) ∧
      (∀ input ∈ inputs, r.2.files (readlink input) = (alone readlink call d input).2) ∧
      ∀ inputAbs, (∀ input ∈ inputs, outputPath (readlink input) ≠ outputPath inputAbs) →
        r.2.files inputAbs = d.files inputAbs := by
  induction inputs using List.reverseRecOn with
  | nil => exact ⟨rfl, fun _ h => (List.not_mem_nil h).elim, fun _ _ => rfl⟩
  | append_singleton inputs input ih =>
    rw [List.map_append, List.nodup_append] at hdistinct
    obtain ⟨hnodup, _, hne⟩ := hdistinct
    obtain ⟨hcode, hfiles, hframe⟩ := ih hnodup
    have hother : ∀ other ∈ inputs, outputPath (readlink other) ≠ outputPath (readlink input) :=
      fun other hother => hne _ (List.mem_map_of_mem hother) _ List.mem_cons_self
    have hbefore := hframe (readlink input) hother
    dsimp only
    rw [List.foldl_append, List.foldl_cons, List.foldl_nil, loopStep, hbefore]
    refine ⟨?_, fun other hmem => ?_, fun inputAbs hinput => ?_⟩
    · rw [List.map_append, List.map_singleton, lastFailure_append, ← hcode]
      rfl
    · rcases List.mem_append.mp hmem with hmem | hmem
      · exact (Directory.files_put_of_ne _ (hother other hmem) _).trans (hfiles other hmem)
      · rw [List.mem_singleton.mp hmem]
        exact Directory.files_put _ _ _
    · have hlast := hinput input (List.mem_append_right _ List.mem_cons_self)
      refine (Directory.files_put_of_ne _ hlast.symm _).trans (hframe inputAbs fun other hmem => ?_)
      exact hinput other (List.mem_append_left _ hmem)

/-- An invocation that succeeds leaves its report and the offsets made from it. -/
theorem runOne_of_success {inputAbs : Text} {i : Invocation} {files : Files}
    (h : (runOne inputAbs i files).1 = 0) : ∃ entries,
      stageTwo inputAbs i.caches i.printed = some entries ∧
      (runOne inputAbs i files).2 = ⟨some i.printed, some entries⟩ := by
  rw [runOne, if_neg (outputPath_ne inputAbs)] at h ⊢
  split at h
  next hcode => exact absurd h hcode
  next hcode =>
    rw [if_neg hcode]
    cases hstage : stageTwo inputAbs i.caches i.printed with
    | some entries => exact ⟨entries, rfl, rfl⟩
    | none =>
      rw [hstage] at h
      cases h

/-- **A tunable is its inputs one by one.**  When no two inputs have the same report, each has at the end
the files that its invocation alone would leave, failed invocations included, and every other report and
offset file is as it was.  The exit status is the last one that is not zero; when it is zero, every
input has its report and the offsets made from it. -/
theorem tunableMain_each_alone (tunableDir : Text) (names : List Text) (isFile : Text → Bool)
    (readlink : Text → Text) (call : Text → Invocation) (d : Directory)
    (hfile : (globInputs tunableDir names).head?.any isFile = true)
    (hdistinct : ((globInputs tunableDir names).map fun input => outputPath (readlink input)).Nodup) :
    let r := tunableMain tunableDir names isFile readlink call d
    (∀ input ∈ globInputs tunableDir names,
      r.2.files (readlink input) = (alone readlink call d input).2) ∧
    (∀ inputAbs, (∀ input ∈ globInputs tunableDir names,
      outputPath (readlink input) ≠ outputPath inputAbs) → r.2.files inputAbs = d.files inputAbs) ∧
    r.1 = lastFailure ((globInputs tunableDir names).map fun input =>
      (alone readlink call d input).1) ∧
    (r.1 = 0 → ∀ input ∈ globInputs tunableDir names, ∃ entries,
      stageTwo (readlink input) (call input).caches (call input).printed = some entries ∧
      r.2.files (readlink input) = ⟨some (call input).printed, some entries⟩) := by
  have hmain : tunableMain tunableDir names isFile readlink call d =
      (globInputs tunableDir names).foldl (loopStep readlink call) (0, d) :=
    if_neg (not_not.mpr hfile)
  obtain ⟨hcode, hfiles, hframe⟩ := loop_spec call d hdistinct
  dsimp only
  rw [hmain]
  refine ⟨hfiles, hframe, hcode, fun hzero input hinput => ?_⟩
  rw [hcode] at hzero
  have hsuccess := lastFailure_eq_zero.mp hzero _ (List.mem_map_of_mem hinput)
  obtain ⟨entries, hentries, hwritten⟩ := runOne_of_success hsuccess
  exact ⟨entries, hentries, (hfiles input hinput).trans hwritten⟩

end Loop

/-- The first input has the analysis fail, the second one is reported. -/
def twoCalls (input : Text) : Invocation :=
  if Str.endswith input "/1.input.txt".toList then ⟨1, "opt: error".toList, some bareCaches⟩
  else ⟨0, "Earliest: %5 FUNC=f\nNumber of max-level functions: 1\nFunction: f\n".toList,
    some bareCaches⟩

theorem tunableMain_each_alone_two :
    ∃ _ : Unicode, (tunableMain "/d".toList (["1.input.txt", "2.input.txt"].map String.toList)
      (fun _ => true) id twoCalls ⟨fun _ => none, fun _ => none⟩).1 = 1 := by
  let _ := Unicode.ascii
  have hdistinct : ((globInputs "/d".toList (["1.input.txt", "2.input.txt"].map String.toList)).map
      fun input => outputPath (id input)).Nodup :=
    nodup_outputPath (by decide) (by decide)
  obtain ⟨_, _, hcode, _⟩ := tunableMain_each_alone "/d".toList
    (["1.input.txt", "2.input.txt"].map String.toList) (fun _ => true) id twoCalls
    ⟨fun _ => none, fun _ => none⟩ rfl hdistinct
  exact ⟨_, hcode.trans (by decide +kernel)⟩

end SsGen

end LinuxAnalysis
