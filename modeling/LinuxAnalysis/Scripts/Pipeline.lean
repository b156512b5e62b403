import LinuxAnalysis.Scripts.ReportOffsets
import LinuxAnalysis.Scripts.SsAnalysis

/-!
# From a seed to its offsets

`ss-gen.sh` on one input file: the options are handed to `ss-analysis.sh`, the file is sourced, the pass
runs, and stage 2 reads the report.  With everything that is printed and read in between left out, the
offsets are a function of the seed, the options and the instructions that the pass has tainted.
-/

open LinuxAnalysis.Lib

namespace LinuxAnalysis

namespace SsGen

open AnalysisParallel IrToAssembly SsAnalysis

/-! ## 1. Stage 2 on the output of a run -/

/-- The offsets of the reported instructions; `none` when no file is made. -/
def directEntries [Unicode] (c : Caches) (inputAbs : Text) (M : Module) (cfg : LinuxAnalysis.Config)
    (s : PassState) : Option (List OffsetEntry) :=
  if s.maxLevelInstructions = [] then none
  else (directOffsets c (outputPath inputAbs) cfg (s.reportedFunctions M cfg)).bind
    (Option.map Prod.snd)

section Run

variable [Unicode] {M : Module} {cfg : LinuxAnalysis.Config} {addr : Value → Nat} {fuel : Nat}
  {s : PassState}

theorem stageTwo_eq (inputAbs : Text) (c : Caches) (report : Text) :
    stageTwo inputAbs (some c) report =
      (processSingleFile c (outputPath inputAbs) report).bind (Option.map Prod.snd) := by
  rw [stageTwo, Option.bind_some]
  cases processSingleFile c (outputPath inputAbs) report with
  | none => rfl
  | some file =>
    cases file with
    | none => rfl
    | some entries => rfl

theorem stageTwo_output (hrun : run M cfg addr fuel = some s) (c : Caches) (verbose : Bool)
    (trace : Text) {inputAbs : Text} (habsolute : inputAbs.head? = some '/')
    (h : Legible (s.report M cfg (configuration cfg verbose ++ trace)))
    (hplain : ∀ f ∈ s.reportedFunctions M cfg, Unmarked f) :
    stageTwo inputAbs (some c) (s.output M cfg verbose trace) =
      directEntries c inputAbs M cfg s := by
  have htweaks : applyTweaks (outputPath inputAbs) (s.output M cfg verbose trace) =
      s.output M cfg verbose trace := applyTweaks_of_absolute (outputPath_absolute habsolute)
  rw [stageTwo_eq, directEntries]
  split
  next hmax =>
    rw [processSingleFile_of_nothing hrun c h htweaks hmax]
    rfl
  next hmax => rw [processSingleFile_of_found hrun c h hplain htweaks hmax]

end Run

/-! ## 2. One invocation of ss-gen.sh -/

/-- `opt` has run the pass on `M` as the command says, and `i` is what became of `ss-analysis.sh`. -/
structure Ran [IntegerParsing] (M : Module) (addr : Value → Nat) (cmd : OptCommand) (i : Invocation)
    (a : PassArguments) (trace : Text) (s : PassState) : Prop where
  parsed : parsePassName cmd.passes = some a
  ran : ∃ fuel, run M a.config addr fuel = some s
  printed : i.printed = s.output M a.config a.debug trace
  status : i.exitCode = 0

theorem runOne_of_stageTwo [Unicode] {inputAbs : Text} {i : Invocation} {c : Caches}
    (hstatus : i.exitCode = 0) (hcaches : i.caches = some c) (files : Files) :
    runOne inputAbs i files =
      (if (stageTwo inputAbs (some c) i.printed).isSome then 0 else 1,
        { output := some i.printed
          funcOffset := (stageTwo inputAbs (some c) i.printed).or files.funcOffset }) := by
  rw [runOne, if_neg (outputPath_ne inputAbs), if_neg (not_not.mpr hstatus), hcaches]
  cases stageTwo inputAbs (some c) i.printed with
  | none => rfl
  | some entries => rfl

/-- The options of stage 2 play no part. -/
theorem seedConfig_filter [Unicode] (s : SeedInput) (os : List CliOption) :
    seedConfig s (os.filter CliOption.stage1) = seedConfig s os := by
  have hmem {o : CliOption} (ho : o.stage1 = true) : o ∈ os.filter CliOption.stage1 ↔ o ∈ os := by
    rw [List.mem_filter, ho]
    exact and_iff_left rfl
  unfold seedConfig
  simp only [hmem (o := .interproc) rfl, hmem (o := .indirectCall) rfl,
    hmem (o := .noUpwardInterproc) rfl]

theorem not_option_of_absolute {input : Text} (h : input.head? = some '/') :
    Str.startswith input "--".toList = false := by
  cases input with
  | nil => cases h
  | cons c rest =>
    obtain rfl : c = '/' := Option.some.inj h
    rfl

/-- **From a seed to its offsets.**  On an input file that was written for a seed, at the absolute path
that `readlink -f` gives, with any options that `ss-gen.sh` accepts and everything in place, the pass
runs with the parameters of the seed and the switches among the options; and where its report is legible
and the tables of stage 2 are there, the offset file becomes the offsets of the instructions that this
run reports, or stays as it was when there are none. -/
theorem seed_offsets [Unicode] [IntegerParsing] (s : SeedInput)
    (hfile : s.sourceFile.all plainChar = true) (env : ShellVars) (args : List Text) (g : Settings)
    (rest : List Text) (hparse : parse env args = .ok (g, rest)) (host : SsAnalysis.Host)
    (inputAbs : Text) (habsolute : inputAbs.head? = some '/')
    (hread : host.read inputAbs = s.text)
    (hpassed : ∀ status, main host (g.stage1Opts ++ [inputAbs]) ≠ .exited status) :
    ∃ (os : List CliOption) (tail : List Text) (cmd : OptCommand),
      args = os.flatMap CliOption.words ++ tail ∧ (tail = rest ∨ tail = "--".toList :: rest) ∧
      main host (g.stage1Opts ++ [inputAbs]) = .runs cmd ∧
      ∀ M addr i a trace t c, Ran M addr cmd i a trace t → i.caches = some c →
        (∃ fuel, run M (seedConfig s os) addr fuel = some t) ∧
        (Legible (t.report M (seedConfig s os) (configuration (seedConfig s os) false ++ trace)) →
          (∀ f ∈ t.reportedFunctions M (seedConfig s os), Unmarked f) → ∀ files : Files,
          runOne inputAbs i files =
            (if (directEntries c inputAbs M (seedConfig s os) t).isSome then 0 else 1,
              { output := some i.printed
                funcOffset := (directEntries c inputAbs M (seedConfig s os) t).or
                  files.funcOffset })) := by
  have hinput := not_option_of_absolute habsolute
  obtain ⟨os, tail, hargs, rfl, htail⟩ :=
    accepts_of_optionLoop (fun _ _ h => option_of_isOption h) hparse
  have hforward := main_stage1Opts env os host hinput
  rw [hforward] at hpassed ⊢
  obtain ⟨vars, hvars, hmain⟩ := main_written s hfile (fun o ho => (List.mem_filter.mp ho).2)
    hinput hread hpassed
  have hparsed := parsePassName_sourced s hfile hread hvars
  rw [seedConfig_filter] at hparsed
  refine ⟨os, tail, optCommand vars, hargs, htail, hmain, ?_⟩
  intro M addr i a trace t c hran hcaches
  -- the arguments of the plugin are those of the seed
  obtain rfl := Option.some.inj (hran.parsed.symm.trans hparsed)
  obtain ⟨fuel, hrun⟩ := hran.ran
  refine ⟨⟨fuel, hrun⟩, fun hlegible hplain files => ?_⟩
  have hstage : stageTwo inputAbs (some c) i.printed =
      directEntries c inputAbs M (seedConfig s os) t := by
    rw [hran.printed]
    exact stageTwo_output hrun c false trace habsolute hlegible hplain
  rw [runOne_of_stageTwo hran.status hcaches, hstage]

/-- The constant that `get` adds. -/
def getInput : @SeedInput Unicode.ascii :=
  let _ := Unicode.ascii
  { sourceFile := "net/a.c".toList
    function := "get".toList
    opcode := "add".toList
    value := "5".toList
    constant := 5
    occurrence := 1
    sourceFile_plain := by decide
    function_name := by decide
    opcode_word := by decide
    value_decimal := @DecimalText.digits ['5'] (by decide)
    constant_bounds := by decide
    occurrence_bounds := by decide }

def getHost : SsAnalysis.Host :=
  { seedHost with
    env := ShellVars.assign "VMLINUX_BC".toList "v.bc".toList fun _ => []
    read := fun _ => @SeedInput.text Unicode.ascii getInput }

def getCommand : OptCommand where
  timeout := none
  plugin := "/repo/passes/build/libTaintTrackerPass.so".toList
  passes := "taint-tracker<get;add;5;false;false;false;true;1;true>".toList
  bitcode := "v.bc".toList

/-- The offset of the call of `get`, by a run without options. -/
theorem seed_offsets_get : ∃ i : Invocation,
    @runOne Unicode.ascii "/d/report.input.txt".toList i ⟨none, none⟩ =
      (0, { output := some i.printed, funcOffset := some [callerEntry] }) := by
  let _ := Unicode.ascii
  let _ := IntegerParsing.decimal
  have hcommand : main getHost ([] ++ ["/d/report.input.txt".toList]) = .runs getCommand := rfl
  obtain ⟨os, tail, cmd, hargs, _, hmain, hoffsets⟩ := seed_offsets getInput (by decide)
    (fun _ => []) [] _ _ rfl getHost "/d/report.input.txt".toList rfl rfl
    (fun status h => by cases hcommand.symm.trans h)
  obtain rfl : getCommand = cmd := Outcome.runs.inj (hcommand.symm.trans hmain)
  have hnone : os = [] := by
    cases os with
    | nil => rfl
    | cons o os => cases o <;> cases hargs
  have hconfig : seedConfig getInput os = getConfig true := by
    rw [hnone]
    rfl
  rw [hconfig] at hoffsets
  obtain ⟨s, hs, hfunctions, hlegible, hunmarked⟩ := run_get
  have hran : Ran calledSourceModule Value.slot getCommand
      { exitCode := 0
        printed := s.output calledSourceModule (getConfig true) false []
        caches := some callerCaches }
      { config := getConfig true, debug := false } [] s :=
    { parsed := rfl
      ran := ⟨6, hs⟩
      printed := rfl
      status := rfl }
  have hentries : directEntries callerCaches "/d/report.input.txt".toList calledSourceModule
      (getConfig true) s = some [callerEntry] := by
    have hdirect : directOffsets callerCaches (outputPath "/d/report.input.txt".toList)
        (getConfig true) [getFunction true] =
        some (some ("/d/report.func_offset.json".toList, [callerEntry])) := by
      decide +kernel
    rw [directEntries, if_neg (maxLevelInstructions_ne_nil hfunctions), hfunctions, hdirect]
    rfl
  obtain ⟨_, hone⟩ := hoffsets _ _ _ _ _ _ _ hran rfl
  refine ⟨_, (hone hlegible hunmarked ⟨none, none⟩).trans ?_⟩
  rw [hentries]
  rfl

end SsGen

end LinuxAnalysis
