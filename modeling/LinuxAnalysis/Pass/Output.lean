import LinuxAnalysis.Pass.Levels
import LinuxAnalysis.Pass.Print
import LinuxAnalysis.Pass.Statistics

/-!
# The output of a run

The configuration, what is printed on the way, the statistics of the final state and the last line.
-/

open LinuxAnalysis.Lib

namespace LinuxAnalysis

/-! ## The configuration -/

/-- `"ON"` or `"OFF"`, with the line break. -/
def onOff (b : Bool) : Text := if b then "ON\n".toList else "OFF\n".toList

/-- The lines below the configured function. -/
def configurationRest (cfg : Config) (verbose : Bool) : Text :=
  cfg.targetOpcode ++ "\nConstant: ".toList ++ Str.strInt cfg.constantToTrack ++
    "\nVerbose: ".toList ++ onOff verbose ++
    "Interproc (downward): ".toList ++ onOff cfg.interprocMode ++
    "Interproc (upward): ".toList ++ onOff cfg.upwardInterprocMode ++
    "IndirectCall: ".toList ++ onOff cfg.indirectCallMode ++
    "ApproxDebugInfo: ".toList ++ onOff cfg.approxDebugInfo ++
    if cfg.occurrenceIndex = 0 then "Occurrence: ALL\n\n".toList
    else "Occurrence: ".toList ++ Str.str cfg.occurrenceIndex ++ " (of constant ".toList ++
      Str.strInt cfg.constantToTrack ++ ")\n\n".toList

def configurationTitle : Text := "=== Taint Tracker Configuration ===".toList

def configuration (cfg : Config) (verbose : Bool) : Text :=
  configurationTitle ++ "\nFunction: ".toList ++ cfg.functionName ++ "\nOpcode: ".toList ++
    configurationRest cfg verbose

namespace PassState

variable (M : Module) (cfg : Config) (s : PassState)

/-! ## The statistics -/

/-- `SortedFunctionCounts`, with the names. -/
def sortedFunctionCounts : List (Text × Nat) :=
  (s.maxLevelCountPerFunction.entries.map fun e => (M.functionName e.1, e.2)).insertionSort
    fun a b => a.1 ≤ b.1

/-- What is printed of the final state, `trace` standing in front. -/
def report (trace : Text) : Report where
  trace := trace
  level := s.maxLevel
  instructions := s.maxLevelInstructions.length
  arguments := s.maxLevelArguments.length
  breakdown := s.sortedFunctionCounts M
  functions := s.reportedFunctions M cfg
  spanInstructions := (s.instructionCounts M).1
  otherInstructions := (s.instructionCounts M).2
  otherVisited := s.allVisitedFunctions.size - (s.maxLevelFunctionRanges M).entries.length
  spans := (s.spanLines M).map fun l =>
    (l.1, l.2.startBBIdx, l.2.startInstIdx, l.2.endBBIdx, l.2.endInstIdx)
  otherNames := (s.sortedOtherFunctions M).map M.functionName

/-- The instructions of the visited functions with a value at the largest level, and of the others. -/
def argumentCounts : Nat × Nat :=
  (s.visitedDefinitions M).foldl (fun n f =>
    if f ∈ s.maxLevelCountPerFunction then (n.1 + (M.funcInsts f).length, n.2)
    else (n.1, n.2 + (M.funcInsts f).length)) (0, 0)

/-- `else if (!MaxLevelArguments.empty())`: only parameters have the largest level. -/
def argumentStatistics : Text :=
  let level := Str.strInt s.maxLevel
  let counts := s.argumentCounts M
  let breakdown := s.sortedFunctionCounts M
  let fullSpans (fs : List Nat) : Text :=
    (fs.insertionSort fun f g => M.functionName f ≤ M.functionName g).flatMap fun f =>
      M.functionName f ++ ", full span\n".toList
  Report.heading "Maximum Level Statistics" ++
    Report.numberLine "Largest L value: ".toList level "" ++
    Report.numberLine ("Number of arguments with L=".toList ++ level ++ ": ".toList)
      (Str.str s.maxLevelArguments.length) "" ++
    (if breakdown.length > 1 then
      "\nPer-function breakdown:\n".toList ++
        breakdown.flatMap fun e =>
          Report.numberLine ("  ".toList ++ e.1 ++ ": ".toList) (Str.str e.2) " value(s)"
    else []) ++
    Report.heading "Instruction Count Statistics" ++
    Report.numberLine "Max-level functions (total): ".toList (Str.str counts.1) " instructions" ++
    Report.numberLine "Other visited functions (total): ".toList (Str.str counts.2)
      " instructions" ++
    Report.numberLine "Total: ".toList (Str.str (counts.1 + counts.2)) " instructions" ++
    Report.numberLine Report.countLabel (Str.str s.maxLevelCountPerFunction.entries.length) "" ++
    Report.numberLine "Number of other visited functions: ".toList
      (Str.str (s.allVisitedFunctions.size - s.maxLevelCountPerFunction.entries.length)) "" ++
    Report.heading "Data Flow Span Details" ++
    fullSpans (s.maxLevelCountPerFunction.entries.map Sigma.fst) ++
    fullSpans (s.allVisitedFunctions.elems.filter fun f => f ∉ s.maxLevelCountPerFunction)

/-- Everything that a run prints, `trace` being what is printed while it looks for tainted values. -/
def output (verbose : Bool) (trace : Text) : Text :=
  if s.maxLevel > intMin ∧ s.maxLevelInstructions ≠ [] then
    (s.report M cfg (configuration cfg verbose ++ trace)).print
  else
    configuration cfg verbose ++ trace ++
      (if s.maxLevel > intMin ∧ s.maxLevelArguments ≠ [] then s.argumentStatistics M else []) ++
      Report.heading "Taint Analysis Complete"

end PassState

variable {M : Module} {cfg : Config} {addr : Value → Nat} {fuel : Nat} {s : PassState}

/-- An instruction at the largest level is enough for the statistics to be printed. -/
theorem prints_of_maxLevelInstruction (hrun : run M cfg addr fuel = some s)
    (hmax : s.maxLevelInstructions ≠ []) : s.maxLevel > intMin ∧ s.maxLevelInstructions ≠ [] := by
  obtain ⟨i, hi⟩ := List.exists_mem_of_ne_nil _ hmax
  have htainted := (PassState.mem_maxLevelInstructions.mp hi).1
  have hlevel := (maxLevel_of_tainted (run_reaches hrun) ⟨_, htainted⟩).1
  refine ⟨?_, hmax⟩
  have hmin : intMin < 0 := by decide
  omega

/-- Functions are reported only when an instruction has the largest level. -/
theorem maxLevelInstructions_ne_nil {f : ReportedFunction} {fs : List ReportedFunction}
    (h : s.reportedFunctions M cfg = f :: fs) : s.maxLevelInstructions ≠ [] := by
  intro hnil
  have hranges : s.reportedRanges M = [] := if_neg fun hprints => hprints.2 hnil
  rw [PassState.reportedFunctions, hranges] at h
  cases h

/-- The statistics for parameters alone are not printed by any run. -/
theorem run_output (hrun : run M cfg addr fuel = some s) (verbose : Bool) (trace : Text) :
    s.output M cfg verbose trace =
      if s.maxLevelInstructions ≠ [] then
        (s.report M cfg (configuration cfg verbose ++ trace)).print
      else configuration cfg verbose ++ trace ++ Report.heading "Taint Analysis Complete" := by
  unfold PassState.output
  by_cases hmax : s.maxLevelInstructions ≠ []
  · rw [if_pos (prints_of_maxLevelInstruction hrun hmax), if_pos hmax]
  · have hargs : s.maxLevelArguments = [] := by
      by_contra hargs
      exact hmax ((run_levels M cfg addr).2.2.2.2 fuel s hrun hargs)
    rw [if_neg fun h => hmax h.2, if_neg hmax, if_neg fun h => h.2 hargs, List.append_nil]

end LinuxAnalysis
