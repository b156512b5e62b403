import LinuxAnalysis.Pass.Output

/-!
# Agreement of the two span computations

The blocks with the earliest and latest instructions come from one scan of the module, the counts and
the span details from scans of the visited functions.
-/

open LinuxAnalysis.Lib

namespace LinuxAnalysis

/-- **Agreement of the spans.**  The pairs found by the scan of the module are those found function
by function.  There are as many of them as `Earliest` blocks and as lines with indices, these lines
give the ends of the pairs, the count for the spans is the number of instructions between the ends of
all pairs, and every function with a pair is a visited one. -/
theorem run_spans_agree (M : Module) (cfg : Config) (addr : Value → Nat) (fuel : Nat) (s : PassState)
    (hrun : run M cfg addr fuel = some s) (hmax : s.maxLevelInstructions ≠ []) :
    (∀ f, (s.earliestLatestPerFunction M).lookup f = (s.maxLevelFunctionRanges M).lookup f) ∧
      (s.maxLevelFunctionRanges M).entries.length = (s.reportedFunctions M cfg).length ∧
      (s.maxLevelFunctionRanges M).entries.length = (s.spanLines M).length ∧
      (s.spanLines M).Perm ((s.reportedRanges M).map fun (f, earliest, latest) =>
        (M.functionName f, SpanIndices.ofRange earliest latest)) ∧
      (s.instructionCounts M).1 = ((s.reportedRanges M).map fun (f, earliest, latest) =>
        (M.instsBetween f earliest latest).length).sum ∧
      (s.maxLevelFunctionRanges M).entries.length ≤ s.allVisitedFunctions.size := by
  have hperm := PassState.reportedRanges_perm (M := M) (prints_of_maxLevelInstruction hrun hmax)
  have hlines := PassState.spanLines_perm (M := M) (s := s)
  refine ⟨PassState.lookup_earliestLatestPerFunction, ?_, ?_, ?_, ?_,
    PassState.size_maxLevelFunctionRanges_le⟩
  · rw [PassState.reportedFunctions, List.length_map, hperm.length_eq, List.length_map]
  · rw [hlines.length_eq, List.length_map]
  · apply hlines.trans
    apply ((hperm.map _).trans _).symm
    rw [List.map_map]
    exact List.Perm.refl _
  · rw [PassState.instructionCounts_spec, (hperm.map _).sum_eq, List.map_map]
    rfl

theorem run_spans_agree_recursiveModule :
    ∃ s, run recursiveModule recursiveConfig Value.slot 5 = some s ∧
      (s.maxLevelFunctionRanges recursiveModule).entries.length =
        (s.spanLines recursiveModule).length := by
  have h : (run recursiveModule recursiveConfig Value.slot 5).map
      (fun s => decide (s.maxLevelInstructions ≠ [])) = some true := by decide
  obtain ⟨s, hs, hmax⟩ := Option.map_eq_some_iff.mp h
  exact ⟨s, hs, (run_spans_agree recursiveModule recursiveConfig _ 5 s hs
    (of_decide_eq_true hmax)).2.2.1⟩

end LinuxAnalysis
