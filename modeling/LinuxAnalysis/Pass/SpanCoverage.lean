import LinuxAnalysis.Pass.Report

/-!
# What the reported span of a function covers

The pair printed for a function is taken over its instructions at the largest level.  A recursive
function can hold tainted instructions of lower levels as well, and those may lie outside.
-/

open LinuxAnalysis.Lib

namespace LinuxAnalysis

/-- **Span of a reported function.**  Both ends are tainted instructions of the function at the
largest level, and a tainted instruction of the function outside the span has no level or a smaller
one. -/
theorem reportedRanges_cover_maxLevel (M : Module) (s : PassState) (f : Nat)
    (earliest latest : InstId) (hr : (f, earliest, latest) ∈ s.reportedRanges M) :
    (∀ i ∈ [earliest, latest], i.func = f ∧ .inst i ∈ s.taintedValues ∧
        s.valueLevel.lookup (.inst i) = some s.maxLevel) ∧
      ∀ i ∈ M.insts, i.func = f → .inst i ∈ s.taintedValues →
        (earliest.le i ∧ i.le latest) ∨ s.valueLevel.lookup (.inst i) = none ∨
          ∃ level < s.maxLevel, s.valueLevel.lookup (.inst i) = some level := by
  have hranges := PassState.rangesOver_earliestLatestPerFunction (M := M) (s := s)
  have hlookup := PassState.mem_reportedRanges hr
  obtain ⟨⟨_, hem, hef⟩, _, hlm, hlf⟩ := hranges.ends f earliest latest hlookup
  constructor
  · intro i hi
    simp only [List.mem_cons, List.not_mem_nil, or_false] at hi
    rcases hi with rfl | rfl
    · exact ⟨hef, PassState.mem_maxLevelInstructions.mp hem⟩
    · exact ⟨hlf, PassState.mem_maxLevelInstructions.mp hlm⟩
  · intro i hi hif hit
    cases hlevel : s.valueLevel.lookup (.inst i) with
    | none => exact .inr (.inl rfl)
    | some level =>
      rcases (PassState.le_maxLevel hit hlevel).lt_or_eq with hlt | heq
      · exact .inr (.inr ⟨level, hlt, rfl⟩)
      · have hmax : i ∈ s.maxLevelInstructions :=
          PassState.mem_maxLevelInstructions.mpr ⟨hit, by rw [hlevel, heq]⟩
        obtain ⟨e, l, hel, hle, hil⟩ := hranges.covers i hi hmax
        rw [hif, hlookup] at hel
        cases hel
        exact .inl ⟨hle, hil⟩

/-- A function that calls itself and returns the tainted sum computed before the call. -/
def recursiveModule : Module :=
  .ofFunctions [{
    name := "f".toList
    argIsPointerTy := []
    blocks := [[
      { kind := .other "add".toList [.constantInt 32 5, .constant 0] [] },
      { kind := .call (.function 0) true [] [] },
      { kind := .ret (some (.inst ⟨0, 0, 0⟩)) }]] }] id

def recursiveConfig : Config where
  functionName := "f".toList
  targetOpcode := "add".toList
  constantToTrack := 5
  interprocMode := false
  indirectCallMode := false
  upwardInterprocMode := true
  occurrenceIndex := 1
  approxDebugInfo := true

theorem run_recursiveModule : ∃ s, run recursiveModule recursiveConfig Value.slot 5 = some s ∧
    s.reportedRanges recursiveModule = [(0, ⟨0, 0, 1⟩, ⟨0, 0, 1⟩)] ∧
    .inst ⟨0, 0, 0⟩ ∈ s.taintedValues := by
  have h : (run recursiveModule recursiveConfig Value.slot 5).map
      (fun s => (s.reportedRanges recursiveModule, decide (.inst ⟨0, 0, 0⟩ ∈ s.taintedValues))) =
      some ([(0, ⟨0, 0, 1⟩, ⟨0, 0, 1⟩)], true) := by decide
  obtain ⟨s, hs, hval⟩ := Option.map_eq_some_iff.mp h
  simp only [Prod.mk.injEq, decide_eq_true_eq] at hval
  exact ⟨s, hs, hval⟩

theorem reportedRanges_cover_recursiveModule :
    ∃ s, run recursiveModule recursiveConfig Value.slot 5 = some s ∧
      s.valueLevel.lookup (.inst ⟨0, 0, 1⟩) = some s.maxLevel := by
  obtain ⟨s, hs, hr, _⟩ := run_recursiveModule
  have hends := (reportedRanges_cover_maxLevel recursiveModule s 0 ⟨0, 0, 1⟩ ⟨0, 0, 1⟩
    (by rw [hr]; exact List.mem_cons_self)).1
  exact ⟨s, hs, (hends _ List.mem_cons_self).2.2⟩

/-- The recursive call is one level above the sum, so the span is the call alone, and the sum, which
is tainted, comes before it. -/
theorem reportedRanges_miss_lowerLevel :
    ¬ ∀ (M : Module) (cfg : Config) (addr : Value → Nat) (fuel : Nat) (s : PassState),
      run M cfg addr fuel = some s →
      ∀ f earliest latest, (f, earliest, latest) ∈ s.reportedRanges M →
      ∀ i ∈ M.insts, i.func = f → .inst i ∈ s.taintedValues → earliest.le i ∧ i.le latest := by
  intro hall
  obtain ⟨s, hs, hr, ht⟩ := run_recursiveModule
  have hcover := hall recursiveModule recursiveConfig _ 5 s hs 0 ⟨0, 0, 1⟩ ⟨0, 0, 1⟩
    (by rw [hr]; exact List.mem_cons_self) ⟨0, 0, 0⟩ (by decide) rfl ht
  exact absurd hcover.1 (by decide)

end LinuxAnalysis
