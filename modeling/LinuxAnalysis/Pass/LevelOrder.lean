import LinuxAnalysis.Pass.AddressOrder
import LinuxAnalysis.Pass.SharedVisits
import LinuxAnalysis.Pass.Statistics

/-!
# Two runs under different addresses

While nothing tainted is stored, two runs whose functions and values lie at different addresses end
with the same levels, unless some value or function is reached at two levels.
-/

open LinuxAnalysis.Lib

namespace LinuxAnalysis

section Relation

variable (M : Module) (cfg : Config)

end Relation

variable {M : Module} {cfg : Config} {addr₁ addr₂ : Value → Nat}

/-! ## The forward phase -/

namespace PassState

end PassState

/-! ## The upward phase -/

namespace LevelsAgree

variable {s t : PassState}

theorem symm (h : LevelsAgree s t) : LevelsAgree t s where
  values v := (h.values v).symm
  levels v hv := (h.levels v ((h.values v).mpr hv)).symm

theorem maxLevel_le (h : LevelsAgree s t) : s.maxLevel ≤ t.maxLevel := by
  rcases PassState.maxLevel_attained s with hmin | ⟨v, hv, hlevel⟩
  · rw [hmin]
    exact PassState.intMin_le_maxLevel t
  · exact PassState.le_maxLevel ((h.values v).mp hv) ((h.levels v hv).symm.trans hlevel)

theorem maxLevel_eq (h : LevelsAgree s t) : s.maxLevel = t.maxLevel :=
  le_antisymm h.maxLevel_le h.symm.maxLevel_le

theorem maxLevelValues (h : LevelsAgree s t) (v : Value) :
    v ∈ s.maxLevelValues ↔ v ∈ t.maxLevelValues := by
  rw [PassState.mem_maxLevelValues, PassState.mem_maxLevelValues, h.values, h.maxLevel_eq]
  refine and_congr_right fun hv => ?_
  rw [h.levels v ((h.values v).mpr hv)]

end LevelsAgree

namespace PassState

/-! ## Whole runs -/

end PassState

/-! ## Runs in which nothing tainted is stored -/

section Unstored

variable {fuel₁ fuel₂ : Nat} {t₁ t₂ : PassState}

end Unstored

/-- `f` passes the constant's sum to `g` and returns it; `h` calls `f` and what else is given, and `k`
calls `h`. -/
def calleesModule (calls : List Inst) : Module :=
  .ofFunctions [
    { name := "f".toList
      argIsPointerTy := [false]
      blocks := [[
        { kind := .other "add".toList [.arg ⟨0, 0⟩, .constantInt 32 5] [] },
        { kind := .call (.function 1) true [.inst ⟨0, 0, 0⟩] [] },
        { kind := .ret (some (.inst ⟨0, 0, 0⟩)) }]] },
    { name := "g".toList
      argIsPointerTy := [false]
      blocks := [[{ kind := .ret (some (.arg ⟨1, 0⟩)) }]] },
    { name := "h".toList
      argIsPointerTy := [false]
      blocks := [{ kind := .call (.function 0) true [.arg ⟨2, 0⟩] [] } :: calls ++
        [{ kind := .ret (some (.inst ⟨2, 0, 0⟩)) }]] },
    { name := "k".toList
      argIsPointerTy := []
      blocks := [[
        { kind := .call (.function 2) true [.constantInt 32 1] [] },
        { kind := .ret none }]] }] id

section OneCallee

end OneCallee

end LinuxAnalysis
