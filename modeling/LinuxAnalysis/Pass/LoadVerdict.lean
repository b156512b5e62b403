import LinuxAnalysis.Pass.KillConsistency

/-!
# What a scan decides about a load

The innermost loop of `scanLoadsFromTaintedPointers` leaves a load in one of five ways.  The scan
marks no new kill, so the loads it skips as after a kill are known from the set it was given: some
killed store to the pointer comes first in the block, whatever is stored to the pointer in between.
-/

open LinuxAnalysis.Lib

namespace LinuxAnalysis

/-- The ways out of the body of the innermost loop. -/
inductive LoadVerdict where
  | otherPointer
  | alreadyTainted
  | afterKill
  | beforeTaintOrigin
  | tainted
  deriving DecidableEq

/-- The last store to `ptr` before the load, in the load's block. -/
structure IsLastStoreBefore (M : Module) (ptr : Value) (load last : InstId) : Prop where
  store : M.storePointer last = some ptr
  mem : last ∈ M.insts
  precedes : last.precedes load
  latest : ∀ i ∈ M.insts, M.storePointer i = some ptr → i.precedes load → i.precedes last

namespace PassState

variable (M : Module)

def loadVerdict (killTracking : Bool) (ptr : Value) (s : PassState) (i : InstId) : LoadVerdict :=
  if !loadMatches M ptr i then .otherPointer
  else if .inst i ∈ s.taintedValues then .alreadyTainted
  else if killTracking && s.afterKill M i ptr then .afterKill
  else if s.isLoadBeforeTaintOrigin M i ptr then .beforeTaintOrigin
  else .tainted

/-- The loads in the order of the scan, each with what was decided about it when it was visited. -/
def scanVerdicts (killTracking : Bool) :
    List (Value × InstId) → PassState × Bool → List ((Value × InstId) × LoadVerdict)
  | [], _ => []
  | (ptr, i) :: rest, r =>
    ((ptr, i), loadVerdict M killTracking ptr r.1 i) ::
      scanVerdicts killTracking rest (scanLoad M killTracking ptr r i)

variable {M}

/-- The verdict is what the loop body does. -/
theorem scanLoad_eq_loadVerdict (killTracking : Bool) (ptr : Value) (r : PassState × Bool)
    (i : InstId) :
    scanLoad M killTracking ptr r i =
      match loadVerdict M killTracking ptr r.1 i with
      | .otherPointer | .alreadyTainted => r
      | .afterKill | .beforeTaintOrigin => (r.1.ensureLevelSet i, r.2)
      | .tainted => ((r.1.ensureLevelSet i).taintValue (.inst i), true) := by
  unfold scanLoad loadVerdict
  by_cases hmatch : loadMatches M ptr i = true
  · rw [hmatch]
    simp only [Bool.not_true, Bool.false_eq_true, if_false]
    split
    · rfl
    · split
      · rfl
      · split <;> rfl
  · simp only [hmatch, Bool.not_false, if_true]

theorem loadVerdict_eq_afterKill_iff {ptr : Value} {s : PassState} {i : InstId} :
    loadVerdict M true ptr s i = .afterKill ↔ loadMatches M ptr i = true ∧
      .inst i ∉ s.taintedValues ∧ s.afterKill M i ptr = true := by
  unfold loadVerdict
  by_cases hmatch : loadMatches M ptr i = true
  · by_cases htainted : .inst i ∈ s.taintedValues
    · simp [hmatch, htainted]
    · by_cases hkill : s.afterKill M i ptr = true
      · simp [hmatch, htainted, hkill]
      · simp only [hmatch, htainted, hkill, Bool.not_true, Bool.false_eq_true, Bool.and_false,
          if_false, and_false, iff_false]
        split <;> exact LoadVerdict.noConfusion
  · simp [hmatch]

theorem loadVerdict_eq_alreadyTainted_iff {killTracking : Bool} {ptr : Value} {s : PassState}
    {i : InstId} :
    loadVerdict M killTracking ptr s i = .alreadyTainted ↔
      loadMatches M ptr i = true ∧ .inst i ∈ s.taintedValues := by
  unfold loadVerdict
  by_cases hmatch : loadMatches M ptr i = true
  · by_cases htainted : .inst i ∈ s.taintedValues
    · simp [hmatch, htainted]
    · simp only [hmatch, htainted, Bool.not_true, Bool.false_eq_true, if_false, and_false,
        iff_false]
      split
      · exact LoadVerdict.noConfusion
      · split <;> exact LoadVerdict.noConfusion
  · simp [hmatch]

theorem afterKill_congr {s t : PassState} (h : t.killedStores = s.killedStores) (i : InstId)
    (ptr : Value) : t.afterKill M i ptr = s.afterKill M i ptr := by
  unfold afterKill
  rw [h]

/-- A visit of the scan is decided with the kills the scan started with. -/
theorem scanVerdicts_afterKill {loads : List (Value × InstId)} {r : PassState × Bool} {ptr : Value}
    {i : InstId} {verdict : LoadVerdict}
    (h : ((ptr, i), verdict) ∈ scanVerdicts M true loads r) :
    verdict = .afterKill ↔ loadMatches M ptr i = true ∧ verdict ≠ .alreadyTainted ∧
      r.1.afterKill M i ptr = true := by
  induction loads generalizing r with
  | nil => cases h
  | cons e rest ih =>
    rcases List.mem_cons.mp h with hhead | htail
    · cases hhead
      rw [loadVerdict_eq_afterKill_iff, ne_eq, loadVerdict_eq_alreadyTainted_iff, not_and]
      constructor
      · intro ⟨hmatch, hnew, hkill⟩
        exact ⟨hmatch, fun _ => hnew, hkill⟩
      · intro ⟨hmatch, hnew, hkill⟩
        exact ⟨hmatch, hnew hmatch, hkill⟩
    · rw [ih htail, afterKill_congr (scanLoad_effect true e.1 r e.2).1]

theorem mem_of_mem_scanVerdicts {killTracking : Bool} {loads : List (Value × InstId)}
    {r : PassState × Bool} {e : Value × InstId} {verdict : LoadVerdict}
    (h : (e, verdict) ∈ scanVerdicts M killTracking loads r) : e ∈ loads := by
  induction loads generalizing r with
  | nil => cases h
  | cons e' rest ih =>
    rcases List.mem_cons.mp h with hhead | htail
    · cases hhead
      exact List.mem_cons_self
    · exact List.mem_cons_of_mem e' (ih htail)

end PassState

/-- **Kill masking.**  Whatever set of killed stores a scan is given, it skips a load as after a kill
exactly when one of these stores to the pointer comes before it in its block.  The last store to the
pointer need not be that one, but when it is killed the load is skipped. -/
theorem scanLoads_afterKill_iff (M : Module) (s : PassState) (ptrs : List Value) (ptr : Value)
    (i : InstId) (verdict : LoadVerdict)
    (h : ((ptr, i), verdict) ∈ PassState.scanVerdicts M true (loadsToScan M ptrs) (s, false)) :
    (verdict = .afterKill ↔ PassState.loadMatches M ptr i = true ∧ verdict ≠ .alreadyTainted ∧
      ∃ kill ∈ s.killedStores, M.storePointer kill = some ptr ∧ kill ∈ M.insts ∧
        kill.precedes i) ∧
    (PassState.loadMatches M ptr i = true → verdict ≠ .alreadyTainted →
      ∀ last ∈ s.killedStores, IsLastStoreBefore M ptr i last → verdict = .afterKill) := by
  have hi : i ∈ M.insts := (Point.mem_pairs.mp (PassState.mem_of_mem_scanVerdicts h)).2
  have hskip := PassState.scanVerdicts_afterKill h
  rw [PassState.afterKill_iff] at hskip
  refine ⟨hskip.trans ?_, fun hmatch hnew last hlast hbefore => ?_⟩
  · constructor
    · intro ⟨hmatch, hnew, kill, hkill, hptr, hmem, _, hpre⟩
      exact ⟨hmatch, hnew, kill, hkill, hptr, hmem, hpre⟩
    · intro ⟨hmatch, hnew, kill, hkill, hptr, hmem, hpre⟩
      exact ⟨hmatch, hnew, kill, hkill, hptr, hmem, hi, hpre⟩
  · exact hskip.mpr ⟨hmatch, hnew, last, hlast, hbefore.store, hbefore.mem, hi, hbefore.precedes⟩

/-- The scan of the first turn over the module in which the pointer is tainted, overwritten and
tainted again before the load. -/
theorem retaintModule_scan :
    ∃ s, Reachable retaintModule recursiveConfig Value.slot
        ⟨.forwardLoads [.inst ⟨0, 0, 0⟩] (loadsToScan retaintModule [.inst ⟨0, 0, 0⟩]) false, s⟩ ∧
      s.killedStores.elems = [⟨0, 0, 3⟩] ∧
      ((.inst ⟨0, 0, 0⟩, ⟨0, 0, 5⟩), .afterKill) ∈ PassState.scanVerdicts retaintModule true
        (loadsToScan retaintModule [.inst ⟨0, 0, 0⟩]) (s, false) := by
  have h : (Reaches.iterate (step retaintModule recursiveConfig Value.slot) 21
      (initialPoint retaintModule recursiveConfig)).map (fun m =>
        match m with
        | ⟨.forwardLoads ptrs rest false, s⟩ =>
          decide (ptrs = [.inst ⟨0, 0, 0⟩] ∧ rest = loadsToScan retaintModule [.inst ⟨0, 0, 0⟩] ∧
            s.killedStores.elems = [⟨0, 0, 3⟩] ∧
            ((.inst ⟨0, 0, 0⟩, ⟨0, 0, 5⟩), .afterKill) ∈ PassState.scanVerdicts retaintModule true
              (loadsToScan retaintModule [.inst ⟨0, 0, 0⟩]) (s, false))
        | _ => false) = some true := by decide
  obtain ⟨m, hm, hval⟩ := Option.map_eq_some_iff.mp h
  split at hval
  next ptrs rest s =>
    obtain ⟨rfl, rfl, hkilled, hskip⟩ := of_decide_eq_true hval
    exact ⟨s, Reaches.of_iterate hm, hkilled, hskip⟩
  next => cases hval

theorem scanLoads_afterKill_iff_retaintModule :
    ∃ s, Reachable retaintModule recursiveConfig Value.slot
        ⟨.forwardLoads [.inst ⟨0, 0, 0⟩] (loadsToScan retaintModule [.inst ⟨0, 0, 0⟩]) false, s⟩ ∧
      ∃ kill ∈ s.killedStores, kill.precedes ⟨0, 0, 5⟩ := by
  obtain ⟨s, hreach, _, hskip⟩ := retaintModule_scan
  obtain ⟨_, _, kill, hkill, _, _, hpre⟩ :=
    (scanLoads_afterKill_iff retaintModule s _ _ _ _ hskip).1.mp rfl
  exact ⟨s, hreach, kill, hkill, hpre⟩

/-- The killed store hides the load although the last store before it is not killed. -/
theorem scanLoads_afterKill_not_lastStore :
    ¬ ∀ (M : Module) (cfg : Config) (addr : Value → Nat) (ptrs : List Value) (s : PassState),
      Reachable M cfg addr ⟨.forwardLoads ptrs (loadsToScan M ptrs) false, s⟩ →
      ∀ ptr i verdict,
        ((ptr, i), verdict) ∈ PassState.scanVerdicts M true (loadsToScan M ptrs) (s, false) →
        PassState.loadMatches M ptr i = true → verdict ≠ .alreadyTainted →
        (verdict = .afterKill ↔ ∃ last ∈ s.killedStores, IsLastStoreBefore M ptr i last) := by
  intro hall
  obtain ⟨s, hreach, hkilled, hskip⟩ := retaintModule_scan
  obtain ⟨last, hlast, hbefore⟩ := (hall retaintModule recursiveConfig Value.slot _ s hreach _ _ _
    hskip (by decide) (by decide)).mp rfl
  rw [DenseSet.mem_def, hkilled, List.mem_singleton] at hlast
  subst hlast
  -- the tainted store stands between the kill and the load
  have hlater : InstId.precedes ⟨0, 0, 4⟩ ⟨0, 0, 3⟩ :=
    hbefore.latest ⟨0, 0, 4⟩ (by decide) rfl (by decide)
  exact absurd hlater (by decide)

end LinuxAnalysis
