import LinuxAnalysis.Lib.Transition
import LinuxAnalysis.Pass.Upward

/-!
# The run as a transition system

The pass taken step by step: a point of the run is the loop it is in, with what the innermost `for`
loops have still to visit, and the state.  `run_reaches` ties the steps to `run`: a run that returns
is the run of the machine from its first point to its last.
-/

open LinuxAnalysis.Lib

namespace LinuxAnalysis

/-- Two nested `for` loops as one loop over pairs. -/
theorem foldl_pairs {σ α β : Type} (f : α → σ → β → σ) (ys : α → List β) (xs : List α) (s : σ) :
    (xs.flatMap fun x => (ys x).map (Prod.mk x)).foldl (fun s e => f e.1 s e.2) s =
      xs.foldl (fun s x => (ys x).foldl (f x) s) s := by
  rw [List.foldl_flatMap]
  simp only [List.foldl_map]

/-- The loop a run is in.  The upward loops carry `oldReturningSize` and `oldPointerParamsSize`. -/
inductive Control where
  | seeding (rest : List (InstId × Value)) (currentOccurrence : Nat) (found : Bool)
  | forwardLoop
  | forwardWorklist
  | forwardUsers (v : Value) (rest : List InstId)
  | killStores (rest : List InstId)
  | forwardLoads (ptrs : List Value) (rest : List (Value × InstId)) (changed : Bool)
  | upwardEntry
  | upwardLoop
  | returningCalls (old : Nat × Nat) (rest : List (Nat × InstId))
  | paramCalls (old : Nat × Nat) (rest : List ((Σ _ : Nat, DenseSet Nat) × InstId))
  | upwardWorklist (old : Nat × Nat)
  | upwardUsers (old : Nat × Nat) (v : Value) (rest : List InstId)
  | upwardLoads (old : Nat × Nat) (ptrs : List Value) (rest : List (Value × InstId))
      (changed : Bool)
  | finished

structure Point where
  control : Control
  state : PassState

namespace PassState

/-- The counts taken at the start of a turn of the upward loop. -/
def discoveredSizes (s : PassState) : Nat × Nat :=
  (s.functionsReturningTaint.size, s.functionsTaintingPointerParams.entries.length)

/-- The end of a turn of the upward loop. -/
def compareSizes (old : Nat × Nat) (s : PassState) : PassState :=
  if s.functionsReturningTaint.size > old.1 ∨
      s.functionsTaintingPointerParams.entries.length > old.2 then
    { s with discoveredNewFunctions := true }
  else s

end PassState

section Machine

variable (M : Module) (cfg : Config) (addr : Value → Nat)

def seedOperands : List (InstId × Value) :=
  (seedCandidates M cfg).flatMap fun i => (M.operands i).map (Prod.mk i)

def loadsToScan (ptrs : List Value) : List (Value × InstId) :=
  ptrs.flatMap fun p => M.insts.map (Prod.mk p)

/-- One step.  The loops that only choose what comes next take a step of their own. -/
def step : Point → Option Point
  | ⟨.seeding [] _ _, s⟩ => some ⟨.forwardLoop, { s with changed := true }⟩
  | ⟨.seeding ((i, op) :: rest) n found, s⟩ =>
    let r := seedOperand M cfg i ⟨s, n, found⟩ op
    some ⟨.seeding rest r.currentOccurrence r.found, r.pass⟩
  | ⟨.forwardLoop, s⟩ =>
    if s.changed then some ⟨.forwardWorklist, { s with changed := false }⟩
    else some ⟨.upwardEntry, s⟩
  | ⟨.forwardWorklist, s⟩ =>
    match s.worklist with
    | [] => some ⟨.killStores M.insts, s⟩
    | v :: rest => some ⟨.forwardUsers v (M.getSortedUsers addr v), { s with worklist := rest }⟩
  | ⟨.forwardUsers _ [], s⟩ => some ⟨.forwardWorklist, s⟩
  | ⟨.forwardUsers v (u :: rest), s⟩ => some ⟨.forwardUsers v rest, s.forwardUser M cfg addr v u⟩
  -- the pointers to scan are chosen when the kills are settled
  | ⟨.killStores [], s⟩ =>
    let ptrs := s.pointersToScan addr s.scannedPointers
    some ⟨.forwardLoads ptrs (loadsToScan M ptrs) false, s⟩
  | ⟨.killStores (i :: rest), s⟩ => some ⟨.killStores rest, s.identifyKillStore M i⟩
  | ⟨.forwardLoads ptrs [] changed, s⟩ =>
    some ⟨.forwardLoop, { s with
      changed := s.changed || changed
      scannedPointers := ptrs.foldl (fun scanned p => scanned.insert p) s.scannedPointers }⟩
  | ⟨.forwardLoads ptrs ((p, i) :: rest) changed, s⟩ =>
    let r := PassState.scanLoad M true p (s, changed) i
    some ⟨.forwardLoads ptrs rest r.2, r.1⟩
  | ⟨.upwardEntry, s⟩ =>
    if cfg.upwardInterprocMode && (!s.functionsReturningTaint.isEmpty ||
        !s.functionsTaintingPointerParams.entries.isEmpty) then
      some ⟨.upwardLoop, { s with discoveredNewFunctions := true }⟩
    else some ⟨.finished, s⟩
  -- the function sets are copied before the turn, so what it adds waits for the next one
  | ⟨.upwardLoop, s⟩ =>
    if s.discoveredNewFunctions then
      some ⟨.returningCalls s.discoveredSizes
        ((sortOn (fun f => addr (.function f)) s.functionsReturningTaint.elems).flatMap
          fun f => M.insts.map (Prod.mk f)), { s with discoveredNewFunctions := false }⟩
    else some ⟨.finished, s⟩
  -- 5b takes its own copy, after 5a
  | ⟨.returningCalls old [], s⟩ =>
    some ⟨.paramCalls old
      ((sortOn (fun e => addr (.function e.1)) s.functionsTaintingPointerParams.entries).flatMap
        fun e => M.insts.map (Prod.mk e)), s⟩
  | ⟨.returningCalls old ((f, i) :: rest), s⟩ =>
    some ⟨.returningCalls old rest, s.taintReturningCall M f i⟩
  | ⟨.paramCalls old [], s⟩ => some ⟨.upwardWorklist old, s⟩
  | ⟨.paramCalls old ((e, i) :: rest), s⟩ =>
    some ⟨.paramCalls old rest, s.upwardCallSite M e.1 e.2 i⟩
  | ⟨.upwardWorklist old, s⟩ =>
    match s.worklist with
    | [] =>
      let ptrs := s.pointersToScan addr s.upwardScannedPointers
      if ptrs.isEmpty then some ⟨.upwardLoop, s.compareSizes old⟩
      else some ⟨.upwardLoads old ptrs (loadsToScan M ptrs) false, s⟩
    | v :: rest =>
      some ⟨.upwardUsers old v (M.getSortedUsers addr v), { s with worklist := rest }⟩
  | ⟨.upwardUsers old _ [], s⟩ => some ⟨.upwardWorklist old, s⟩
  | ⟨.upwardUsers old v (u :: rest), s⟩ => some ⟨.upwardUsers old v rest, s.upwardUser M v u⟩
  | ⟨.upwardLoads old ptrs [] _, s⟩ =>
    some ⟨.upwardWorklist old, { s with
      upwardScannedPointers :=
        ptrs.foldl (fun scanned p => scanned.insert p) s.upwardScannedPointers }⟩
  | ⟨.upwardLoads old ptrs ((p, i) :: rest) changed, s⟩ =>
    let r := PassState.scanLoad M false p (s, changed) i
    some ⟨.upwardLoads old ptrs rest r.2, r.1⟩
  | ⟨.finished, _⟩ => none

/-- The steps by what they do, with the tests that guard them. -/
inductive Transition : Point → Point → Prop where
  | seedOperand {i op rest n found s} : Transition ⟨.seeding ((i, op) :: rest) n found, s⟩
      ⟨.seeding rest (seedOperand M cfg i ⟨s, n, found⟩ op).currentOccurrence
        (seedOperand M cfg i ⟨s, n, found⟩ op).found, (seedOperand M cfg i ⟨s, n, found⟩ op).pass⟩
  | seeded {n found s} : Transition ⟨.seeding [] n found, s⟩
      ⟨.forwardLoop, { s with changed := true }⟩
  | forwardTurn {s} : s.changed = true → Transition ⟨.forwardLoop, s⟩
      ⟨.forwardWorklist, { s with changed := false }⟩
  | forwardEnd {s} : s.changed = false → Transition ⟨.forwardLoop, s⟩ ⟨.upwardEntry, s⟩
  | forwardPop {v rest s} : s.worklist = v :: rest → Transition ⟨.forwardWorklist, s⟩
      ⟨.forwardUsers v (M.getSortedUsers addr v), { s with worklist := rest }⟩
  | forwardDrained {s} : s.worklist = [] → Transition ⟨.forwardWorklist, s⟩
      ⟨.killStores M.insts, s⟩
  | forwardUser {v u rest s} : Transition ⟨.forwardUsers v (u :: rest), s⟩
      ⟨.forwardUsers v rest, s.forwardUser M cfg addr v u⟩
  | forwardUsersEnd {v s} : Transition ⟨.forwardUsers v [], s⟩ ⟨.forwardWorklist, s⟩
  | killStore {i rest s} : Transition ⟨.killStores (i :: rest), s⟩
      ⟨.killStores rest, s.identifyKillStore M i⟩
  | killStoresEnd {s} : Transition ⟨.killStores [], s⟩
      ⟨.forwardLoads (s.pointersToScan addr s.scannedPointers)
        (loadsToScan M (s.pointersToScan addr s.scannedPointers)) false, s⟩
  | forwardLoad {ptrs p i rest changed s} : Transition ⟨.forwardLoads ptrs ((p, i) :: rest) changed, s⟩
      ⟨.forwardLoads ptrs rest (PassState.scanLoad M true p (s, changed) i).2,
        (PassState.scanLoad M true p (s, changed) i).1⟩
  | forwardLoadsEnd {ptrs changed s} : Transition ⟨.forwardLoads ptrs [] changed, s⟩
      ⟨.forwardLoop, { s with
        changed := s.changed || changed
        scannedPointers := ptrs.foldl (fun scanned p => scanned.insert p) s.scannedPointers }⟩
  | upwardStart {s} : (cfg.upwardInterprocMode && (!s.functionsReturningTaint.isEmpty ||
        !s.functionsTaintingPointerParams.entries.isEmpty)) = true →
      Transition ⟨.upwardEntry, s⟩ ⟨.upwardLoop, { s with discoveredNewFunctions := true }⟩
  | upwardSkip {s} : Transition ⟨.upwardEntry, s⟩ ⟨.finished, s⟩
  | upwardTurn {s} : s.discoveredNewFunctions = true → Transition ⟨.upwardLoop, s⟩
      ⟨.returningCalls s.discoveredSizes
        ((sortOn (fun f => addr (.function f)) s.functionsReturningTaint.elems).flatMap
          fun f => M.insts.map (Prod.mk f)), { s with discoveredNewFunctions := false }⟩
  | upwardEnd {s} : s.discoveredNewFunctions = false → Transition ⟨.upwardLoop, s⟩ ⟨.finished, s⟩
  | returningCall {old f i rest s} : Transition ⟨.returningCalls old ((f, i) :: rest), s⟩
      ⟨.returningCalls old rest, s.taintReturningCall M f i⟩
  | returningCallsEnd {old s} : Transition ⟨.returningCalls old [], s⟩
      ⟨.paramCalls old
        ((sortOn (fun e => addr (.function e.1)) s.functionsTaintingPointerParams.entries).flatMap
          fun e => M.insts.map (Prod.mk e)), s⟩
  | paramCall {old e i rest s} : Transition ⟨.paramCalls old ((e, i) :: rest), s⟩
      ⟨.paramCalls old rest, s.upwardCallSite M e.1 e.2 i⟩
  | paramCallsEnd {old s} : Transition ⟨.paramCalls old [], s⟩ ⟨.upwardWorklist old, s⟩
  | upwardPop {old v rest s} : s.worklist = v :: rest → Transition ⟨.upwardWorklist old, s⟩
      ⟨.upwardUsers old v (M.getSortedUsers addr v), { s with worklist := rest }⟩
  | upwardScan {old s} : s.worklist = [] → Transition ⟨.upwardWorklist old, s⟩
      ⟨.upwardLoads old (s.pointersToScan addr s.upwardScannedPointers)
        (loadsToScan M (s.pointersToScan addr s.upwardScannedPointers)) false, s⟩
  | upwardTurnEnd {old s} : s.worklist = [] → Transition ⟨.upwardWorklist old, s⟩
      ⟨.upwardLoop, s.compareSizes old⟩
  | upwardUser {old v u rest s} : Transition ⟨.upwardUsers old v (u :: rest), s⟩
      ⟨.upwardUsers old v rest, s.upwardUser M v u⟩
  | upwardUsersEnd {old v s} : Transition ⟨.upwardUsers old v [], s⟩ ⟨.upwardWorklist old, s⟩
  | upwardLoad {old ptrs p i rest changed s} :
      Transition ⟨.upwardLoads old ptrs ((p, i) :: rest) changed, s⟩
        ⟨.upwardLoads old ptrs rest (PassState.scanLoad M false p (s, changed) i).2,
          (PassState.scanLoad M false p (s, changed) i).1⟩
  | upwardLoadsEnd {old ptrs changed s} : Transition ⟨.upwardLoads old ptrs [] changed, s⟩
      ⟨.upwardWorklist old, { s with
        upwardScannedPointers :=
          ptrs.foldl (fun scanned p => scanned.insert p) s.upwardScannedPointers }⟩

def initialPoint : Point :=
  ⟨.seeding (seedOperands M cfg) 0 false, PassState.buildFunctionPointerTargets M cfg {}⟩

/-- The points of the run. -/
def Reachable : Point → Prop := Reaches (step M cfg addr) (initialPoint M cfg)

variable {M cfg addr}

theorem transition_of_step {m m' : Point} (h : step M cfg addr m = some m') :
    Transition M cfg addr m m' := by
  -- one case for each equation of `step`, in its order
  unfold step at h
  split at h
  next =>
    cases h
    exact .seeded
  next =>
    cases h
    exact .seedOperand
  next =>
    split at h
    next hchanged =>
      cases h
      exact .forwardTurn hchanged
    next hchanged =>
      cases h
      exact .forwardEnd (Bool.eq_false_of_not_eq_true hchanged)
  next =>
    split at h
    next hempty =>
      cases h
      exact .forwardDrained hempty
    next hpop =>
      cases h
      exact .forwardPop hpop
  next =>
    cases h
    exact .forwardUsersEnd
  next =>
    cases h
    exact .forwardUser
  next =>
    cases h
    exact .killStoresEnd
  next =>
    cases h
    exact .killStore
  next =>
    cases h
    exact .forwardLoadsEnd
  next =>
    cases h
    exact .forwardLoad
  next =>
    split at h
    next hguard =>
      cases h
      exact .upwardStart hguard
    next =>
      cases h
      exact .upwardSkip
  next =>
    split at h
    next hflag =>
      cases h
      exact .upwardTurn hflag
    next hflag =>
      cases h
      exact .upwardEnd (Bool.eq_false_of_not_eq_true hflag)
  next =>
    cases h
    exact .returningCallsEnd
  next =>
    cases h
    exact .returningCall
  next =>
    cases h
    exact .paramCallsEnd
  next =>
    cases h
    exact .paramCall
  next =>
    split at h
    next hempty =>
      -- an empty worklist ends the turn unless a pointer is left to scan
      dsimp only at h
      split at h
      · cases h
        exact .upwardTurnEnd hempty
      · cases h
        exact .upwardScan hempty
    next hpop =>
      cases h
      exact .upwardPop hpop
  next =>
    cases h
    exact .upwardUsersEnd
  next =>
    cases h
    exact .upwardUser
  next =>
    cases h
    exact .upwardLoadsEnd
  next =>
    cases h
    exact .upwardLoad
  next => cases h

/-! ## The machine follows the phases -/

theorem seedWorklist_reaches :
    Reachable M cfg addr ⟨.forwardLoop, { seedWorklist M cfg with changed := true }⟩ := by
  have hfold := Reaches.of_foldl (step M cfg addr)
    (fun s (e : InstId × Value) => seedOperand M cfg e.1 s e.2)
    (fun rest s => ⟨.seeding rest s.currentOccurrence s.found, s.pass⟩) (fun _ _ _ => rfl)
    (seedOperands M cfg) ⟨PassState.buildFunctionPointerTargets M cfg {}, 0, false⟩
  rw [seedOperands, foldl_pairs (seedOperand M cfg)] at hfold
  exact hfold.trans (.single rfl)

theorem forwardPop_reaches {s : PassState} (h : s.worklist ≠ []) :
    Reaches (step M cfg addr) ⟨.forwardWorklist, s⟩ ⟨.forwardWorklist, s.forwardPop M cfg addr⟩ := by
  cases hwl : s.worklist with
  | nil => exact absurd hwl h
  | cons v rest =>
    have hpop : step M cfg addr ⟨.forwardWorklist, s⟩ = some ⟨.forwardUsers v
        (M.getSortedUsers addr v), { s with worklist := rest }⟩ := by
      simp only [step, hwl]
    have husers := Reaches.of_foldl (step M cfg addr)
      (PassState.forwardUser M cfg addr v)
      (fun rest s => ⟨.forwardUsers v rest, s⟩) (fun _ _ _ => rfl)
      (M.getSortedUsers addr v) { s with worklist := rest }
    rw [PassState.forwardPop, hwl]
    exact (husers.head hpop).trans (.single rfl)

theorem forwardDrain_reaches {fuel : Nat} {s t : PassState}
    (h : s.forwardDrain M cfg addr fuel = some t) :
    Reaches (step M cfg addr) ⟨.forwardWorklist, s⟩ ⟨.forwardWorklist, t⟩ ∧ t.worklist = [] := by
  have hpop (s t : PassState) (hc : (!s.worklist.isEmpty) = true)
      (hst : some (s.forwardPop M cfg addr) = some t) :
      Reaches (step M cfg addr) ⟨.forwardWorklist, s⟩ ⟨.forwardWorklist, t⟩ := by
    cases hst
    exact forwardPop_reaches (by simpa using hc)
  obtain ⟨hreach, hcond⟩ := Reaches.of_whileLoop (Point.mk .forwardWorklist) hpop h
  exact ⟨hreach, by simpa using hcond⟩

theorem scanLoads_eq (killTracking : Bool) (ptrs : List Value) (s : PassState) :
    (loadsToScan M ptrs).foldl (fun r e => PassState.scanLoad M killTracking e.1 r e.2) (s, false) =
      s.scanLoadsFromTaintedPointers M killTracking ptrs :=
  foldl_pairs (PassState.scanLoad M killTracking) _ _ _

theorem forwardLoads_reaches (ptrs : List Value) (s : PassState) :
    Reaches (step M cfg addr) ⟨.forwardLoads ptrs (loadsToScan M ptrs) false, s⟩
      ⟨.forwardLoads ptrs [] (s.scanLoadsFromTaintedPointers M true ptrs).2,
        (s.scanLoadsFromTaintedPointers M true ptrs).1⟩ := by
  have hloads := Reaches.of_foldl (step M cfg addr)
    (fun r (e : Value × InstId) => PassState.scanLoad M true e.1 r e.2)
    (fun rest r => ⟨.forwardLoads ptrs rest r.2, r.1⟩) (fun _ _ _ => rfl)
    (loadsToScan M ptrs) (s, false)
  rwa [scanLoads_eq] at hloads

theorem forwardScan_reaches {s : PassState} (h : s.worklist = []) :
    Reaches (step M cfg addr) ⟨.forwardWorklist, s⟩ ⟨.forwardLoop, s.forwardScan M addr⟩ := by
  have hkills : step M cfg addr ⟨.forwardWorklist, s⟩ = some ⟨.killStores M.insts, s⟩ := by
    simp only [step, h]
  have hkilled := Reaches.of_foldl (step M cfg addr)
    (PassState.identifyKillStore M)
    (fun rest s => ⟨.killStores rest, s⟩) (fun _ _ _ => rfl) M.insts s
  exact (hkilled.head hkills).trans
    (Reaches.head rfl ((forwardLoads_reaches _ _).trans (.single rfl)))

/-- The forward loop exits at its head. -/
theorem forwardLoop_reaches {fuel : Nat} {t : PassState}
    (h : forwardPhase M cfg addr fuel = some t) :
    Reachable M cfg addr ⟨.forwardLoop, t⟩ ∧ t.changed = false := by
  have hround (s t : PassState) (hc : s.changed = true)
      (hst : s.forwardRound M cfg addr fuel = some t) :
      Reaches (step M cfg addr) ⟨.forwardLoop, s⟩ ⟨.forwardLoop, t⟩ := by
    obtain ⟨u, hu, rfl⟩ := Option.map_eq_some_iff.mp hst
    obtain ⟨hdrain, hempty⟩ := forwardDrain_reaches hu
    refine Reaches.head ?_ (hdrain.trans (forwardScan_reaches hempty))
    simp only [step, hc, if_true]
  obtain ⟨hreach, hcond⟩ := Reaches.of_whileLoop (Point.mk .forwardLoop) hround h
  exact ⟨seedWorklist_reaches.trans hreach, hcond⟩

theorem forwardPhase_reaches {fuel : Nat} {t : PassState}
    (h : forwardPhase M cfg addr fuel = some t) : Reachable M cfg addr ⟨.upwardEntry, t⟩ := by
  obtain ⟨hreach, hcond⟩ := forwardLoop_reaches h
  refine hreach.trans (.single ?_)
  simp only [step, hcond, Bool.false_eq_true, if_false]

/-! ## The upward loops -/

theorem upwardPop_reaches {old : Nat × Nat} {s : PassState} (h : s.worklist ≠ []) :
    Reaches (step M cfg addr) ⟨.upwardWorklist old, s⟩
      ⟨.upwardWorklist old, s.upwardPop M addr⟩ := by
  cases hwl : s.worklist with
  | nil => exact absurd hwl h
  | cons v rest =>
    have hpop : step M cfg addr ⟨.upwardWorklist old, s⟩ = some ⟨.upwardUsers old v
        (M.getSortedUsers addr v), { s with worklist := rest }⟩ := by
      simp only [step, hwl]
    have husers := Reaches.of_foldl (step M cfg addr)
      (PassState.upwardUser M v)
      (fun rest s => ⟨.upwardUsers old v rest, s⟩) (fun _ _ _ => rfl)
      (M.getSortedUsers addr v) { s with worklist := rest }
    rw [PassState.upwardPop, hwl]
    exact (husers.head hpop).trans (.single rfl)

theorem upwardScan_reaches {old : Nat × Nat} {s : PassState} (h : s.worklist = [])
    (hptrs : (s.pointersToScan addr s.upwardScannedPointers).isEmpty = false) :
    Reaches (step M cfg addr) ⟨.upwardWorklist old, s⟩
      ⟨.upwardWorklist old, s.upwardScan M (s.pointersToScan addr s.upwardScannedPointers)⟩ := by
  have hchoose : step M cfg addr ⟨.upwardWorklist old, s⟩ =
      some ⟨.upwardLoads old (s.pointersToScan addr s.upwardScannedPointers)
        (loadsToScan M (s.pointersToScan addr s.upwardScannedPointers)) false, s⟩ := by
    simp only [step, h, hptrs, Bool.false_eq_true, if_false]
  have hloads (ptrs : List Value) (u : PassState) := Reaches.of_foldl (step M cfg addr)
    (fun r (e : Value × InstId) => PassState.scanLoad M false e.1 r e.2)
    (fun rest r => ⟨.upwardLoads old ptrs rest r.2, r.1⟩) (fun _ _ _ => rfl)
    (loadsToScan M ptrs) (u, false)
  simp only [scanLoads_eq] at hloads
  exact Reaches.head hchoose ((hloads _ _).trans (.single rfl))

theorem upwardSaturate_reaches {old : Nat × Nat} {fuel : Nat} {s t : PassState}
    (h : s.upwardSaturate M addr fuel = some t) :
    Reaches (step M cfg addr) ⟨.upwardWorklist old, s⟩ ⟨.upwardLoop, t.compareSizes old⟩ := by
  -- one drain is the inner loop of the machine
  have hdrain {n : Nat} {u w : PassState} (h : u.upwardDrain M addr n = some w) :
      Reaches (step M cfg addr) ⟨.upwardWorklist old, u⟩ ⟨.upwardWorklist old, w⟩ ∧
        w.worklist = [] := by
    have hpop (s t : PassState) (hc : (!s.worklist.isEmpty) = true)
        (hst : some (s.upwardPop M addr) = some t) :
        Reaches (step M cfg addr) ⟨.upwardWorklist old, s⟩ ⟨.upwardWorklist old, t⟩ := by
      cases hst
      exact upwardPop_reaches (by simpa using hc)
    obtain ⟨hreach, hcond⟩ :=
      Reaches.of_whileLoop (Point.mk (.upwardWorklist old)) hpop h
    exact ⟨hreach, by simpa using hcond⟩
  -- each round of saturation drains and then scans; the last one finds nothing to scan
  refine loop_invariant
    (I := fun u => Reaches (step M cfg addr) ⟨.upwardWorklist old, s⟩ ⟨.upwardWorklist old, u⟩)
    (Q := fun t => Reaches (step M cfg addr) ⟨.upwardWorklist old, s⟩
      ⟨.upwardLoop, t.compareSizes old⟩) ?_ ?_ (.refl _) h
  · intro u w hu huw
    obtain ⟨x, hx, hxw⟩ := Option.map_eq_some_iff.mp huw
    dsimp only at hxw
    split at hxw
    · cases hxw
    · rename_i hptrs
      cases hxw
      exact (hu.trans (hdrain hx).1).trans (upwardScan_reaches (hdrain hx).2 (by simpa using hptrs))
  · intro u w hu huw
    obtain ⟨x, hx, hxw⟩ := Option.map_eq_some_iff.mp huw
    dsimp only at hxw
    split at hxw
    · rename_i hptrs
      cases hxw
      refine (hu.trans (hdrain hx).1).trans (.single ?_)
      simp only [step, (hdrain hx).2, hptrs, if_true]
    · cases hxw

theorem upwardRound_reaches {fuel : Nat} {s t : PassState} (hc : s.discoveredNewFunctions = true)
    (h : s.upwardRound M addr fuel = some t) :
    Reaches (step M cfg addr) ⟨.upwardLoop, s⟩ ⟨.upwardLoop, t⟩ := by
  obtain ⟨u, hu, rfl⟩ := Option.map_eq_some_iff.mp h
  have hstart : step M cfg addr ⟨.upwardLoop, s⟩ = some ⟨.returningCalls s.discoveredSizes
      ((sortOn (fun f => addr (.function f)) s.functionsReturningTaint.elems).flatMap
        fun f => M.insts.map (Prod.mk f)), { s with discoveredNewFunctions := false }⟩ := by
    simp only [step, hc, if_true]
  have hreturns := Reaches.of_foldl (step M cfg addr)
    (fun s (e : Nat × InstId) => PassState.taintReturningCall M e.1 s e.2)
    (fun rest s' => ⟨.returningCalls s.discoveredSizes rest, s'⟩) (fun _ _ _ => rfl)
    ((sortOn (fun f => addr (.function f)) s.functionsReturningTaint.elems).flatMap
      fun f => M.insts.map (Prod.mk f)) { s with discoveredNewFunctions := false }
  have hparams (r : PassState) := Reaches.of_foldl (step M cfg addr)
    (fun s (e : (Σ _ : Nat, DenseSet Nat) × InstId) =>
      PassState.upwardCallSite M e.1.1 e.1.2 s e.2)
    (fun rest s' => ⟨.paramCalls s.discoveredSizes rest, s'⟩) (fun _ _ _ => rfl)
    ((sortOn (fun e => addr (.function e.1)) r.functionsTaintingPointerParams.entries).flatMap
      fun e => M.insts.map (Prod.mk e)) r
  rw [foldl_pairs (PassState.taintReturningCall M)] at hreturns
  simp only [foldl_pairs fun e : (Σ _ : Nat, DenseSet Nat) => PassState.upwardCallSite M e.1 e.2]
    at hparams
  have hcalls := (hreturns.head hstart).trans (Reaches.head rfl ((hparams _).trans (.single rfl)))
  exact hcalls.trans (upwardSaturate_reaches hu)

theorem run_reaches {fuel : Nat} {t : PassState} (h : run M cfg addr fuel = some t) :
    Reachable M cfg addr ⟨.finished, t⟩ := by
  obtain ⟨s, hs, ht⟩ := Option.bind_eq_some_iff.mp h
  have hforward := forwardPhase_reaches hs
  unfold PassState.upwardPhase at ht
  split at ht
  next hentry =>
    obtain ⟨hreach, hcond⟩ := Reaches.of_whileLoop
      (Point.mk .upwardLoop) (fun s t hc hst => upwardRound_reaches hc hst) ht
    have hstart : step M cfg addr ⟨.upwardEntry, s⟩ =
        some ⟨.upwardLoop, { s with discoveredNewFunctions := true }⟩ := by
      simp only [step, hentry, if_true]
    refine (hforward.trans (hreach.head hstart)).trans (.single ?_)
    simp only [step, hcond, Bool.false_eq_true, if_false]
  next hentry =>
    cases ht
    refine hforward.trans (.single ?_)
    simp only [step, hentry]
    rfl

/-- Every point of a run that returns comes before its end. -/
theorem Point.reaches_finished {m : Point} {fuel : Nat} {t : PassState}
    (hm : Reachable M cfg addr m) (h : run M cfg addr fuel = some t) :
    Reaches (step M cfg addr) m ⟨.finished, t⟩ := by
  rcases Reaches.linear hm (run_reaches h) with hreach | hreach
  · exact hreach
  · -- no step leaves the end
    rcases Relation.ReflTransGen.cases_head hreach with heq | ⟨_, hstep, _⟩
    · exact heq ▸ .refl _
    · cases hstep

end Machine

end LinuxAnalysis
