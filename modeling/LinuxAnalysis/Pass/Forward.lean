import LinuxAnalysis.Pass.Scan
import LinuxAnalysis.Pass.Seed

/-!
# The forward fixed point

The worklist algorithm with load tracking.  `addr` is the assignment of heap addresses that
`std::less` compares.
-/

open LinuxAnalysis.Lib

namespace LinuxAnalysis

namespace Module

variable (M : Module)

/-- The users of a value in address order. -/
def getSortedUsers (addr : Value → Nat) (v : Value) : List InstId :=
  sortOn (fun i => addr (.inst i)) (M.users v)

end Module

namespace PassState

variable (M : Module) (cfg : Config) (addr : Value → Nat)

/-- The targets of an indirect call: those stored to the loaded pointer, else to its stripped form,
else to the first GEP, in address order, of the same pattern. -/
def indirectTargets (calledOperand : Value) (s : PassState) : List Nat :=
  match calledOperand with
  | .inst load =>
    match M.kind load with
    | .load ptr =>
      -- the pointer itself, then without its casts, then by the pattern of its GEP
      match s.functionPointerTargets.lookup ptr,
          s.functionPointerTargets.lookup (M.stripPointerCasts ptr), ptr with
      | some targets, _, _ => targets
      | none, some targets, _ => targets
      | none, none, .inst loadGEP =>
        let entries := sortOn (fun e => addr e.1) s.functionPointerTargets.entries
        -- the first entry in address order whose GEP has the pattern of the load
        let entry := entries.find? fun e =>
          match e.1 with
          | .inst storeGEP => M.sameGEPPattern loadGEP storeGEP
          | _ => false
        (entry.map Sigma.snd).getD []
      | none, none, _ => []
    | _ => []
  | _ => []

/-- Taint parameter `argIdx` of a callee that `v` is passed to. -/
def enterCallee (v : Value) (argIdx : Nat) (s : PassState) (callee : Nat) : PassState :=
  if !M.isDeclaration callee && decide (argIdx < M.argSize callee) then
    s.taintParameter ⟨callee, argIdx⟩ (s.getLevel v)
  else s

/-- A call that uses `v`: only the first argument position holding `v` is looked at. -/
def forwardCall (v : Value) (call : InstId) (s : PassState) : PassState :=
  match M.kind call with
  | .call called _ args _ =>
    -- only the first argument position that holds the value
    match args.findIdx? (· == v) with
    | none => s
    | some argIdx =>
      match M.calledFunction call with
      | some callee =>
        -- an external function: reported, nothing recorded
        if M.isDeclaration callee then s
        else
          -- the call gets its level whether or not taint enters the callee
          let s := if .inst call ∈ s.valueLevel then s
            else s.setValueLevel (.inst call) (s.getLevel v)
          if cfg.interprocMode then s.enterCallee M v argIdx callee else s
      | none =>
        if cfg.indirectCallMode && cfg.interprocMode then
          (s.indirectTargets M addr called).foldl (enterCallee M v argIdx) s
        else s
  | _ => s

/-- `--- Propagate Taint ---` -/
def propagate (v : Value) (user : InstId) (s : PassState) : PassState :=
  if .inst user ∈ s.taintedValues then s
  else (s.setValueLevel (.inst user) (s.getLevel v)).taintValue (.inst user)

/-- A store of `v` to a local variable. -/
def forwardLocalStore (store : InstId) (ptr : Value) (s : PassState) : PassState :=
  if ptr ∈ s.taintedPointers then s else { s.taintPointer ptr store with changed := true }

/-- One user of `v`.  A return of `v` and a store of `v` to a global variable or through a pointer
parameter are recorded and not propagated. -/
def forwardUser (v : Value) (s : PassState) (user : InstId) : PassState :=
  let s := s.forwardCall M cfg addr v user
  match M.kind user with
  | .ret (some value) =>
    -- taint stops at the return; the call sites are left to the upward phase
    if value = v then s.addFunctionReturningTaint user.func else s.propagate v user
  | .store value ptr =>
    if value = v then
      -- a store to a global is reported and not followed
      if (M.stripPointerCasts ptr).isGlobalVariable then s
      else
        match M.getPointerParameterOrigin ptr with
        -- a store through a pointer parameter: the callers are left to the upward phase
        | some a => s.addTaintingPointerParam user.func a.no
        | none => (s.forwardLocalStore user (M.stripPointerCasts ptr)).propagate v user
    else s.propagate v user
  | _ => s.propagate v user

/-- `Worklist.pop_back_val()` and the visit of all users. -/
def forwardPop (s : PassState) : PassState :=
  match s.worklist with
  | [] => s
  | v :: rest =>
    (M.getSortedUsers addr v).foldl (forwardUser M cfg addr v) { s with worklist := rest }

/-- `while (!Worklist.empty())` -/
def forwardDrain (fuel : Nat) (s : PassState) : Option PassState :=
  whileLoop (fun s => !s.worklist.isEmpty) (fun s => some (s.forwardPop M cfg addr)) fuel s

/-- The tainted pointers not scanned yet, in address order. -/
def pointersToScan (scanned : DenseSet Value) (s : PassState) : List Value :=
  (sortOn addr s.taintedPointers.elems).filter fun p => p ∉ scanned

/-- The kill stores, the load scan and the marking that end a turn of the outer loop. -/
def forwardScan (s : PassState) : PassState :=
  let s := s.identifyKillStores M
  let ptrs := s.pointersToScan addr s.scannedPointers
  let r := s.scanLoadsFromTaintedPointers M true ptrs
  { r.1 with
    changed := r.1.changed || r.2
    scannedPointers := ptrs.foldl (fun scanned p => scanned.insert p) r.1.scannedPointers }

def forwardRound (fuel : Nat) (s : PassState) : Option PassState :=
  (forwardDrain M cfg addr fuel { s with changed := false }).map (forwardScan M addr)

/-- `while (changed)` -/
def forwardLoop (fuel : Nat) (s : PassState) : Option PassState :=
  whileLoop (·.changed) (forwardRound M cfg addr fuel) fuel { s with changed := true }

theorem extends_enterCallee (v : Value) (argIdx : Nat) (s : PassState) (callee : Nat) :
    s.Extends (s.enterCallee M v argIdx callee) := by
  unfold enterCallee
  split
  · exact extends_taintParameter _ _ s
  · exact .refl s

theorem extends_forwardCall (v : Value) (call : InstId) (s : PassState) :
    s.Extends (s.forwardCall M cfg addr v call) := by
  unfold forwardCall
  split
  · split
    · exact .refl s
    · split
      · split
        · exact .refl s
        · rename_i callee _ _
          have hlevel (t : PassState) : t.Extends (if .inst call ∈ t.valueLevel then t
              else t.setValueLevel (.inst call) (t.getLevel v)) := by
            split
            · exact .refl t
            · exact extends_setValueLevel _ _ t
          dsimp only
          split
          · exact (hlevel s).trans (extends_enterCallee M v _ _ callee)
          · exact hlevel s
      · split
        · exact extends_foldl (fun t f _ => extends_enterCallee M v _ t f) s
        · exact .refl s
  · exact .refl s

theorem extends_propagate (v : Value) (user : InstId) (s : PassState) :
    s.Extends (s.propagate v user) := by
  unfold propagate
  split
  · exact .refl s
  · exact (extends_setValueLevel _ _ s).trans (extends_taintValue _ _)

theorem extends_forwardLocalStore (store : InstId) (ptr : Value) (s : PassState) :
    s.Extends (s.forwardLocalStore store ptr) := by
  unfold forwardLocalStore
  split
  · exact .refl s
  · exact (extends_taintPointer ptr store s).trans (extends_changed _ true)

theorem extends_forwardUser (v : Value) (s : PassState) (user : InstId) :
    s.Extends (s.forwardUser M cfg addr v user) := by
  have hcall := extends_forwardCall M cfg addr v user s
  unfold forwardUser
  dsimp only
  split
  · split
    · exact hcall.trans (extends_addFunctionReturningTaint _ _)
    · exact hcall.trans (extends_propagate _ _ _)
  · split
    · split
      · exact hcall
      · split
        · exact hcall.trans (extends_addTaintingPointerParam _ _ _)
        · exact hcall.trans ((extends_forwardLocalStore _ _ _).trans (extends_propagate _ _ _))
    · exact hcall.trans (extends_propagate _ _ _)
  · exact hcall.trans (extends_propagate _ _ _)

theorem extends_forwardScan (s : PassState) : s.Extends (s.forwardScan M addr) := by
  have hscan := (extends_identifyKillStores M s).trans
    (extends_scanLoadsFromTaintedPointers M true
      ((s.identifyKillStores M).pointersToScan addr (s.identifyKillStores M).scannedPointers) _)
  exact { hscan with }

/-- A scan that taints no load leaves `changed` and the worklist alone. -/
theorem forwardScan_worklist (s : PassState) :
    (s.forwardScan M addr).changed = true ∨ (s.forwardScan M addr).worklist = s.worklist := by
  have hkills : (s.identifyKillStores M).worklist = s.worklist := by
    refine foldl_invariant (I := fun t : PassState => t.worklist = s.worklist)
      (fun t i _ ht => ?_) rfl
    unfold identifyKillStore
    split
    · dsimp only
      split <;> exact ht
    · exact ht
  rcases scanLoadsFromTaintedPointers_worklist M true
      ((s.identifyKillStores M).pointersToScan addr (s.identifyKillStores M).scannedPointers)
      (s.identifyKillStores M) with h | h
  · left
    simp only [forwardScan, h, Bool.or_true]
  · right
    simp only [forwardScan, h, hkills]

end PassState

/-- The state in which the forward fixed-point loop exits. -/
def forwardPhase (M : Module) (cfg : Config) (addr : Value → Nat) (fuel : Nat) : Option PassState :=
  (seedWorklist M cfg).forwardLoop M cfg addr fuel

end LinuxAnalysis
