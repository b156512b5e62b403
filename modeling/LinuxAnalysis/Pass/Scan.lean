import LinuxAnalysis.Pass.State

/-!
# Kill stores and loads

The order test inside a basic block, the identification of stores that overwrite a tainted pointer,
and `scanLoadsFromTaintedPointers`.
-/

open LinuxAnalysis.Lib

namespace LinuxAnalysis

namespace InstId

/-- `A->getParent() == B->getParent()`. -/
def sameParent (i j : InstId) : Bool := i.func == j.func && i.block == j.block

end InstId

/-- The loops that walk a basic block and report whether `second` is reached once `first` has been
seen; `found` is their local flag. -/
def seenBefore (first second : InstId) : Bool → List InstId → Bool
  | _, [] => false
  | found, i :: is =>
    let found := found || i == first
    (found && i == second) || seenBefore first second found is

namespace PassState

variable (M : Module)

def isLoadBeforeTaintOrigin (load : InstId) (ptr : Value) (s : PassState) : Bool :=
  match s.pointerTaintOrigin.lookup ptr with
  | none => false
  | some taintOrigin =>
    load.sameParent taintOrigin && seenBefore load taintOrigin false (M.parentInsts load)

/-! ## Kill stores -/

/-- A store before the taint origin in the origin's block is not a kill. -/
def isValidKill (store : InstId) (ptr : Value) (s : PassState) : Bool :=
  match s.pointerTaintOrigin.lookup ptr with
  | none => true
  | some taintOrigin =>
    !store.sameParent taintOrigin || seenBefore taintOrigin store false (M.parentInsts store)

def identifyKillStore (s : PassState) (i : InstId) : PassState :=
  match M.kind i with
  | .store storedVal ptr =>
    let ptr := M.stripPointerCasts ptr
    -- a clean value overwrites a tainted pointer
    if ptr ∈ s.taintedPointers ∧ storedVal ∉ s.taintedValues ∧ .inst i ∉ s.taintedValues ∧
        s.isValidKill M i ptr then
      { s with killedStores := s.killedStores.insert i }
    else s
  | _ => s

def identifyKillStores (s : PassState) : PassState := M.insts.foldl (identifyKillStore M) s

/-- Some killed store to `checkPtr` comes before the load in the load's block. -/
def afterKill (load : InstId) (checkPtr : Value) (s : PassState) : Bool :=
  s.killedStores.elems.any fun kill =>
    M.storePointer kill == some checkPtr && load.sameParent kill &&
      seenBefore kill load false (M.parentInsts load)

/-! ## Loads -/

/-- The cast-stripped base of a GEP. -/
def gepBase : Value → Option Value
  | .inst i =>
    match M.kind i with
    | .getElementPtr _ ptr _ => some (M.stripPointerCasts ptr)
    | _ => none
  | _ => none

/-- `I` loads from `ptr`, or from a GEP based on it. -/
def loadMatches (ptr : Value) (i : InstId) : Bool :=
  match M.kind i with
  | .load q =>
    let loadPtr := M.stripPointerCasts q
    loadPtr == ptr || gepBase M loadPtr == some ptr
  | _ => false

/-- One load of the innermost loop; the flag is `changed`. -/
def scanLoad (killTracking : Bool) (ptr : Value) (s : PassState × Bool) (i : InstId) :
    PassState × Bool :=
  if !loadMatches M ptr i then s
  else if .inst i ∈ s.1.taintedValues then s
  -- a load that is skipped for a kill or its position still gets a level
  else if killTracking && s.1.afterKill M i ptr then (s.1.ensureLevelSet i, s.2)
  else if s.1.isLoadBeforeTaintOrigin M i ptr then (s.1.ensureLevelSet i, s.2)
  else ((s.1.ensureLevelSet i).taintValue (.inst i), true)

def scanPointer (killTracking : Bool) (s : PassState × Bool) (ptr : Value) : PassState × Bool :=
  M.insts.foldl (scanLoad M killTracking ptr) s

def scanLoadsFromTaintedPointers (killTracking : Bool) (pointersToScan : List Value)
    (s : PassState) : PassState × Bool :=
  pointersToScan.foldl (scanPointer M killTracking) (s, false)

theorem extends_identifyKillStore (s : PassState) (i : InstId) :
    s.Extends (s.identifyKillStore M i) := by
  unfold identifyKillStore
  split
  · dsimp only
    split
    · exact { Extends.refl s with killedStores := DenseSet.subset_insert _ _ }
    · exact .refl s
  · exact .refl s

theorem extends_identifyKillStores (s : PassState) : s.Extends (s.identifyKillStores M) :=
  extends_foldl (fun s i _ => extends_identifyKillStore M s i) s

theorem extends_scanLoad (killTracking : Bool) (ptr : Value) (s : PassState × Bool) (i : InstId) :
    s.1.Extends (scanLoad M killTracking ptr s i).1 := by
  unfold scanLoad
  split
  · exact .refl _
  · split
    · exact .refl _
    · split
      · exact extends_ensureLevelSet i _
      · split
        · exact extends_ensureLevelSet i _
        · exact (extends_ensureLevelSet i _).trans (extends_taintValue _ _)

theorem extends_scanPointer (killTracking : Bool) (s : PassState × Bool) (ptr : Value) :
    s.1.Extends (scanPointer M killTracking s ptr).1 :=
  foldl_rel (R := fun s t : PassState × Bool => s.1.Extends t.1) (fun _ => .refl _)
    (fun _ _ _ => .trans) (fun s i _ => extends_scanLoad M killTracking ptr s i) s

theorem extends_scanLoadsFromTaintedPointers (killTracking : Bool) (ptrs : List Value)
    (s : PassState) : s.Extends (s.scanLoadsFromTaintedPointers M killTracking ptrs).1 :=
  foldl_rel (R := fun s t : PassState × Bool => s.1.Extends t.1) (fun _ => .refl _)
    (fun _ _ _ => .trans) (fun s p _ => extends_scanPointer M killTracking s p) (s, false)

/-- The flag tells whether a load was put on the worklist. -/
theorem scanLoadsFromTaintedPointers_worklist (killTracking : Bool) (ptrs : List Value)
    (s : PassState) :
    (s.scanLoadsFromTaintedPointers M killTracking ptrs).2 = true ∨
      (s.scanLoadsFromTaintedPointers M killTracking ptrs).1.worklist = s.worklist := by
  have hensure (i : InstId) (t : PassState) : (t.ensureLevelSet i).worklist = t.worklist := by
    unfold ensureLevelSet
    split
    · rfl
    · split <;> rfl
  let I := fun t : PassState × Bool => t.2 = true ∨ t.1.worklist = s.worklist
  refine foldl_invariant (I := I) (fun t p _ ht => ?_) (.inr rfl)
  refine foldl_invariant (I := I) (fun t i _ ht => ?_) ht
  unfold scanLoad
  split
  · exact ht
  · split
    · exact ht
    · split
      · exact ht.imp_right (hensure i t.1).trans
      · split
        · exact ht.imp_right (hensure i t.1).trans
        · exact .inl rfl

end PassState

end LinuxAnalysis
