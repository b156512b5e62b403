import LinuxAnalysis.IR.Origin
import LinuxAnalysis.Lib.Loop

/-!
# The state of a run

`PassState` holds the local variables of `TaintTrackerPass::run`.  The updates that several phases
share are named here; every phase is a composition of them, and `Extends` says what all of them have
in common: sets and records only grow, and a value enters `TaintedValues` together with an entry on
the worklist.
-/

open LinuxAnalysis.Lib

namespace LinuxAnalysis

/-- Pass parameters. -/
structure Config where
  functionName : Text
  targetOpcode : Text
  constantToTrack : Int
  interprocMode : Bool
  indirectCallMode : Bool
  upwardInterprocMode : Bool
  /-- `1` is the first occurrence, `0` means all of them. -/
  occurrenceIndex : Nat
  approxDebugInfo : Bool

structure PassState where
  /-- The back of the vector is the head of the list. -/
  worklist : List Value := []
  taintedValues : DenseSet Value := ∅
  taintedPointers : DenseSet Value := ∅
  killedStores : DenseSet InstId := ∅
  functionsReturningTaint : DenseSet Nat := ∅
  pointerTaintOrigin : DenseMap Value InstId := ∅
  valueLevel : DenseMap Value Int := ∅
  functionLevel : DenseMap Nat Int := ∅
  functionsTaintingPointerParams : DenseMap Nat (DenseSet Nat) := ∅
  functionParamFieldAccess : DenseMap Nat (DenseMap Nat (List Int)) := ∅
  functionPointerTargets : DenseMap Value (List Nat) := ∅
  scannedPointers : DenseSet Value := ∅
  upwardScannedPointers : DenseSet Value := ∅
  changed : Bool := false
  discoveredNewFunctions : Bool := false

namespace PassState

/-- `i` is in `FunctionsTaintingPointerParams[f]`. -/
def TaintsParam (s : PassState) (f i : Nat) : Prop :=
  i ∈ DenseMap.getD s.functionsTaintingPointerParams f ∅

instance (s : PassState) (f i : Nat) : Decidable (s.TaintsParam f i) :=
  inferInstanceAs (Decidable (i ∈ DenseMap.getD s.functionsTaintingPointerParams f ∅))

/-! ## Updates -/

/-- `TaintedValues.insert(V); Worklist.push_back(V)`. -/
def taintValue (v : Value) (s : PassState) : PassState :=
  { s with taintedValues := s.taintedValues.insert v, worklist := v :: s.worklist }

def setValueLevel (v : Value) (level : Int) (s : PassState) : PassState :=
  { s with valueLevel := s.valueLevel.insert v level }

def setFunctionLevel (f : Nat) (level : Int) (s : PassState) : PassState :=
  { s with functionLevel := s.functionLevel.insert f level }

/-- `if (!FunctionLevel.count(F)) FunctionLevel[F] = level`. -/
def initFunctionLevel (f : Nat) (level : Int) (s : PassState) : PassState :=
  if f ∈ s.functionLevel then s else s.setFunctionLevel f level

/-- `if (TaintedPointers.insert(Ptr).second) PointerTaintOrigin[Ptr] = origin`. -/
def taintPointer (ptr : Value) (origin : InstId) (s : PassState) : PassState :=
  if ptr ∈ s.taintedPointers then s else
    { s with
      taintedPointers := s.taintedPointers.insert ptr
      pointerTaintOrigin := s.pointerTaintOrigin.insert ptr origin }

def addFunctionReturningTaint (f : Nat) (s : PassState) : PassState :=
  { s with functionsReturningTaint := s.functionsReturningTaint.insert f }

/-- `FunctionsTaintingPointerParams[F].insert(i)`. -/
def addTaintingPointerParam (f i : Nat) (s : PassState) : PassState :=
  { s with
    functionsTaintingPointerParams := s.functionsTaintingPointerParams.insert f
      ((DenseMap.getD s.functionsTaintingPointerParams f ∅).insert i) }

/-- Add the fields to `FunctionParamFieldAccess[F][i]`, each once. -/
def recordFieldAccess (f i : Nat) (fieldIndices : List Int) (s : PassState) : PassState :=
  if fieldIndices.isEmpty then s else
    let funcMap := DenseMap.getD s.functionParamFieldAccess f ∅
    let existing := fieldIndices.foldl (fun ex idx => if idx ∈ ex then ex else ex ++ [idx])
      (DenseMap.getD funcMap i [])
    { s with
      functionParamFieldAccess := s.functionParamFieldAccess.insert f (funcMap.insert i existing) }

/-- `getLevel(V)`. -/
def getLevel (s : PassState) (v : Value) : Int :=
  match s.valueLevel.lookup v with
  | some level => level
  | none =>
    match v with
    | .inst i => DenseMap.getD s.functionLevel i.func 0
    | .arg a => DenseMap.getD s.functionLevel a.func 0
    | _ => 0

/-- `FunctionLevel.count(F) ? FunctionLevel[F] : 0`. -/
def calleeLevel (s : PassState) (f : Nat) : Int := DenseMap.getD s.functionLevel f 0

/-- `ensureLevelSet(I)`. -/
def ensureLevelSet (i : InstId) (s : PassState) : PassState :=
  if .inst i ∈ s.valueLevel then s else
    match s.functionLevel.lookup i.func with
    | some level => s.setValueLevel (.inst i) level
    | none => s

/-- Downward step into parameter `param` of a callee from a value at level `currentLevel`. -/
def taintParameter (param : ArgId) (currentLevel : Int) (s : PassState) : PassState :=
  if .arg param ∈ s.taintedValues then s else
    { ((s.setValueLevel (.arg param) (currentLevel - 1)).setFunctionLevel param.func
        (currentLevel - 1)).taintValue (.arg param) with changed := true }

/-! ## Growth -/

/-- What every update that does not pop the worklist does to the state. -/
structure Extends (s t : PassState) : Prop where
  taintedValues : s.taintedValues ⊆ t.taintedValues
  taintedPointers : s.taintedPointers ⊆ t.taintedPointers
  killedStores : s.killedStores ⊆ t.killedStores
  functionsReturningTaint : s.functionsReturningTaint ⊆ t.functionsReturningTaint
  taintsParam : ∀ f i, s.TaintsParam f i → t.TaintsParam f i
  origin : ∀ p ∈ s.taintedPointers, t.pointerTaintOrigin.lookup p = s.pointerTaintOrigin.lookup p
  worklist : ∀ v ∈ s.worklist, v ∈ t.worklist
  queued : ∀ v ∈ t.taintedValues, v ∈ s.taintedValues ∨ v ∈ t.worklist
  pushed : ∀ v ∈ t.worklist, v ∈ s.worklist ∨ v ∈ t.taintedValues

theorem Extends.refl (s : PassState) : s.Extends s where
  taintedValues := DenseSet.Subset.refl _
  taintedPointers := DenseSet.Subset.refl _
  killedStores := DenseSet.Subset.refl _
  functionsReturningTaint := DenseSet.Subset.refl _
  taintsParam _ _ h := h
  origin _ _ := rfl
  worklist _ h := h
  queued _ h := .inl h
  pushed _ h := .inl h

theorem Extends.trans {s t u : PassState} (h₁ : s.Extends t) (h₂ : t.Extends u) : s.Extends u where
  taintedValues := DenseSet.Subset.trans h₁.taintedValues h₂.taintedValues
  taintedPointers := DenseSet.Subset.trans h₁.taintedPointers h₂.taintedPointers
  killedStores := DenseSet.Subset.trans h₁.killedStores h₂.killedStores
  functionsReturningTaint := DenseSet.Subset.trans h₁.functionsReturningTaint h₂.functionsReturningTaint
  taintsParam f i h := h₂.taintsParam f i (h₁.taintsParam f i h)
  origin p hp := (h₂.origin p (h₁.taintedPointers p hp)).trans (h₁.origin p hp)
  worklist v h := h₂.worklist v (h₁.worklist v h)
  queued v h := by
    rcases h₂.queued v h with h | h
    · exact (h₁.queued v h).imp_right (h₂.worklist v)
    · exact .inr h
  pushed v h := by
    rcases h₂.pushed v h with h | h
    · exact (h₁.pushed v h).imp_right (h₂.taintedValues v)
    · exact .inr h

theorem taintsParam_addTaintingPointerParam {s : PassState} {f i g j : Nat} :
    (s.addTaintingPointerParam f i).TaintsParam g j ↔ (g = f ∧ j = i) ∨ s.TaintsParam g j := by
  rw [TaintsParam, addTaintingPointerParam, DenseMap.getD_insert]
  by_cases hg : g = f
  · subst hg
    rw [if_pos rfl, DenseSet.mem_insert]
    simp [TaintsParam]
  · simp [hg, TaintsParam]

theorem extends_taintValue (v : Value) (s : PassState) : s.Extends (s.taintValue v) :=
  { Extends.refl s with
    taintedValues := DenseSet.subset_insert _ _
    worklist := fun _ h => List.mem_cons_of_mem v h
    queued := fun _ hw => (DenseSet.mem_insert.mp hw).symm.imp_right
      fun h => List.mem_cons.mpr (.inl h)
    pushed := fun _ hw => (List.mem_cons.mp hw).symm.imp_right
      fun h => DenseSet.mem_insert.mpr (.inl h) }

theorem extends_setValueLevel (v : Value) (level : Int) (s : PassState) :
    s.Extends (s.setValueLevel v level) := { Extends.refl s with }

theorem extends_setFunctionLevel (f : Nat) (level : Int) (s : PassState) :
    s.Extends (s.setFunctionLevel f level) := { Extends.refl s with }

theorem extends_initFunctionLevel (f : Nat) (level : Int) (s : PassState) :
    s.Extends (s.initFunctionLevel f level) := by
  unfold initFunctionLevel
  split
  · exact .refl s
  · exact extends_setFunctionLevel f level s

theorem extends_taintPointer (ptr : Value) (origin : InstId) (s : PassState) :
    s.Extends (s.taintPointer ptr origin) := by
  unfold taintPointer
  split
  · exact .refl s
  · rename_i hptr
    refine { Extends.refl s with taintedPointers := DenseSet.subset_insert _ _, origin := ?_ }
    intro p hp
    exact AList.lookup_insert_ne fun h => hptr (h ▸ hp)

theorem mem_taintPointer {ptr p : Value} {origin : InstId} {s : PassState} :
    p ∈ (s.taintPointer ptr origin).taintedPointers ↔ p = ptr ∨ p ∈ s.taintedPointers := by
  unfold taintPointer
  split
  next h => exact ⟨.inr, fun hp => hp.elim (fun he => he ▸ h) id⟩
  next => exact DenseSet.mem_insert

theorem extends_addFunctionReturningTaint (f : Nat) (s : PassState) :
    s.Extends (s.addFunctionReturningTaint f) :=
  { Extends.refl s with functionsReturningTaint := DenseSet.subset_insert _ _ }

theorem extends_addTaintingPointerParam (f i : Nat) (s : PassState) :
    s.Extends (s.addTaintingPointerParam f i) :=
  { Extends.refl s with
    taintsParam := fun _ _ h => taintsParam_addTaintingPointerParam.mpr (.inr h) }

theorem extends_recordFieldAccess (f i : Nat) (fields : List Int) (s : PassState) :
    s.Extends (s.recordFieldAccess f i fields) := by
  unfold recordFieldAccess
  split
  · exact .refl s
  · exact { Extends.refl s with }

theorem extends_ensureLevelSet (i : InstId) (s : PassState) : s.Extends (s.ensureLevelSet i) := by
  unfold ensureLevelSet
  split
  · exact .refl s
  · split
    · exact extends_setValueLevel _ _ s
    · exact .refl s

theorem extends_changed (s : PassState) (b : Bool) : s.Extends { s with changed := b } :=
  { Extends.refl s with }

theorem extends_discovered (s : PassState) (b : Bool) :
    s.Extends { s with discoveredNewFunctions := b } :=
  { Extends.refl s with }

theorem extends_taintParameter (param : ArgId) (level : Int) (s : PassState) :
    s.Extends (s.taintParameter param level) := by
  unfold taintParameter
  split
  · exact .refl s
  · exact ((extends_setValueLevel _ _ s).trans (extends_setFunctionLevel _ _ _)).trans
      ((extends_taintValue _ _).trans (extends_changed _ true))

theorem extends_foldl {α : Type} {f : PassState → α → PassState} {xs : List α}
    (hstep : ∀ s : PassState, ∀ x ∈ xs, s.Extends (f s x)) (s : PassState) :
    s.Extends (xs.foldl f s) :=
  foldl_rel Extends.refl (fun _ _ _ => Extends.trans) hstep s

end PassState

end LinuxAnalysis
