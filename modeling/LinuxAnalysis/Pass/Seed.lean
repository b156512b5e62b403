import LinuxAnalysis.Pass.State

/-!
# Seeding

The first part of `TaintTrackerPass::run`: the map of function pointer targets, and the scan of the
named function for the constant.  `goto found` leaves all five loops; here the remaining turns see
the `found` flag and do nothing.
-/

open LinuxAnalysis.Lib

namespace LinuxAnalysis

namespace PassState

variable (M : Module) (cfg : Config)

/-! ## Function pointer targets -/

def addFunctionPointerTarget (ptr : Value) (f : Nat) (s : PassState) : PassState :=
  { s with
    functionPointerTargets :=
      s.functionPointerTargets.insert ptr (DenseMap.getD s.functionPointerTargets ptr [] ++ [f]) }

def functionPointerStore (s : PassState) (i : InstId) : PassState :=
  match M.kind i with
  | .store (.function f) ptr =>
    let ptrStripped := M.stripPointerCasts ptr
    let s := s.addFunctionPointerTarget ptrStripped f
    -- the pointer of a struct field is recorded as written as well
    if ptr ≠ ptrStripped then s.addFunctionPointerTarget ptr f else s
  | _ => s

def buildFunctionPointerTargets (s : PassState) : PassState :=
  if cfg.indirectCallMode then M.insts.foldl (functionPointerStore M) s else s

/-! ## One seed -/

/-- Bookkeeping of a store through pointer parameter `a`, with the fields on the way. -/
def recordParameterStore (i : InstId) (a : ArgId) (ptr : Value) (s : PassState) : PassState :=
  (s.addTaintingPointerParam i.func a.no).recordFieldAccess i.func a.no
    (M.extractStructFieldIndices ptr)

def seedReturn (i : InstId) (ci : Value) (s : PassState) : PassState :=
  match M.kind i with
  | .ret (some value) => if value = ci then s.addFunctionReturningTaint i.func else s
  | _ => s

def seedStore (i : InstId) (s : PassState) : PassState :=
  match M.kind i with
  | .store _ ptr =>
    if (M.stripPointerCasts ptr).isGlobalVariable then s
    else
      match M.getPointerParameterOrigin ptr with
      | some a => s.recordParameterStore M i a ptr
      | none => s.taintPointer (M.stripPointerCasts ptr) i
  | _ => s

def seedCallArgument (i : InstId) (callee : Nat) (s : PassState) (argIdx : Nat) : PassState :=
  if cfg.interprocMode && !M.isDeclaration callee && decide (argIdx < M.argSize callee) then
    s.taintParameter ⟨callee, argIdx⟩ (s.getLevel (.inst i))
  else s

/-- Every argument position that holds the constant is propagated. -/
def seedCall (i : InstId) (ci : Value) (s : PassState) : PassState :=
  match M.kind i, M.calledFunction i with
  | .call _ _ args _, some callee =>
    -- unlike the forward phase, which takes the first position only
    ((List.range args.length).filter fun n => args[n]? = some ci).foldl
      (seedCallArgument M cfg i callee) s
  | _, _ => s

/-- Instruction `i` is selected through its constant operand `ci`. -/
def seedInst (i : InstId) (ci : Value) (s : PassState) : PassState :=
  -- an instruction with two matching operands is a seed once
  if .inst i ∈ s.taintedValues then s
  else
    let s := ((s.taintValue (.inst i)).setFunctionLevel i.func 0).setValueLevel (.inst i) 0
    seedCall M cfg i ci (seedStore M i (seedReturn M i ci s))

theorem extends_addFunctionPointerTarget (ptr : Value) (f : Nat) (s : PassState) :
    s.Extends (s.addFunctionPointerTarget ptr f) := { Extends.refl s with }

theorem extends_buildFunctionPointerTargets (s : PassState) :
    s.Extends (s.buildFunctionPointerTargets M cfg) := by
  unfold buildFunctionPointerTargets
  split
  · refine extends_foldl (fun s i _ => ?_) s
    unfold functionPointerStore
    split
    · dsimp only
      split
      · exact (extends_addFunctionPointerTarget _ _ s).trans
          (extends_addFunctionPointerTarget _ _ _)
      · exact extends_addFunctionPointerTarget _ _ s
    · exact .refl s
  · exact .refl s

theorem extends_recordParameterStore (i : InstId) (a : ArgId) (ptr : Value) (s : PassState) :
    s.Extends (s.recordParameterStore M i a ptr) :=
  (extends_addTaintingPointerParam _ _ s).trans (extends_recordFieldAccess _ _ _ _)

theorem extends_seedReturn (i : InstId) (ci : Value) (s : PassState) :
    s.Extends (s.seedReturn M i ci) := by
  unfold seedReturn
  split
  · split
    · exact extends_addFunctionReturningTaint _ s
    · exact .refl s
  · exact .refl s

theorem extends_seedStore (i : InstId) (s : PassState) : s.Extends (s.seedStore M i) := by
  unfold seedStore
  split
  · split
    · exact .refl s
    · split
      · exact extends_recordParameterStore M _ _ _ s
      · exact extends_taintPointer _ _ s
  · exact .refl s

theorem extends_seedCall (i : InstId) (ci : Value) (s : PassState) :
    s.Extends (s.seedCall M cfg i ci) := by
  unfold seedCall
  split
  · refine extends_foldl (fun s n _ => ?_) s
    unfold seedCallArgument
    split
    · exact extends_taintParameter _ _ s
    · exact .refl s
  · exact .refl s

theorem extends_seedInst (i : InstId) (ci : Value) (s : PassState) :
    s.Extends (s.seedInst M cfg i ci) := by
  unfold seedInst
  split
  · exact .refl s
  · have hset := ((extends_taintValue (.inst i) s).trans
      (extends_setFunctionLevel i.func 0 _)).trans (extends_setValueLevel (.inst i) 0 _)
    exact hset.trans ((extends_seedReturn M i ci _).trans
      ((extends_seedStore M i _).trans (extends_seedCall M cfg i ci _)))

end PassState

/-! ## Occurrence selection -/

structure SeedState where
  pass : PassState
  currentOccurrence : Nat
  found : Bool

section Occurrences

variable (M : Module) (cfg : Config)

def seedOperand (i : InstId) (s : SeedState) (op : Value) : SeedState :=
  -- the chosen occurrence was found: nothing more is selected
  if s.found then s
  else
    match op with
    | .constantInt _ c =>
      if c = cfg.constantToTrack then
        let current := s.currentOccurrence + 1
        -- occurrence 0 selects all of them
        if cfg.occurrenceIndex ≠ 0 ∧ current ≠ cfg.occurrenceIndex then
          { s with currentOccurrence := current }
        else ⟨s.pass.seedInst M cfg i op, current, decide (cfg.occurrenceIndex ≠ 0)⟩
      else s
    | _ => s

/-- The opcode filter; an empty `TargetOpcode` lets every instruction through. -/
def opcodeSelected (i : InstId) : Bool :=
  cfg.targetOpcode.isEmpty || (M.kind i).getOpcodeName == cfg.targetOpcode

def seedCandidates : List InstId :=
  M.insts.filter fun i => M.functionName i.func == cfg.functionName && opcodeSelected M cfg i

def seedInstruction (s : SeedState) (i : InstId) : SeedState :=
  (M.operands i).foldl (seedOperand M cfg i) s

/-- The state at the label `found`. -/
def seedWorklist : PassState :=
  ((seedCandidates M cfg).foldl (seedInstruction M cfg)
    ⟨PassState.buildFunctionPointerTargets M cfg {}, 0, false⟩).pass

theorem extends_seedOperand (i : InstId) (s : SeedState) (op : Value) :
    s.pass.Extends (seedOperand M cfg i s op).pass := by
  unfold seedOperand
  split
  · exact .refl _
  · split
    · split
      · dsimp only
        split
        · exact .refl _
        · exact PassState.extends_seedInst M cfg i _ _
      · exact .refl _
    · exact .refl _

theorem extends_seedInstruction (s : SeedState) (i : InstId) :
    s.pass.Extends (seedInstruction M cfg s i).pass :=
  foldl_rel (R := fun s t : SeedState => s.pass.Extends t.pass) (fun _ => .refl _)
    (fun _ _ _ => .trans) (fun s op _ => extends_seedOperand M cfg i s op) s

theorem extends_seedWorklist : PassState.Extends {} (seedWorklist M cfg) := by
  have hfold := foldl_rel (R := fun s t : SeedState => s.pass.Extends t.pass) (fun _ => .refl _)
    (fun _ _ _ => .trans) (fun s i (_ : i ∈ seedCandidates M cfg) => extends_seedInstruction M cfg s i)
    ⟨PassState.buildFunctionPointerTargets M cfg {}, 0, false⟩
  exact (PassState.extends_buildFunctionPointerTargets M cfg {}).trans hfold

end Occurrences

end LinuxAnalysis
