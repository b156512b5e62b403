import LinuxAnalysis.Pass.Forward

/-!
# Upward tracking

From functions that return taint, or store it through a pointer parameter, to their callers, until a
turn of the outer loop discovers no new function.
-/

open LinuxAnalysis.Lib

namespace LinuxAnalysis

namespace PassState

variable (M : Module) (addr : Value → Nat)

/-! ## 5a. Call sites of functions returning taint -/

def taintReturningCall (taintedFunc : Nat) (s : PassState) (i : InstId) : PassState :=
  if M.calledFunction i = some taintedFunc then
    -- a call that is tainted already keeps the level it has
    if .inst i ∈ s.taintedValues then s
    else
      let newLevel := s.calleeLevel taintedFunc + 1
      ((s.setValueLevel (.inst i) newLevel).initFunctionLevel i.func newLevel).taintValue (.inst i)
  else s

def upwardReturns (s : PassState) : PassState :=
  (sortOn (fun f => addr (.function f)) s.functionsReturningTaint.elems).foldl
    (fun s f => M.insts.foldl (taintReturningCall M f) s) s

/-! ## 5b. Call sites of functions tainting pointer parameters -/

/-- `FunctionsTaintingPointerParams[F].insert(i).second` sets `discoveredNewFunctions`. -/
def discoverTaintingPointerParam (f i : Nat) (s : PassState) : PassState :=
  { s.addTaintingPointerParam f i with
    discoveredNewFunctions := s.discoveredNewFunctions || !decide (s.TaintsParam f i) }

/-- CASE 1: the argument passes a pointer parameter of the caller through. -/
def passThroughParam (call : InstId) (taintedFunc : Nat) (a : ArgId) (s : PassState) : PassState :=
  if s.TaintsParam call.func a.no then s
  else
    (s.discoverTaintingPointerParam call.func a.no).initFunctionLevel call.func
      (s.calleeLevel taintedFunc + 1)

/-- The variable an argument points to: an alloca, or the stripped base of a GEP. -/
def pointedVar (actual : Value) : Option Value :=
  if M.isAlloca actual then some actual else gepBase M actual

/-- Allocas stored into field `gep` of the struct. -/
def taintFieldTargets (call gep : InstId) (s : PassState) : PassState :=
  (M.users (.inst gep)).foldl (fun s u =>
    match M.kind u with
    | .store value ptr =>
      let storedVal := M.stripPointerCasts value
      if ptr = .inst gep ∧ M.isPointerTy storedVal ∧ M.isAlloca storedVal then
        s.taintPointer storedVal call
      else s
    | _ => s) s

/-- The fields recorded for the callee; none recorded means every field. -/
def accessedFields (taintedFunc paramIdx : Nat) (s : PassState) : List Int :=
  DenseMap.getD (DenseMap.getD s.functionParamFieldAccess taintedFunc ∅) paramIdx []

def taintStructFields (call : InstId) (taintedFunc paramIdx : Nat) (var : Value) (s : PassState) :
    PassState :=
  let fields := s.accessedFields taintedFunc paramIdx
  (M.users var).foldl (fun s u =>
    match M.kind u with
    | .getElementPtr _ _ indices =>
      if fields.isEmpty || decide ((structFieldIndex indices) ∈ fields) then
        s.taintFieldTargets M call u
      else s
    | _ => s) s
where
  /-- The field index of a GEP, `-1` when it has none. -/
  structFieldIndex (indices : List Value) : Int := (Module.structFieldIndex? indices).getD (-1)

def isStructAlloca (v : Value) : Bool :=
  match v with
  | .inst i =>
    match M.kind i with
    | .alloca isStruct _ => isStruct
    | _ => false
  | _ => false

/-- CASE 2: the argument is the address of a local variable. -/
def taintPointedVar (call : InstId) (taintedFunc paramIdx : Nat) (var : Value) (s : PassState) :
    PassState :=
  if var ∈ s.taintedPointers then s
  else
    let s := (s.initFunctionLevel call.func (s.calleeLevel taintedFunc + 1)).taintPointer var call
    if isStructAlloca M var then s.taintStructFields M call taintedFunc paramIdx var else s

def upwardArgument (call : InstId) (taintedFunc : Nat) (args : List Value) (s : PassState)
    (paramIdx : Nat) : PassState :=
  match args[paramIdx]? with
  -- a recorded index can be past the arguments of a call with fewer of them
  | none => s
  | some actual =>
    match M.getPointerParameterOrigin actual with
    | some a => s.passThroughParam call taintedFunc a
    | none =>
      match pointedVar M actual with
      | some var => s.taintPointedVar M call taintedFunc paramIdx var
      | none => s

def upwardCallSite (taintedFunc : Nat) (taintedParams : DenseSet Nat) (s : PassState)
    (i : InstId) : PassState :=
  match M.kind i with
  | .call _ _ args _ =>
    if M.calledFunction i = some taintedFunc then
      (sortOn id taintedParams.elems).foldl (upwardArgument M i taintedFunc args) s
    else s
  | _ => s

def upwardParams (s : PassState) : PassState :=
  (sortOn (fun e => addr (.function e.1)) s.functionsTaintingPointerParams.entries).foldl
    (fun s e => M.insts.foldl (upwardCallSite M e.1 e.2) s) s

/-! ## The upward worklist -/

def processStoreForTaint (store : InstId) (v : Value) (s : PassState) : PassState :=
  match M.kind store with
  | .store value ptr =>
    if value ≠ v then s
    else
      -- the pointer is tainted even when it comes from a parameter, unlike in the forward phase
      let s := s.taintPointer (M.stripPointerCasts ptr) store
      match M.getPointerParameterOrigin ptr with
      | some a =>
        (s.discoverTaintingPointerParam store.func a.no).recordFieldAccess store.func a.no
          (M.extractStructFieldIndices ptr)
      | none => s
  | _ => s

/-- `FunctionsReturningTaint.insert(F).second` sets `discoveredNewFunctions`. -/
def discoverReturningFunction (f : Nat) (s : PassState) : PassState :=
  { s.addFunctionReturningTaint f with
    discoveredNewFunctions :=
      s.discoveredNewFunctions || !decide (f ∈ s.functionsReturningTaint) }

def upwardReturn (v : Value) (user : InstId) (s : PassState) : PassState :=
  match M.kind user with
  | .ret (some value) => if value = v then s.discoverReturningFunction user.func else s
  | _ => s

def upwardUser (v : Value) (s : PassState) (user : InstId) : PassState :=
  -- a user that is tainted already is not processed again
  if .inst user ∈ s.taintedValues then s
  else
    let s := (s.setValueLevel (.inst user) (s.getLevel v)).taintValue (.inst user)
    (s.processStoreForTaint M user v).upwardReturn M v user

def upwardPop (s : PassState) : PassState :=
  match s.worklist with
  | [] => s
  | v :: rest => (M.getSortedUsers addr v).foldl (upwardUser M v) { s with worklist := rest }

def upwardDrain (fuel : Nat) (s : PassState) : Option PassState :=
  whileLoop (fun s => !s.worklist.isEmpty) (fun s => some (s.upwardPop M addr)) fuel s

/-- The load scan without kill tracking, and the marking. -/
def upwardScan (ptrs : List Value) (s : PassState) : PassState :=
  let r := s.scanLoadsFromTaintedPointers M false ptrs
  { r.1 with
    upwardScannedPointers :=
      ptrs.foldl (fun scanned p => scanned.insert p) r.1.upwardScannedPointers }

/-- `while (true)`: drain the worklist, then leave when no pointer is left to scan. -/
def upwardSaturate (fuel : Nat) (s : PassState) : Option PassState :=
  loop (fun s => (upwardDrain M addr fuel s).map fun s =>
    let ptrs := s.pointersToScan addr s.upwardScannedPointers
    if ptrs.isEmpty then .done s else .yield (s.upwardScan M ptrs)) fuel s

/-! ## The outer loop -/

def upwardRound (fuel : Nat) (s : PassState) : Option PassState :=
  let old := { s with discoveredNewFunctions := false }
  (upwardSaturate M addr fuel (upwardParams M addr (upwardReturns M addr old))).map fun s =>
    -- the sizes are compared as well as the flag
    if s.functionsReturningTaint.size > old.functionsReturningTaint.size ∨
        s.functionsTaintingPointerParams.entries.length >
          old.functionsTaintingPointerParams.entries.length then
      { s with discoveredNewFunctions := true }
    else s

/-- `while (discoveredNewFunctions)` -/
def upwardLoop (fuel : Nat) (s : PassState) : Option PassState :=
  whileLoop (·.discoveredNewFunctions) (upwardRound M addr fuel) fuel
    { s with discoveredNewFunctions := true }

/-- The upward phase is entered only when some function returns taint or taints a parameter. -/
def upwardPhase (cfg : Config) (fuel : Nat) (s : PassState) : Option PassState :=
  if cfg.upwardInterprocMode && (!s.functionsReturningTaint.isEmpty ||
      !s.functionsTaintingPointerParams.entries.isEmpty) then
    upwardLoop M addr fuel s
  else some s

end PassState

/-- `TaintTrackerPass::run` up to the statistics: the state in which the taint analysis ends. -/
def run (M : Module) (cfg : Config) (addr : Value → Nat) (fuel : Nat) : Option PassState :=
  (forwardPhase M cfg addr fuel).bind (PassState.upwardPhase M addr cfg fuel)

end LinuxAnalysis
