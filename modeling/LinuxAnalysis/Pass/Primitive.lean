import LinuxAnalysis.Pass.Machine
import LinuxAnalysis.Pass.ScanSpec
import LinuxAnalysis.Pass.UpwardClosure

/-!
# The updates of a run

Every place where the pass writes to its sets, records and levels, with the tests that guard it.  A
step of the machine is a sequence of such updates, so an invariant of the run needs one case for each
of them.
-/

open LinuxAnalysis.Lib

namespace LinuxAnalysis

/-- Instruction `i` and its operand `ci` pass the filters of the seeding loops. -/
structure IsSeed (M : Module) (cfg : Config) (i : InstId) (ci : Value) : Prop where
  candidate : i ∈ seedCandidates M cfg
  operand : ci ∈ M.operands i
  constant : ∃ type, ci = .constantInt type cfg.constantToTrack

/-- `i` passes `actual` in position `n` of a direct call to `callee`. -/
def PassesTaintTo (M : Module) (i : InstId) (actual : Value) (n callee : Nat) : Prop :=
  ∃ called same args bundles, M.kind i = .call called same args bundles ∧
    args[n]? = some actual ∧ M.calledFunction i = some callee

/-- `i` passes `actual` in position `n` of an indirect call with `called` as its callee. -/
def PassesTaintThrough (M : Module) (i : InstId) (actual : Value) (n : Nat) (called : Value) :
    Prop :=
  ∃ same args bundles, M.kind i = .call called same args bundles ∧ args[n]? = some actual ∧
    M.calledFunction i = none

/-- Parameter `n` of a function with a body. -/
def HasParameter (M : Module) (callee n : Nat) : Prop :=
  M.isDeclaration callee = false ∧ n < M.argSize callee

namespace PassState

variable (M : Module) (cfg : Config) (addr : Value → Nat)

inductive SeedStep : PassState → PassState → Prop where
  | source {s i ci} : IsSeed M cfg i ci → .inst i ∉ s.taintedValues → SeedStep s
      (((s.taintValue (.inst i)).setFunctionLevel i.func 0).setValueLevel (.inst i) 0)
  | returned {s i ci} : IsSeed M cfg i ci → .inst i ∈ s.taintedValues →
      M.kind i = .ret (some ci) → SeedStep s (s.addFunctionReturningTaint i.func)
  | parameterStore {s i ci value ptr a} : IsSeed M cfg i ci → .inst i ∈ s.taintedValues →
      M.kind i = .store value ptr → M.getPointerParameterOrigin ptr = some a →
      SeedStep s (s.recordParameterStore M i a ptr)
  | pointer {s i ci value ptr} : IsSeed M cfg i ci → .inst i ∈ s.taintedValues →
      M.kind i = .store value ptr → SeedStep s (s.taintPointer (M.stripPointerCasts ptr) i)
  | parameter {s i ci n callee} : IsSeed M cfg i ci → .inst i ∈ s.taintedValues →
      PassesTaintTo M i ci n callee →
      cfg.interprocMode = true → HasParameter M callee n → .arg ⟨callee, n⟩ ∉ s.taintedValues →
      SeedStep s (s.taintParameter ⟨callee, n⟩ (s.getLevel (.inst i)))

/-- The updates of one visit of a user of `v` by the forward loop. -/
inductive ForwardStep : PassState → PassState → Prop where
  | callLevel {s v i called same args bundles} : v ∈ s.taintedValues → i ∈ M.users v →
      M.kind i = .call called same args bundles → .inst i ∉ s.valueLevel →
      ForwardStep s (s.setValueLevel (.inst i) (s.getLevel v))
  | parameter {s v i n callee} : v ∈ s.taintedValues → i ∈ M.users v →
      (PassesTaintTo M i v n callee ∨ cfg.indirectCallMode = true ∧ ∃ called,
        PassesTaintThrough M i v n called ∧ callee ∈ s.indirectTargets M addr called) →
      cfg.interprocMode = true → HasParameter M callee n → .arg ⟨callee, n⟩ ∉ s.taintedValues →
      ForwardStep s (s.taintParameter ⟨callee, n⟩ (s.getLevel v))
  | returned {s v i} : v ∈ s.taintedValues → i ∈ M.users v → M.kind i = .ret (some v) →
      ForwardStep s (s.addFunctionReturningTaint i.func)
  | parameterStore {s v i ptr a} : v ∈ s.taintedValues → i ∈ M.users v → M.kind i = .store v ptr →
      M.getPointerParameterOrigin ptr = some a →
      ForwardStep s (s.addTaintingPointerParam i.func a.no)
  | pointer {s v i ptr} : v ∈ s.taintedValues → i ∈ M.users v → M.kind i = .store v ptr →
      M.stripPointerCasts ptr ∉ s.taintedPointers →
      ForwardStep s { s.taintPointer (M.stripPointerCasts ptr) i with changed := true }
  | use {s v i} : v ∈ s.taintedValues → i ∈ M.users v → .inst i ∉ s.taintedValues →
      ForwardStep s ((s.setValueLevel (.inst i) (s.getLevel v)).taintValue (.inst i))

/-- The updates of the kill pass and of a load scan. -/
inductive ScanStep : PassState → PassState → Prop where
  | kill {s i} : i ∈ M.insts → Kills M s i →
      ScanStep s { s with killedStores := s.killedStores.insert i }
  | level {s i p} : i ∈ M.insts → p ∈ s.taintedPointers → loadMatches M p i = true →
      .inst i ∉ s.taintedValues → ScanStep s (s.ensureLevelSet i)
  | load {s i p} : i ∈ M.insts → p ∈ s.taintedPointers → loadMatches M p i = true →
      .inst i ∉ s.taintedValues → ScanStep s ((s.ensureLevelSet i).taintValue (.inst i))

/-- Upward tracking takes the field that a GEP with these indices leads to for one that the callee
accesses: it is on record for the parameter, or none is. -/
def SelectsField (s : PassState) (f n : Nat) (indices : List Value) : Prop :=
  s.accessedFields f n = [] ∨ taintStructFields.structFieldIndex indices ∈ s.accessedFields f n

/-- The updates of one visit by the upward loop; the fields on record are those of its start. -/
inductive UpwardStep (start : PassState) : PassState → PassState → Prop where
  | call {s f i} : f ∈ s.functionsReturningTaint → i ∈ M.insts → M.calledFunction i = some f →
      .inst i ∉ s.taintedValues → UpwardStep start s
        (((s.setValueLevel (.inst i) (s.calleeLevel f + 1)).initFunctionLevel i.func
          (s.calleeLevel f + 1)).taintValue (.inst i))
  | passThrough {s f n i actual a} : s.TaintsParam f n → i ∈ M.insts → PassesTaintTo M i actual n f →
      M.getPointerParameterOrigin actual = some a → ¬ s.TaintsParam i.func a.no → UpwardStep start s
        ((s.discoverTaintingPointerParam i.func a.no).initFunctionLevel i.func (s.calleeLevel f + 1))
  | pointed {s f n i actual var} : s.TaintsParam f n → i ∈ M.insts → PassesTaintTo M i actual n f →
      pointedVar M actual = some var → var ∉ s.taintedPointers → UpwardStep start s
        ((s.initFunctionLevel i.func (s.calleeLevel f + 1)).taintPointer var i)
  | field {s f n i actual var gep type base indices store value} : s.TaintsParam f n → i ∈ M.insts →
      PassesTaintTo M i actual n f → pointedVar M actual = some var → isStructAlloca M var = true →
      gep ∈ M.users var → M.kind gep = .getElementPtr type base indices →
      start.SelectsField f n indices → store ∈ M.users (.inst gep) →
      M.kind store = .store value (.inst gep) → M.isAlloca (M.stripPointerCasts value) = true →
      UpwardStep start s (s.taintPointer (M.stripPointerCasts value) i)
  | use {s v i} : v ∈ s.taintedValues → i ∈ M.users v → .inst i ∉ s.taintedValues →
      UpwardStep start s ((s.setValueLevel (.inst i) (s.getLevel v)).taintValue (.inst i))
  | store {s v i ptr} : v ∈ s.taintedValues → i ∈ M.users v → M.kind i = .store v ptr →
      UpwardStep start s (s.taintPointer (M.stripPointerCasts ptr) i)
  | parameterStore {s v i ptr a} : v ∈ s.taintedValues → i ∈ M.users v → M.kind i = .store v ptr →
      M.getPointerParameterOrigin ptr = some a →
      UpwardStep start s (s.discoverTaintingPointerParam i.func a.no)
  | fields {s f n indices} : UpwardStep start s (s.recordFieldAccess f n indices)
  | returned {s v i} : v ∈ s.taintedValues → i ∈ M.users v → M.kind i = .ret (some v) →
      UpwardStep start s (s.discoverReturningFunction i.func)

/-- The worklist, the flags and the sets of scanned pointers are all that differ. -/
structure Bookkeeping (s t : PassState) : Prop where
  taintedValues : t.taintedValues = s.taintedValues
  taintedPointers : t.taintedPointers = s.taintedPointers
  killedStores : t.killedStores = s.killedStores
  functionsReturningTaint : t.functionsReturningTaint = s.functionsReturningTaint
  pointerTaintOrigin : t.pointerTaintOrigin = s.pointerTaintOrigin
  valueLevel : t.valueLevel = s.valueLevel
  functionLevel : t.functionLevel = s.functionLevel
  functionsTaintingPointerParams :
    t.functionsTaintingPointerParams = s.functionsTaintingPointerParams
  functionPointerTargets : t.functionPointerTargets = s.functionPointerTargets

variable {M cfg addr}

/-! ## Seeding -/

theorem seedReturn_steps {i : InstId} {ci : Value} {s : PassState} (hseed : IsSeed M cfg i ci)
    (hi : .inst i ∈ s.taintedValues) :
    Relation.ReflTransGen (SeedStep M cfg) s (s.seedReturn M i ci) := by
  unfold seedReturn
  split
  next value hkind =>
    split
    next hvalue =>
      subst hvalue
      exact .single (.returned hseed hi hkind)
    next => exact .refl
  next => exact .refl

theorem seedStore_steps {i : InstId} {ci : Value} {s : PassState} (hseed : IsSeed M cfg i ci)
    (hi : .inst i ∈ s.taintedValues) :
    Relation.ReflTransGen (SeedStep M cfg) s (s.seedStore M i) := by
  unfold seedStore
  split
  next value ptr hkind =>
    split
    next => exact .refl
    next =>
      split
      next a horigin => exact .single (.parameterStore hseed hi hkind horigin)
      next => exact .single (.pointer hseed hi hkind)
  next => exact .refl

theorem seedCall_steps {i : InstId} {ci : Value} {s : PassState} (hseed : IsSeed M cfg i ci)
    (hi : .inst i ∈ s.taintedValues) :
    Relation.ReflTransGen (SeedStep M cfg) s (s.seedCall M cfg i ci) := by
  unfold seedCall
  split
  next called same args bundles callee hkind hcallee =>
    refine (foldl_invariant (I := fun t : PassState =>
      Relation.ReflTransGen (SeedStep M cfg) s t ∧ .inst i ∈ t.taintedValues)
      (fun t n hn ht => ?_) ⟨.refl, hi⟩).1
    have hactual : args[n]? = some ci := by simpa using (List.mem_filter.mp hn).2
    unfold seedCallArgument
    split
    next hguard =>
      simp only [Bool.and_eq_true, Bool.not_eq_true', decide_eq_true_eq] at hguard
      by_cases hparam : .arg ⟨callee, n⟩ ∈ t.taintedValues
      · rwa [taintParameter, if_pos hparam]
      · exact ⟨ht.1.tail (.parameter hseed ht.2 ⟨called, same, args, bundles, hkind, hactual, hcallee⟩
          hguard.1.1 ⟨hguard.1.2, hguard.2⟩ hparam),
          (extends_taintParameter _ _ t).taintedValues _ ht.2⟩
    next => exact ht
  next => exact .refl

theorem seedInst_steps {i : InstId} {ci : Value} (hseed : IsSeed M cfg i ci) (s : PassState) :
    Relation.ReflTransGen (SeedStep M cfg) s (s.seedInst M cfg i ci) := by
  unfold seedInst
  split
  next => exact .refl
  next hnew =>
    have hi : .inst i ∈ (((s.taintValue (.inst i)).setFunctionLevel i.func 0).setValueLevel
        (.inst i) 0).taintedValues := DenseSet.mem_insert.mpr (.inl rfl)
    have hreturn := (extends_seedReturn M i ci _).taintedValues _ hi
    have hstore := (extends_seedStore M i _).taintedValues _ hreturn
    refine .trans (.single (.source hseed hnew)) ?_
    exact ((seedReturn_steps hseed hi).trans (seedStore_steps hseed hreturn)).trans
      (seedCall_steps hseed hstore)

theorem seedOperand_steps {i : InstId} {op : Value} (hi : i ∈ seedCandidates M cfg)
    (hop : op ∈ M.operands i) (s : SeedState) :
    Relation.ReflTransGen (SeedStep M cfg) s.pass (seedOperand M cfg i s op).pass := by
  unfold seedOperand
  split
  next => exact .refl
  next =>
    split
    next type c =>
      split
      next hc =>
        subst hc
        dsimp only
        split
        next => exact .refl
        next => exact seedInst_steps ⟨hi, hop, type, rfl⟩ _
      next => exact .refl
    next => exact .refl

/-- The seeding loops are a sequence of updates. -/
theorem seedWorklist_steps (M : Module) (cfg : Config) :
    Relation.ReflTransGen (SeedStep M cfg) (PassState.buildFunctionPointerTargets M cfg {})
      (seedWorklist M cfg) := by
  let I := fun s : SeedState => Relation.ReflTransGen (SeedStep M cfg)
    (PassState.buildFunctionPointerTargets M cfg {}) s.pass
  refine foldl_invariant (I := I) (fun s i hi hs => ?_) .refl
  refine foldl_invariant (I := I) (fun s op hop hs => ?_) hs
  exact hs.trans (seedOperand_steps hi hop s)

/-! ## The forward loop -/

theorem enterCallee_steps {v : Value} {i : InstId} {n callee : Nat} {s : PassState}
    (hv : v ∈ s.taintedValues) (hi : i ∈ M.users v) (hmode : cfg.interprocMode = true)
    (hcall : PassesTaintTo M i v n callee ∨ cfg.indirectCallMode = true ∧ ∃ called,
      PassesTaintThrough M i v n called ∧ callee ∈ s.indirectTargets M addr called) :
    Relation.ReflTransGen (ForwardStep M cfg addr) s (s.enterCallee M v n callee) := by
  unfold enterCallee
  split
  next hguard =>
    simp only [Bool.and_eq_true, Bool.not_eq_true', decide_eq_true_eq] at hguard
    by_cases hparam : .arg ⟨callee, n⟩ ∈ s.taintedValues
    · rw [taintParameter, if_pos hparam]
    · exact .single (.parameter hv hi hcall hmode hguard hparam)
  next => exact .refl

theorem functionPointerTargets_enterCallee (v : Value) (n : Nat) (s : PassState) (callee : Nat) :
    (s.enterCallee M v n callee).functionPointerTargets = s.functionPointerTargets := by
  unfold enterCallee
  split
  · unfold taintParameter
    split <;> rfl
  · rfl

theorem indirectTargets_congr {s t : PassState} {called : Value}
    (h : t.functionPointerTargets = s.functionPointerTargets) :
    t.indirectTargets M addr called = s.indirectTargets M addr called := by
  unfold indirectTargets
  rw [h]

theorem forwardCall_steps {v : Value} {i : InstId} {s : PassState} (hv : v ∈ s.taintedValues)
    (hi : i ∈ M.users v) :
    Relation.ReflTransGen (ForwardStep M cfg addr) s (s.forwardCall M cfg addr v i) := by
  unfold forwardCall
  split
  next called same args bundles hkind =>
    split
    next => exact .refl
    next n hn =>
      have hactual : args[n]? = some v := by
        obtain ⟨hlt, hv, _⟩ := List.findIdx?_eq_some_iff_getElem.mp hn
        rw [List.getElem?_eq_getElem hlt, eq_of_beq hv]
      split
      next callee hcallee =>
        split
        next => exact .refl
        next =>
          have hlevel : Relation.ReflTransGen (ForwardStep M cfg addr) s
              (if .inst i ∈ s.valueLevel then s else s.setValueLevel (.inst i) (s.getLevel v)) := by
            split
            next => exact .refl
            next hnone => exact .single (.callLevel hv hi hkind hnone)
          dsimp only
          split
          next hmode =>
            refine hlevel.trans (enterCallee_steps ?_ hi hmode
              (.inl ⟨called, same, args, bundles, hkind, hactual, hcallee⟩))
            split <;> exact hv
          next => exact hlevel
      next hnone =>
        split
        next hguard =>
          rw [Bool.and_eq_true] at hguard
          -- the targets are looked up once, and no visit changes the table
          refine (foldl_invariant (I := fun t => Relation.ReflTransGen (ForwardStep M cfg addr) s t ∧
            v ∈ t.taintedValues ∧ t.functionPointerTargets = s.functionPointerTargets)
            (fun t callee hcallee ht => ?_) ⟨.refl, hv, rfl⟩).1
          obtain ⟨hsteps, hvt, htable⟩ := ht
          have htarget : callee ∈ t.indirectTargets M addr called := by
            rwa [indirectTargets_congr htable]
          have henter := enterCallee_steps hvt hi hguard.2 (.inr ⟨hguard.1, called,
            ⟨same, args, bundles, hkind, hactual, hnone⟩, htarget⟩)
          exact ⟨hsteps.trans henter, (extends_enterCallee M v n t callee).taintedValues v hvt,
            (functionPointerTargets_enterCallee v n t callee).trans htable⟩
        next => exact .refl
  next => exact .refl

theorem propagate_steps {v : Value} {i : InstId} {s : PassState} (hv : v ∈ s.taintedValues)
    (hi : i ∈ M.users v) :
    Relation.ReflTransGen (ForwardStep M cfg addr) s (s.propagate v i) := by
  unfold propagate
  split
  next => exact .refl
  next hnew => exact .single (.use hv hi hnew)

theorem forwardUser_steps {v : Value} {i : InstId} {s : PassState} (hv : v ∈ s.taintedValues)
    (hi : i ∈ M.users v) :
    Relation.ReflTransGen (ForwardStep M cfg addr) s (s.forwardUser M cfg addr v i) := by
  have hcall : Relation.ReflTransGen (ForwardStep M cfg addr) s (s.forwardCall M cfg addr v i) :=
    forwardCall_steps hv hi
  have hvcall : v ∈ (s.forwardCall M cfg addr v i).taintedValues :=
    (extends_forwardCall M cfg addr v i s).taintedValues v hv
  unfold forwardUser
  dsimp only
  -- the call handling comes first, then the case of the user
  refine hcall.trans ?_
  split
  next value hkind =>
    split
    next hvalue =>
      subst hvalue
      exact .single (.returned hvcall hi hkind)
    next => exact propagate_steps hvcall hi
  next value ptr hkind =>
    split
    next hvalue =>
      subst hvalue
      split
      next => exact .refl
      next =>
        split
        next a horigin => exact .single (.parameterStore hvcall hi hkind horigin)
        next =>
          -- a local pointer is tainted at most once, the store propagates each time
          refine .trans ?_ (propagate_steps
            ((extends_forwardLocalStore i (M.stripPointerCasts ptr) _).taintedValues _ hvcall) hi)
          unfold forwardLocalStore
          split
          next => exact .refl
          next hnew => exact .single (.pointer hvcall hi hkind hnew)
    next => exact propagate_steps hvcall hi
  next => exact propagate_steps hvcall hi

/-! ## Kill pass and load scan -/

theorem identifyKillStore_steps {i : InstId} (hi : i ∈ M.insts) (s : PassState) :
    Relation.ReflTransGen (ScanStep M) s (s.identifyKillStore M i) := by
  unfold identifyKillStore
  split
  next value ptr hkind =>
    dsimp only
    split
    next hguard => exact .single (.kill hi ⟨value, ptr, hkind, hguard⟩)
    next => exact .refl
  next => exact .refl

theorem scanLoad_steps (killTracking : Bool) {p : Value} {i : InstId} {r : PassState × Bool}
    (hi : i ∈ M.insts) (hp : p ∈ r.1.taintedPointers) :
    Relation.ReflTransGen (ScanStep M) r.1 (scanLoad M killTracking p r i).1 := by
  unfold scanLoad
  split
  next => exact .refl
  next hmatch =>
    rw [Bool.not_eq_true', Bool.not_eq_false] at hmatch
    split
    next => exact .refl
    next hnew =>
      split
      next => exact .single (.level hi hp hmatch hnew)
      next =>
        split
        next => exact .single (.level hi hp hmatch hnew)
        next => exact .single (.load hi hp hmatch hnew)

/-! ## The upward loop -/

theorem fields_taintPointer (ptr : Value) (i : InstId) (s : PassState) :
    (s.taintPointer ptr i).functionParamFieldAccess = s.functionParamFieldAccess := by
  unfold taintPointer
  split <;> rfl

theorem fields_initFunctionLevel (f : Nat) (level : Int) (s : PassState) :
    (s.initFunctionLevel f level).functionParamFieldAccess = s.functionParamFieldAccess := by
  unfold initFunctionLevel
  split <;> rfl

/-- A fold whose turns leave the records alone. -/
theorem fields_foldl {α : Type} {f : PassState → α → PassState} {xs : List α}
    (hstep : ∀ s x, (f s x).functionParamFieldAccess = s.functionParamFieldAccess) (s : PassState) :
    (xs.foldl f s).functionParamFieldAccess = s.functionParamFieldAccess :=
  foldl_invariant (I := fun t => t.functionParamFieldAccess = s.functionParamFieldAccess)
    (fun t x _ ht => (hstep t x).trans ht) rfl

theorem fields_taintPointedVar (call : InstId) (f n : Nat) (var : Value) (s : PassState) :
    (s.taintPointedVar M call f n var).functionParamFieldAccess = s.functionParamFieldAccess := by
  have htargets (gep : InstId) (t : PassState) :
      (t.taintFieldTargets M call gep).functionParamFieldAccess = t.functionParamFieldAccess := by
    unfold taintFieldTargets
    refine fields_foldl (fun u i => ?_) t
    split
    · dsimp only
      split
      · exact fields_taintPointer _ _ u
      · rfl
    · rfl
  have hstruct (t : PassState) :
      (t.taintStructFields M call f n var).functionParamFieldAccess =
        t.functionParamFieldAccess := by
    unfold taintStructFields
    dsimp only
    refine fields_foldl (fun u i => ?_) t
    split
    · split
      · exact htargets _ u
      · rfl
    · rfl
  -- the level is set first, then the variable, then the fields of a struct
  unfold taintPointedVar
  split
  · rfl
  · have hvar := (fields_taintPointer var call (s.initFunctionLevel call.func (s.calleeLevel f + 1))).trans
      (fields_initFunctionLevel call.func (s.calleeLevel f + 1) s)
    dsimp only
    split
    · exact (hstruct _).trans hvar
    · exact hvar

theorem fields_upwardArgument (i : InstId) (f : Nat) (args : List Value) (s : PassState) (n : Nat) :
    (s.upwardArgument M i f args n).functionParamFieldAccess = s.functionParamFieldAccess := by
  unfold upwardArgument
  split
  · rfl
  · split
    · unfold passThroughParam
      split
      · rfl
      · exact fields_initFunctionLevel _ _ _
    · split
      · exact fields_taintPointedVar _ _ _ _ s
      · rfl

theorem taintReturningCall_steps {f : Nat} {i : InstId} {s : PassState}
    (hf : f ∈ s.functionsReturningTaint) (hi : i ∈ M.insts) :
    Relation.ReflTransGen (UpwardStep M s) s (s.taintReturningCall M f i) := by
  unfold taintReturningCall
  split
  next hcall =>
    split
    next => exact .refl
    next hnew => exact .single (.call hf hi hcall hnew)
  next => exact .refl

theorem taintStructFields_steps {f n : Nat} {i : InstId} {actual var : Value} {start s : PassState}
    (hparam : s.TaintsParam f n) (hi : i ∈ M.insts) (hcall : PassesTaintTo M i actual n f)
    (hvar : pointedVar M actual = some var) (hstruct : isStructAlloca M var = true)
    (hfields : s.functionParamFieldAccess = start.functionParamFieldAccess) :
    Relation.ReflTransGen (UpwardStep M start) s (s.taintStructFields M i f n var) := by
  let I := fun t : PassState => Relation.ReflTransGen (UpwardStep M start) s t ∧ t.TaintsParam f n
  have haccessed : s.accessedFields f n = start.accessedFields f n := by
    rw [accessedFields, accessedFields, hfields]
  unfold taintStructFields
  dsimp only
  refine (foldl_invariant (I := I) (fun t gep hgep ht => ?_) ⟨.refl, hparam⟩).1
  split
  next type base indices hkind =>
    split
    next hselected =>
      have hselects : start.SelectsField f n indices := by
        rw [SelectsField, ← haccessed]
        simpa using hselected
      refine foldl_invariant (I := I) (fun t store hstore ht => ?_) ht
      split
      next value ptr hkind' =>
        dsimp only
        split
        next hguard =>
          obtain ⟨rfl, _, halloca⟩ := hguard
          exact ⟨ht.1.tail
            (.field ht.2 hi hcall hvar hstruct hgep hkind hselects hstore hkind' halloca),
            (extends_taintPointer _ _ t).taintsParam f n ht.2⟩
        next => exact ht
      next => exact ht
    next => exact ht
  next => exact ht

theorem upwardArgument_steps {f n : Nat} {i : InstId} {start s : PassState} {called : Value}
    {same : Bool} {args bundles : List Value} (hparam : s.TaintsParam f n) (hi : i ∈ M.insts)
    (hkind : M.kind i = .call called same args bundles) (hcall : M.calledFunction i = some f)
    (hfields : s.functionParamFieldAccess = start.functionParamFieldAccess) :
    Relation.ReflTransGen (UpwardStep M start) s (s.upwardArgument M i f args n) := by
  unfold upwardArgument
  split
  next => exact .refl
  next actual hactual =>
    have hpass : PassesTaintTo M i actual n f := ⟨called, same, args, bundles, hkind, hactual, hcall⟩
    split
    -- the actual argument is itself a parameter of the caller
    next a horigin =>
      unfold passThroughParam
      split
      next => exact .refl
      next hnew => exact .single (.passThrough hparam hi hpass horigin hnew)
    next =>
      split
      -- the actual argument points to a variable of the caller
      next var hvar =>
        unfold taintPointedVar
        split
        next => exact .refl
        next hnew =>
          have hstep : UpwardStep M start s ((s.initFunctionLevel i.func
              (s.calleeLevel f + 1)).taintPointer var i) :=
            .pointed hparam hi hpass hvar hnew
          dsimp only
          split
          next hstruct =>
            refine .trans (.single hstep) (taintStructFields_steps ?_ hi hpass hvar hstruct ?_)
            · exact (extends_taintPointer _ _ _).taintsParam f n
                ((extends_initFunctionLevel _ _ s).taintsParam f n hparam)
            · exact (fields_taintPointer _ _ _).trans ((fields_initFunctionLevel _ _ s).trans hfields)
          next => exact .single hstep
      next => exact .refl

theorem upwardCallSite_steps {f : Nat} {params : DenseSet Nat} {i : InstId} {s : PassState}
    (hparams : ∀ n ∈ params, s.TaintsParam f n) (hi : i ∈ M.insts) :
    Relation.ReflTransGen (UpwardStep M s) s (s.upwardCallSite M f params i) := by
  unfold upwardCallSite
  split
  next called same args bundles hkind =>
    split
    next hcall =>
      refine (foldl_invariant (I := fun t => Relation.ReflTransGen (UpwardStep M s) s t ∧
        (∀ n ∈ params, t.TaintsParam f n) ∧ t.functionParamFieldAccess = s.functionParamFieldAccess)
        (fun t n hn ht => ?_) ⟨.refl, hparams, rfl⟩).1
      obtain ⟨hsteps, hrecorded, hfields⟩ := ht
      have hn' : n ∈ params := mem_sortOn.mp hn
      refine ⟨hsteps.trans (upwardArgument_steps (hrecorded n hn') hi hkind hcall hfields),
        fun m hm => ?_, (fields_upwardArgument i f args t n).trans hfields⟩
      exact (discovers_upwardArgument i f args t n).taintsParam f m (hrecorded m hm)
    next => exact .refl
  next => exact .refl

theorem processStoreForTaint_steps {v : Value} {i : InstId} {start s : PassState}
    (hv : v ∈ s.taintedValues) (hi : i ∈ M.users v) :
    Relation.ReflTransGen (UpwardStep M start) s (s.processStoreForTaint M i v) := by
  unfold processStoreForTaint
  split
  next value ptr hkind =>
    split
    next => exact .refl
    next hvalue =>
      rw [not_not] at hvalue
      subst hvalue
      have hext := extends_taintPointer (M.stripPointerCasts ptr) i s
      dsimp only
      refine .trans (.single (.store hv hi hkind)) ?_
      split
      next a horigin =>
        exact .trans (.single (.parameterStore (hext.taintedValues _ hv) hi hkind horigin))
          (.single .fields)
      next => exact .refl
  next => exact .refl

theorem upwardUser_steps {v : Value} {i : InstId} {s : PassState} (hv : v ∈ s.taintedValues)
    (hi : i ∈ M.users v) : Relation.ReflTransGen (UpwardStep M s) s (s.upwardUser M v i) := by
  unfold upwardUser
  split
  next => exact .refl
  next hnew =>
    have hv' : v ∈ ((s.setValueLevel (.inst i) (s.getLevel v)).taintValue (.inst i)).taintedValues :=
      DenseSet.mem_insert.mpr (.inr hv)
    refine .trans (.single (.use hv hi hnew)) (.trans (processStoreForTaint_steps hv' hi) ?_)
    unfold upwardReturn
    split
    next value hkind =>
      split
      next hvalue =>
        subst hvalue
        exact .single (.returned ((discovers_processStoreForTaint _ _ _).taintedValues _ hv') hi
          hkind)
      next => exact .refl
    next => exact .refl

end PassState

end LinuxAnalysis
