import LinuxAnalysis.Lib.Walk
import LinuxAnalysis.Pass.Levels
import LinuxAnalysis.Pass.Provenance
import LinuxAnalysis.Pass.Statistics
import LinuxAnalysis.Pass.Visit

/-!
# Levels are call depths

The level of a value is meant to be the number of calls between its function and the source function:
one less for each call that taint enters, one more for each caller it goes up to.  The updates only
ever copy, add and subtract; that what they record is the height of a walk along calls is an invariant
of the run.  A function without a level counts as level `0`, so that a function that taint enters through
memory stands beside the source function.
-/

open LinuxAnalysis.Lib

namespace LinuxAnalysis

/-! ## 1. Functions of values -/

/-- What LLVM's verifier asks of the place of operands: an instruction uses instructions and arguments
of its own function only, and the casts that are stripped are operands as well. -/
structure Module.LocalOperands (M : Module) : Prop where
  operand : ∀ i, ∀ v ∈ M.operands i, ∀ f, v.getFunction = some f → f = i.func
  strip : ∀ v f, (M.stripPointerCasts v).getFunction = some f → v.getFunction = some f

namespace Module.LocalOperands

variable {M : Module}

theorem user (hM : M.LocalOperands) {v : Value} {i : InstId} {f : Nat} (hi : i ∈ M.users v)
    (hv : v.getFunction = some f) : f = i.func :=
  hM.operand i v (mem_users.mp hi).2 f hv

theorem stripped (hM : M.LocalOperands) {v : Value} {i : InstId} {f : Nat} (hv : v ∈ M.operands i)
    (hf : (M.stripPointerCasts v).getFunction = some f) : f = i.func :=
  hM.operand i v hv f (hM.strip v f hf)

theorem gepBase (hM : M.LocalOperands) {v p : Value} {f : Nat}
    (h : PassState.gepBase M v = some p) (hp : p.getFunction = some f) : v.getFunction = some f := by
  unfold PassState.gepBase at h
  split at h
  next i =>
    split at h
    next type ptr indices hkind =>
      cases h
      have hop : ptr ∈ M.operands i := by
        rw [operands, hkind]
        exact List.mem_cons_self
      rw [hM.stripped hop hp, Value.getFunction]
    next => cases h
  next => cases h

/-- A load reads through pointers of its own function, or of none. -/
theorem load (hM : M.LocalOperands) {p : Value} {i : InstId} {f : Nat}
    (h : PassState.loadMatches M p i = true) (hp : p.getFunction = some f) : f = i.func := by
  unfold PassState.loadMatches at h
  split at h
  next q hkind =>
    have hop : q ∈ M.operands i := by
      rw [operands, hkind]
      exact List.mem_cons_self
    simp only [Bool.or_eq_true, beq_iff_eq] at h
    rcases h with hself | hbase
    · exact hM.stripped hop (hself ▸ hp)
    · exact hM.stripped hop (hM.gepBase hbase hp)
  next => cases h

theorem actual_mem_operands {i : InstId} {actual : Value} {n callee : Nat}
    (h : PassesTaintTo M i actual n callee) : actual ∈ M.operands i := by
  obtain ⟨called, same, args, bundles, hkind, hactual, _⟩ := h
  rw [operands, hkind]
  exact List.mem_append_left _ (List.mem_append_left _ (List.mem_of_getElem? hactual))

/-- The variable an argument points to is a variable of the caller. -/
theorem pointedVar (hM : M.LocalOperands) {i : InstId} {actual var : Value} {f : Nat}
    (hactual : actual ∈ M.operands i) (h : PassState.pointedVar M actual = some var)
    (hvar : var.getFunction = some f) : f = i.func := by
  unfold PassState.pointedVar at h
  split at h
  next =>
    cases h
    exact hM.operand i _ hactual f hvar
  next => exact hM.operand i _ hactual f (hM.gepBase h hvar)

end Module.LocalOperands

/-- The test behind `LocalOperands`, for one instruction. -/
def Module.operandsLocal (M : Module) (i : InstId) : Bool :=
  (M.operands i).all fun v => v.getFunction.all fun f => f == i.func

theorem Module.localOperands_of_insts {M : Module} (h : ∀ i ∈ M.insts, M.operandsLocal i = true)
    (hstrip : ∀ v, M.stripPointerCasts v = v) : M.LocalOperands := by
  refine ⟨fun i v hv f hf => ?_, fun v f hf => by rwa [hstrip] at hf⟩
  have hlocal := List.all_eq_true.mp (h i (mem_insts_of_mem_operands hv)) v hv
  rw [hf] at hlocal
  exact eq_of_beq hlocal

/-! ## 2. Calls and sources -/

section Calls

variable (M : Module) (cfg : Config) (addr : Value → Nat) (s : PassState)

/-- A level leads down into a callee that a tainted value or the constant of a seed is passed to, and up
into a caller of a function that returns or stores taint, in the modes that follow calls. -/
inductive CallEdge : Nat → Nat → Int → Prop where
  | seed {i ci n callee} : cfg.interprocMode = true → IsSeed M cfg i ci →
      PassesTaintTo M i ci n callee → CallEdge i.func callee (-1)
  | direct {i v n callee} : cfg.interprocMode = true → v ∈ s.taintedValues →
      PassesTaintTo M i v n callee → CallEdge i.func callee (-1)
  | indirect {i v n called callee} : cfg.interprocMode = true → cfg.indirectCallMode = true →
      v ∈ s.taintedValues → PassesTaintThrough M i v n called → ResolvesTo M cfg addr called callee →
      CallEdge i.func callee (-1)
  | caller {i f} : cfg.upwardInterprocMode = true →
      (f ∈ s.functionsReturningTaint ∨ ∃ n, s.TaintsParam f n) → i ∈ M.insts →
      M.calledFunction i = some f → CallEdge f i.func 1

/-- Where level `0` stands on its own. -/
inductive LevelRoot : Nat → Prop where
  /-- The source function has the configured name. -/
  | source {f} : M.functionName f = cfg.functionName → LevelRoot f
  /-- Taint has come through a global: a tainted pointer that belongs to no function. -/
  | global {p i} : p ∈ s.taintedPointers → p.getFunction = none → i ∈ M.insts →
      PassState.loadMatches M p i = true → LevelRoot i.func

/-- A walk along calls from a root to `f` ends `level` calls above it. -/
def CallDepth : Nat → Int → Prop := Walk (CallEdge M cfg addr s) (LevelRoot M cfg s)

variable {M cfg addr s}

/-- With the facts on record the roots and the calls grow. -/
theorem LevelRoot.mono {t : PassState} {f : Nat} (hroot : LevelRoot M cfg s f)
    (h : ∀ c, s.Holds c → t.Holds c) : LevelRoot M cfg t f := by
  cases hroot with
  | source hname => exact .source hname
  | global hp hnone hi hmatch => exact .global (h (.pointer _) hp) hnone hi hmatch

theorem CallEdge.mono {t : PassState} {a b : Nat} {d : Int} (hedge : CallEdge M cfg addr s a b d)
    (h : ∀ c, s.Holds c → t.Holds c) : CallEdge M cfg addr t a b d := by
  cases hedge with
  | seed hmode hseed hpass => exact .seed hmode hseed hpass
  | direct hmode hv hpass => exact .direct hmode (h (.value _) hv) hpass
  | indirect hmode hindirect hv hpass hcallee =>
    exact .indirect hmode hindirect (h (.value _) hv) hpass hcallee
  | caller hmode hrecord hi hcall =>
    exact .caller hmode (hrecord.imp (h (.returns _)) fun ⟨n, hn⟩ => ⟨n, h (.param _ n) hn⟩) hi hcall

theorem CallDepth.mono {t : PassState} {f : Nat} {level : Int} (hdepth : CallDepth M cfg addr s f level)
    (h : ∀ c, s.Holds c → t.Holds c) : CallDepth M cfg addr t f level :=
  Walk.mono hdepth (fun _ hroot => hroot.mono h) fun _ _ _ hedge => hedge.mono h

end Calls

/-- The function a fact is about. -/
def TaintFact.getFunction : TaintFact → Option Nat
  | .value v => v.getFunction
  | .pointer p => p.getFunction
  | .returns f => some f
  | .param f _ => some f

namespace PassState

variable {M : Module} {cfg : Config} {addr : Value → Nat} {D : Nat → Int → Prop}

/-! ## 3. Updates of levels and facts -/

/-- All levels on record are among the `D` of their function, and so is the level that a function with
something on record is taken to have. -/
structure Depths (D : Nat → Int → Prop) (s : PassState) : Prop where
  valueLevels : ∀ v level, s.valueLevel.lookup v = some level →
    ∃ f, v.getFunction = some f ∧ D f level
  functionLevels : ∀ f level, s.functionLevel.lookup f = some level → D f level
  facts : ∀ c, s.Holds c → ∀ f, c.getFunction = some f → D f (s.calleeLevel f)
  placed : ∀ v ∈ s.taintedValues, ∃ f, v.getFunction = some f

theorem Depths.mono {D' : Nat → Int → Prop} {s : PassState} (hs : s.Depths D)
    (h : ∀ f level, D f level → D' f level) : s.Depths D' where
  valueLevels v level hl := (hs.valueLevels v level hl).imp fun _ hf => ⟨hf.1, h _ _ hf.2⟩
  functionLevels f level hl := h _ _ (hs.functionLevels f level hl)
  facts c hc f hf := h _ _ (hs.facts c hc f hf)
  placed := hs.placed

/-- A tainted value with its function, at whose level it is taken to be without one of its own. -/
theorem Depths.value {s : PassState} (hs : s.Depths D) {v : Value} (hv : v ∈ s.taintedValues) :
    ∃ f, v.getFunction = some f ∧ D f (s.calleeLevel f) := by
  obtain ⟨f, hf⟩ := hs.placed v hv
  exact ⟨f, hf, hs.facts (.value v) hv f hf⟩

theorem Depths.getLevel {s : PassState} (hs : s.Depths D) {v : Value} {f : Nat}
    (hf : v.getFunction = some f) (hdepth : D f (s.calleeLevel f)) : D f (s.getLevel v) := by
  unfold PassState.getLevel
  split
  next level hlevel =>
    obtain ⟨g, hg, hd⟩ := hs.valueLevels v level hlevel
    rw [hf] at hg
    cases hg
    exact hd
  next =>
    cases v with
    | inst i =>
      cases hf
      exact hdepth
    | arg a =>
      cases hf
      exact hdepth
    | _ => cases hf

/-- An update that leaves the levels and adds a fact about a function with a depth. -/
theorem Depths.adds {s t : PassState} {c : TaintFact} (hs : s.Depths D) (h : s.AddsFact t c)
    (hvalues : t.valueLevel = s.valueLevel) (hfunctions : t.functionLevel = s.functionLevel)
    (hc : ∀ f, c.getFunction = some f → D f (s.calleeLevel f))
    (hplaced : ∀ v, c = .value v → ∃ f, v.getFunction = some f) : t.Depths D := by
  refine ⟨fun v level hl => ?_, fun f level hl => ?_, fun d hd f hf => ?_, fun v hv => ?_⟩
  · rw [hvalues] at hl
    exact hs.valueLevels v level hl
  · rw [hfunctions] at hl
    exact hs.functionLevels f level hl
  · rw [calleeLevel, hfunctions]
    rcases h d hd with hold | rfl
    · exact hs.facts d hold f hf
    · exact hc f hf
  · rcases h (.value v) hv with hold | hnew
    · exact hs.placed v hold
    · exact hplaced v hnew.symm

theorem Depths.same {s t : PassState} (hs : s.Depths D) (h : s.SameFacts t)
    (hvalues : t.valueLevel = s.valueLevel) (hfunctions : t.functionLevel = s.functionLevel) :
    t.Depths D := by
  refine ⟨fun v level hl => ?_, fun f level hl => ?_, fun d hd f hf => ?_, fun v hv => ?_⟩
  · rw [hvalues] at hl
    exact hs.valueLevels v level hl
  · rw [hfunctions] at hl
    exact hs.functionLevels f level hl
  · rw [calleeLevel, hfunctions]
    exact hs.facts d (h.holds hd) f hf
  · exact hs.placed v (h.holds (c := .value v) hv)

theorem Depths.setValueLevel {s : PassState} (hs : s.Depths D) {v : Value} {f : Nat} {level : Int}
    (hf : v.getFunction = some f) (hd : D f level) : (s.setValueLevel v level).Depths D := by
  refine ⟨fun w l hl => ?_, hs.functionLevels, hs.facts, hs.placed⟩
  rw [PassState.setValueLevel, DenseMap.lookup_insert_ite] at hl
  split at hl
  next heq =>
    cases hl
    exact ⟨f, heq ▸ hf, hd⟩
  next => exact hs.valueLevels w l hl

theorem Depths.setFunctionLevel {s : PassState} (hs : s.Depths D) {f : Nat} {level : Int}
    (hd : D f level) : (s.setFunctionLevel f level).Depths D := by
  refine ⟨hs.valueLevels, fun g l hl => ?_, fun c hc g hg => ?_, hs.placed⟩
  · rw [PassState.setFunctionLevel, DenseMap.lookup_insert_ite] at hl
    split at hl
    next heq =>
      cases hl
      exact heq ▸ hd
    next => exact hs.functionLevels g l hl
  · show D g (DenseMap.getD (s.functionLevel.insert f level) g 0)
    rw [DenseMap.getD_insert]
    split
    next heq => exact heq ▸ hd
    next => exact hs.facts c hc g hg

/-- A caller that gets a level unless it has one; it has one of its depths afterwards. -/
theorem Depths.initFunctionLevel {s : PassState} (hs : s.Depths D) {f : Nat} {level : Int}
    (hd : D f level) : (s.initFunctionLevel f level).Depths D ∧
      D f ((s.initFunctionLevel f level).calleeLevel f) := by
  unfold PassState.initFunctionLevel
  split
  next hmem =>
    obtain ⟨l, hl⟩ := Option.isSome_iff_exists.mp (AList.lookup_isSome.mpr hmem)
    refine ⟨hs, ?_⟩
    rw [calleeLevel, DenseMap.getD, hl]
    exact hs.functionLevels f l hl
  next =>
    refine ⟨hs.setFunctionLevel hd, ?_⟩
    show D f (DenseMap.getD (s.functionLevel.insert f level) f 0)
    rwa [DenseMap.getD_insert, if_pos rfl]

theorem Depths.taintValue {s : PassState} (hs : s.Depths D) {v : Value} {f : Nat}
    (hf : v.getFunction = some f) (hd : D f (s.calleeLevel f)) : (s.taintValue v).Depths D := by
  refine hs.adds (addsFact_taintValue v s) rfl rfl (fun g hg => ?_) (fun w hw => ?_)
  · rw [TaintFact.getFunction, hf] at hg
    cases hg
    exact hd
  · cases hw
    exact ⟨f, hf⟩

theorem Depths.taintPointer {s : PassState} (hs : s.Depths D) {p : Value} (i : InstId)
    (hp : ∀ f, p.getFunction = some f → D f (s.calleeLevel f)) : (s.taintPointer p i).Depths D := by
  obtain ⟨_, hvalues, hfunctions⟩ := sameLevels_taintPointer p i s
  exact hs.adds (addsFact_taintPointer p i s) hvalues hfunctions hp fun w hw => by cases hw

theorem Depths.addFunctionReturningTaint {s : PassState} (hs : s.Depths D) {f : Nat}
    (hd : D f (s.calleeLevel f)) : (s.addFunctionReturningTaint f).Depths D := by
  refine hs.adds (addsFact_addFunctionReturningTaint f s) rfl rfl (fun g hg => ?_)
    fun w hw => by cases hw
  cases hg
  exact hd

theorem Depths.addTaintingPointerParam {s : PassState} (hs : s.Depths D) {f : Nat} (n : Nat)
    (hd : D f (s.calleeLevel f)) : (s.addTaintingPointerParam f n).Depths D := by
  refine hs.adds (addsFact_addTaintingPointerParam f n s) rfl rfl (fun g hg => ?_)
    fun w hw => by cases hw
  cases hg
  exact hd

theorem Depths.recordFieldAccess {s : PassState} (hs : s.Depths D) (f n : Nat) (fields : List Int) :
    (s.recordFieldAccess f n fields).Depths D := by
  obtain ⟨_, hvalues, hfunctions⟩ := sameLevels_recordFieldAccess f n fields s
  exact hs.same (sameFacts_recordFieldAccess f n fields s) hvalues hfunctions

theorem Depths.ensureLevelSet {s : PassState} (hs : s.Depths D) (i : InstId) :
    (s.ensureLevelSet i).Depths D := by
  unfold PassState.ensureLevelSet
  split
  next => exact hs
  next =>
    split
    next level hlevel => exact hs.setValueLevel rfl (hs.functionLevels _ level hlevel)
    next => exact hs

theorem calleeLevel_ensureLevelSet (i : InstId) (s : PassState) (f : Nat) :
    (s.ensureLevelSet i).calleeLevel f = s.calleeLevel f := by
  unfold PassState.ensureLevelSet
  split
  · rfl
  · split <;> rfl

theorem Depths.taintParameter {s : PassState} (hs : s.Depths D) {a : ArgId} {level : Int}
    (hd : D a.func (level - 1)) : (s.taintParameter a level).Depths D := by
  unfold PassState.taintParameter
  split
  next => exact hs
  next =>
    have hset := (hs.setValueLevel (v := .arg a) rfl hd).setFunctionLevel hd
    refine (hset.taintValue (v := .arg a) rfl ?_).same ⟨rfl, rfl, rfl, rfl⟩ rfl rfl
    show D a.func (DenseMap.getD (s.functionLevel.insert a.func (level - 1)) a.func 0)
    rwa [DenseMap.getD_insert, if_pos rfl]

/-- A function with depth `0` keeps to its depths whether or not it has a level. -/
theorem Depths.of_zero {s : PassState} (hs : s.Depths D) {f : Nat} (h : D f 0) :
    D f (s.calleeLevel f) := by
  rw [calleeLevel, DenseMap.getD]
  cases hl : s.functionLevel.lookup f with
  | none => exact h
  | some level => exact hs.functionLevels f level hl

/-! ## 4. One case for every update -/

section Updates

theorem depths_seedStep (hM : M.LocalOperands) {s t : PassState}
    (hs : s.Depths (CallDepth M cfg addr s)) (h : SeedStep M cfg s t) :
    t.Depths (CallDepth M cfg addr s) := by
  cases h with
  | @source i ci hseed _ =>
    have hname : M.functionName i.func = cfg.functionName := by
      have hselected := (List.mem_filter.mp hseed.candidate).2
      simp only [Bool.and_eq_true, beq_iff_eq] at hselected
      exact hselected.1
    have hzero : CallDepth M cfg addr s i.func 0 := .root (.source hname)
    have htaint := hs.taintValue (v := .inst i) rfl (hs.of_zero hzero)
    exact (htaint.setFunctionLevel hzero).setValueLevel rfl hzero
  | @returned i ci _ hi _ =>
    exact hs.addFunctionReturningTaint (hs.facts (.value (.inst i)) hi _ rfl)
  | @parameterStore i ci value ptr a _ hi _ _ =>
    have hparam := hs.addTaintingPointerParam a.no (hs.facts (.value (.inst i)) hi _ rfl)
    exact hparam.recordFieldAccess i.func a.no _
  | @pointer i ci value ptr _ hi hkind =>
    refine hs.taintPointer i fun f hf => ?_
    have hlocal := hM.stripped (i := i) (v := ptr) (by simp [Module.operands, hkind, InstKind.operands]) hf
    exact hlocal ▸ hs.facts (.value (.inst i)) hi _ rfl
  | @parameter i ci n callee hseed hi hcall hmode _ _ =>
    have hlevel := hs.getLevel (v := .inst i) rfl (hs.facts (.value (.inst i)) hi _ rfl)
    exact hs.taintParameter (hlevel.step (.seed hmode hseed hcall))

/-- A user of a tainted value is in the function of the value. -/
theorem Depths.user (hM : M.LocalOperands) {s : PassState} (hs : s.Depths D) {v : Value} {i : InstId}
    (hv : v ∈ s.taintedValues) (hi : i ∈ M.users v) :
    v.getFunction = some i.func ∧ D i.func (s.calleeLevel i.func) := by
  obtain ⟨f, hf, hd⟩ := hs.value hv
  have hfunc := hM.user hi hf
  subst hfunc
  exact ⟨hf, hd⟩

theorem depths_use (hM : M.LocalOperands) {s : PassState} (hs : s.Depths D) {v : Value} {i : InstId}
    (hv : v ∈ s.taintedValues) (hi : i ∈ M.users v) :
    Depths D ((s.setValueLevel (.inst i) (s.getLevel v)).taintValue (.inst i)) := by
  obtain ⟨hf, hd⟩ := hs.user hM hv hi
  exact (hs.setValueLevel (v := .inst i) rfl (hs.getLevel hf hd)).taintValue (v := .inst i) rfl hd

/-- A pointer that a value is stored through is tainted in the function of the store. -/
theorem depths_store (hM : M.LocalOperands) {s : PassState} (hs : s.Depths D) {v ptr : Value} {i : InstId}
    (hv : v ∈ s.taintedValues) (hi : i ∈ M.users v) (hkind : M.kind i = .store v ptr) :
    Depths D (s.taintPointer (M.stripPointerCasts ptr) i) := by
  refine hs.taintPointer i fun f hf => ?_
  have hlocal := hM.stripped (i := i) (v := ptr) (by simp [Module.operands, hkind, InstKind.operands]) hf
  exact hlocal ▸ (hs.user hM hv hi).2

theorem depths_forwardStep (hM : M.LocalOperands)
    {s t : PassState} (hs : s.Depths (CallDepth M cfg addr s))
    (htargets : s.functionPointerTargets = (initialPoint M cfg).state.functionPointerTargets)
    (h : ForwardStep M cfg addr s t) : t.Depths (CallDepth M cfg addr s) := by
  cases h with
  | callLevel hv hi _ _ =>
    obtain ⟨hf, hd⟩ := hs.user hM hv hi
    exact hs.setValueLevel rfl (hs.getLevel hf hd)
  | @parameter v i n callee hv hi hcall hmode _ _ =>
    obtain ⟨hf, hd⟩ := hs.user hM hv hi
    have hedge : CallEdge M cfg addr s i.func callee (-1) := by
      rcases hcall with hdirect | ⟨hindirect, called, hthrough, htarget⟩
      · exact .direct hmode hv hdirect
      · rw [indirectTargets_congr htargets] at htarget
        exact .indirect hmode hindirect hv hthrough htarget
    exact hs.taintParameter ((hs.getLevel hf hd).step hedge)
  | returned hv hi _ => exact hs.addFunctionReturningTaint (hs.user hM hv hi).2
  | @parameterStore v i ptr a hv hi _ _ => exact hs.addTaintingPointerParam a.no (hs.user hM hv hi).2
  | pointer hv hi hkind _ => exact (depths_store hM hs hv hi hkind).same ⟨rfl, rfl, rfl, rfl⟩ rfl rfl
  | use hv hi _ => exact depths_use hM hs hv hi

/-- A load is in the function of the pointer it reads through, or else in a function that reads a
global. -/
theorem depths_scanStep (hM : M.LocalOperands) {s t : PassState}
    (hs : s.Depths (CallDepth M cfg addr s)) (h : ScanStep M s t) :
    t.Depths (CallDepth M cfg addr s) := by
  cases h with
  | kill _ _ => exact hs.same ⟨rfl, rfl, rfl, rfl⟩ rfl rfl
  | level _ _ _ _ => exact hs.ensureLevelSet _
  | @load i p hi hp hmatch _ =>
    refine (hs.ensureLevelSet i).taintValue (v := .inst i) rfl ?_
    rw [calleeLevel_ensureLevelSet]
    cases hfunc : p.getFunction with
    | none => exact hs.of_zero (.root (.global hp hfunc hi hmatch))
    | some f =>
      have hlocal := hM.load hmatch hfunc
      exact hlocal ▸ hs.facts (.pointer p) hp f hfunc

/-! ## 5. The upward phase -/

/-- The level of a caller is one above the level of a function on record. -/
theorem Depths.caller {s : PassState} (hs : s.Depths (CallDepth M cfg addr s))
    (hmode : cfg.upwardInterprocMode = true) {f : Nat} {i : InstId} (hi : i ∈ M.insts)
    (hcall : M.calledFunction i = some f)
    (hrecord : f ∈ s.functionsReturningTaint ∨ ∃ n, s.TaintsParam f n) :
    CallDepth M cfg addr s i.func (s.calleeLevel f + 1) := by
  have hcallee : CallDepth M cfg addr s f (s.calleeLevel f) := by
    rcases hrecord with hreturns | ⟨n, hparam⟩
    · exact hs.facts (.returns f) hreturns f rfl
    · exact hs.facts (.param f n) hparam f rfl
  exact Walk.step hcallee (.caller hmode hrecord hi hcall)

theorem depths_taintReturningCall {s : PassState} (hs : s.Depths (CallDepth M cfg addr s))
    (hmode : cfg.upwardInterprocMode = true) {f : Nat} {i : InstId}
    (hf : f ∈ s.functionsReturningTaint) (hi : i ∈ M.insts) :
    (s.taintReturningCall M f i).Depths (CallDepth M cfg addr s) := by
  unfold taintReturningCall
  split
  next hcall =>
    split
    next => exact hs
    next =>
      have habove := hs.caller hmode hi hcall (.inl hf)
      obtain ⟨hinit, hlevel⟩ := (hs.setValueLevel (v := .inst i) rfl habove).initFunctionLevel habove
      exact hinit.taintValue (v := .inst i) rfl hlevel
  next => exact hs

/-- What is stored into the field of a variable of `i`'s function is a variable of that function. -/
theorem depths_taintFieldTargets (hM : M.LocalOperands) {s : PassState} (hs : s.Depths D)
    {i gep : InstId} (hgep : D gep.func (s.calleeLevel gep.func)) :
    (s.taintFieldTargets M i gep).Depths D ∧
      (s.taintFieldTargets M i gep).functionLevel = s.functionLevel := by
  unfold taintFieldTargets
  refine foldl_invariant (I := fun t : PassState => t.Depths D ∧ t.functionLevel = s.functionLevel)
    (fun t store hstore ht => ?_) ⟨hs, rfl⟩
  split
  next value ptr hkind =>
    dsimp only
    split
    next hguard =>
      refine ⟨ht.1.taintPointer i fun f hf => ?_, (sameLevels_taintPointer _ i t).functionLevel.trans ht.2⟩
      have hvalue : value ∈ M.operands store := by simp [Module.operands, hkind, InstKind.operands]
      have hplace : gep.func = store.func := hM.user hstore rfl
      rw [hM.stripped hvalue hf, ← hplace, calleeLevel, ht.2]
      exact hgep
    next => exact ht
  next => exact ht

theorem depths_taintStructFields (hM : M.LocalOperands) {s : PassState} (hs : s.Depths D)
    {i : InstId} {var : Value} {f n : Nat} (hvar : var.getFunction = some i.func)
    (hcaller : D i.func (s.calleeLevel i.func)) : (s.taintStructFields M i f n var).Depths D := by
  unfold taintStructFields
  dsimp only
  refine (foldl_invariant (I := fun t : PassState => t.Depths D ∧ t.functionLevel = s.functionLevel)
    (fun t gep hgep ht => ?_) ⟨hs, rfl⟩).1
  split
  next type base indices hkind =>
    split
    next =>
      have hplace : i.func = gep.func := hM.user hgep hvar
      have hlevel : D gep.func (t.calleeLevel gep.func) := by
        rw [calleeLevel, ht.2, ← hplace]
        exact hcaller
      obtain ⟨hdepths, hlevels⟩ := depths_taintFieldTargets hM ht.1 (i := i) hlevel
      exact ⟨hdepths, hlevels.trans ht.2⟩
    next => exact ht
  next => exact ht

/-- The address of a local variable: the caller has a level before anything of it is tainted. -/
theorem depths_taintPointedVar (hM : M.LocalOperands) {s : PassState} (hs : s.Depths D)
    {i : InstId} {var actual : Value} {f n : Nat} (hactual : actual ∈ M.operands i)
    (hvar : pointedVar M actual = some var) (habove : D i.func (s.calleeLevel f + 1)) :
    (s.taintPointedVar M i f n var).Depths D := by
  unfold taintPointedVar
  split
  next => exact hs
  next =>
    obtain ⟨hinit, hcaller⟩ := hs.initFunctionLevel habove
    have htaint := hinit.taintPointer (p := var) i fun g hg => by
      rwa [hM.pointedVar hactual hvar hg]
    dsimp only
    split
    next hstruct =>
      -- only an alloca has fields to look at
      have hplace : var.getFunction = some i.func := by
        cases var with
        | inst j => rw [← hM.pointedVar hactual hvar rfl, Value.getFunction]
        | _ => cases hstruct
      refine depths_taintStructFields hM htaint hplace ?_
      rwa [calleeLevel, (sameLevels_taintPointer var i _).functionLevel]
    next => exact htaint

theorem depths_passThroughParam {s : PassState} (hs : s.Depths D) {i : InstId} {a : ArgId} {f : Nat}
    (habove : D i.func (s.calleeLevel f + 1)) : (s.passThroughParam i f a).Depths D := by
  unfold passThroughParam
  split
  next => exact hs
  next =>
    -- the record and the level do not touch each other, so the level may come first
    have hswap : (s.discoverTaintingPointerParam i.func a.no).initFunctionLevel i.func
        (s.calleeLevel f + 1) =
          (s.initFunctionLevel i.func (s.calleeLevel f + 1)).discoverTaintingPointerParam i.func a.no := by
      by_cases hmem : i.func ∈ s.functionLevel
      · rw [initFunctionLevel, initFunctionLevel, if_pos hmem]
        exact if_pos hmem
      · rw [initFunctionLevel, initFunctionLevel, if_neg hmem]
        exact if_neg hmem
    obtain ⟨hinit, hcaller⟩ := hs.initFunctionLevel habove
    rw [hswap]
    exact (hinit.addTaintingPointerParam a.no hcaller).same ⟨rfl, rfl, rfl, rfl⟩ rfl rfl

/-- A parameter on record, and a call that passes something for it. -/
theorem depths_upwardArgument (hM : M.LocalOperands) {s : PassState}
    (hs : s.Depths (CallDepth M cfg addr s)) (hmode : cfg.upwardInterprocMode = true) {f n : Nat}
    {i : InstId} {called : Value} {same : Bool} {args bundles : List Value} (hi : i ∈ M.insts)
    (hkind : M.kind i = .call called same args bundles) (hcall : M.calledFunction i = some f)
    (hparam : s.TaintsParam f n) :
    (s.upwardArgument M i f args n).Depths (CallDepth M cfg addr s) := by
  have habove := hs.caller hmode hi hcall (.inr ⟨n, hparam⟩)
  unfold upwardArgument
  split
  next => exact hs
  next actual hget =>
    split
    next a _ => exact depths_passThroughParam hs habove
    next =>
      split
      next var hvar =>
        have hactual : actual ∈ M.operands i :=
          Module.LocalOperands.actual_mem_operands ⟨called, same, args, bundles, hkind, hget, hcall⟩
        exact depths_taintPointedVar hM hs hactual hvar habove
      next => exact hs

theorem depths_upwardCallSite (hM : M.LocalOperands) {s : PassState}
    (hs : s.Depths (CallDepth M cfg addr s)) (hmode : cfg.upwardInterprocMode = true) {f : Nat}
    {params : DenseSet Nat} {i : InstId} (hparams : ∀ n ∈ params, s.TaintsParam f n)
    (hi : i ∈ M.insts) :
    (s.upwardCallSite M f params i).Depths (CallDepth M cfg addr (s.upwardCallSite M f params i)) := by
  unfold upwardCallSite
  split
  next called same args bundles hkind =>
    split
    next hcall =>
      -- recorded parameters stay on record from one argument to the next
      refine (foldl_invariant (I := fun t : PassState => t.Depths (CallDepth M cfg addr t) ∧
        ∀ n ∈ params, t.TaintsParam f n) (fun t n hn ht => ?_) ⟨hs, hparams⟩).1
      have hrecorded := ht.2 n (mem_sortOn.mp hn)
      have hext : t.Extends (t.upwardArgument M i f args n) :=
        extends_of_steps (fun _ _ => UpwardStep.extends)
          (upwardArgument_steps hrecorded hi hkind hcall rfl)
      refine ⟨?_, fun k hk => hext.taintsParam f k (ht.2 k hk)⟩
      exact (depths_upwardArgument hM ht.1 hmode hi hkind hcall hrecorded).mono
        fun _ _ hd => hd.mono hext.holds
    next => exact hs
  next => exact hs

theorem depths_processStoreForTaint (hM : M.LocalOperands) {s : PassState} (hs : s.Depths D)
    {v : Value} {i : InstId} (hv : v ∈ s.taintedValues) (hi : i ∈ M.users v) :
    (s.processStoreForTaint M i v).Depths D := by
  unfold processStoreForTaint
  split
  next value ptr hkind =>
    split
    next => exact hs
    next hvalue =>
      rw [not_not] at hvalue
      subst hvalue
      have htaint := depths_store hM hs hv hi hkind
      have hvt := (extends_taintPointer (M.stripPointerCasts ptr) i s).taintedValues _ hv
      dsimp only
      split
      next a _ =>
        have hparam := (htaint.addTaintingPointerParam a.no (htaint.user hM hvt hi).2).same
          (t := discoverTaintingPointerParam i.func a.no _) ⟨rfl, rfl, rfl, rfl⟩ rfl rfl
        exact hparam.recordFieldAccess i.func a.no _
      next => exact htaint
  next => exact hs

theorem depths_upwardUser (hM : M.LocalOperands) {s : PassState} (hs : s.Depths D) {v : Value}
    {i : InstId} (hv : v ∈ s.taintedValues) (hi : i ∈ M.users v) :
    (s.upwardUser M v i).Depths D := by
  unfold upwardUser
  split
  next => exact hs
  next =>
    have huse := (extends_taintValue (.inst i) (s.setValueLevel (.inst i) (s.getLevel v))).taintedValues
    have hstore := depths_processStoreForTaint hM (depths_use hM hs hv hi) (huse v hv) hi
    dsimp only
    unfold upwardReturn
    split
    next value hkind =>
      split
      next hvalue =>
        -- a return is no store
        have hsame : ((s.setValueLevel (.inst i) (s.getLevel v)).taintValue
            (.inst i)).processStoreForTaint M i v =
              (s.setValueLevel (.inst i) (s.getLevel v)).taintValue (.inst i) := by
          unfold processStoreForTaint
          rw [hkind]
        rw [hsame] at hstore ⊢
        exact (hstore.addFunctionReturningTaint (hstore.user hM (huse v hv) hi).2).same
          ⟨rfl, rfl, rfl, rfl⟩ rfl rfl
      next => exact hstore
    next => exact hstore

end Updates

end PassState

/-! ## 6. Every point of a run -/

namespace Point

variable {M : Module} {cfg : Config} {addr : Value → Nat}

/-- The table of function pointers is built before the run and not written again. -/
theorem targets_of_reachable {m : Point} (h : Reachable M cfg addr m)
    (hphase : m.control.upward = false) :
    m.state.functionPointerTargets = (initialPoint M cfg).state.functionPointerTargets := by
  let F := fun s : PassState =>
    s.functionPointerTargets = (initialPoint M cfg).state.functionPointerTargets
  exact (Point.invariant (F := F) (U := fun _ => True)
    (fun _ _ hs hst => hst.targets.trans hs) (fun _ _ hs hst => hst.targets.trans hs)
    (fun _ _ hs hst => hst.targets.trans hs) (fun _ _ hs hst => hst.functionPointerTargets.trans hs)
    (fun _ _ => trivial) (fun _ _ _ _ _ _ => trivial) (fun _ _ _ _ => trivial)
    (fun _ _ _ _ => trivial) valid_initialPoint (fun _ => rfl) (fun _ => trivial) h).1 hphase

/-- What one visit records are depths again. -/
theorem depths_of_visit (hM : M.LocalOperands) {m : Point} {t : PassState}
    (hm : Reachable M cfg addr m) (hs : m.state.Depths (CallDepth M cfg addr m.state))
    (h : Visit M cfg addr m t) : t.Depths (CallDepth M cfg addr t) := by
  let I := fun s : PassState => s.Depths (CallDepth M cfg addr s)
  -- the depths of a state are depths of every later one
  have hmono {s t : PassState} (ht : t.Depths (CallDepth M cfg addr s)) (hext : s.Extends t) : I t :=
    ht.mono fun _ _ hd => hd.mono hext.holds
  have hscan {s t : PassState} (hs : I s) (hst : Relation.ReflTransGen (PassState.ScanStep M) s t) :
      I t :=
    steps_invariant (I := I)
      (fun _ _ ha hab => hmono (PassState.depths_scanStep hM ha hab) hab.extends) hs hst
  cases h with
  | @seed i op rest n found s hi hop =>
    exact steps_invariant (I := I)
      (fun _ _ ha hab => hmono (PassState.depths_seedStep hM ha hab) hab.extends) hs
      (PassState.seedOperand_steps hi hop ⟨s, n, found⟩)
  | @forwardUser v u rest s hv hu =>
    have htargets := targets_of_reachable hm rfl
    exact (steps_invariant (I := fun t => I t ∧
      t.functionPointerTargets = (initialPoint M cfg).state.functionPointerTargets)
      (fun _ _ ha hab => ⟨hmono (PassState.depths_forwardStep hM ha.1 ha.2 hab) hab.extends,
        hab.targets.trans ha.2⟩) ⟨hs, htargets⟩ (PassState.forwardUser_steps hv hu)).1
  | @kill i rest s hi => exact hscan hs (PassState.identifyKillStore_steps hi s)
  | @forwardLoad ptrs p i rest changed s hp hi =>
    exact hscan hs (PassState.scanLoad_steps true (r := (s, changed)) hi hp)
  | returningCall hf hi =>
    exact hmono (PassState.depths_taintReturningCall hs (upwardMode_of_reachable hm rfl) hf hi)
      (PassState.extends_of_steps (fun _ _ => PassState.UpwardStep.extends)
        (PassState.taintReturningCall_steps hf hi))
  | paramCall hparams hi =>
    exact PassState.depths_upwardCallSite hM hs (upwardMode_of_reachable hm rfl) hparams hi
  | upwardUser hv hu =>
    exact hmono (PassState.depths_upwardUser hM hs hv hu)
      (PassState.extends_of_steps (fun _ _ => PassState.UpwardStep.extends)
        (PassState.upwardUser_steps hv hu))
  | @upwardLoad old ptrs p i rest changed s hp hi =>
    exact hscan hs (PassState.scanLoad_steps false (r := (s, changed)) hi hp)
  | choice _ hbook _ =>
    have hsame := hs.same hbook.sameFacts hbook.valueLevel hbook.functionLevel
    exact hsame.mono fun _ _ hd => hd.mono fun _ hc => hbook.sameFacts.symm.holds hc

theorem depths_of_reachable (hM : M.LocalOperands) {m : Point} (h : Reachable M cfg addr m) :
    m.state.Depths (CallDepth M cfg addr m.state) := by
  refine (Reaches.invariant (I := fun m => Reachable M cfg addr m ∧
    m.state.Depths (CallDepth M cfg addr m.state)) (fun a b ha hab => ⟨ha.1.trans (.single hab), ?_⟩)
    h ⟨.refl _, ?_⟩).2
  · exact depths_of_visit hM ha.1 ha.2 (step_visit (valid_of_reachable ha.1) hab)
  · obtain ⟨targets, hstate⟩ := initialPoint_state M cfg
    rw [hstate]
    refine ⟨fun v level hl => ?_, fun f level hl => ?_, fun c hc => ?_, fun v hv => ?_⟩
    · cases hl
    · cases hl
    · cases c with
      | value v => exact absurd hc (DenseSet.not_mem_empty v)
      | pointer p => exact absurd hc (DenseSet.not_mem_empty p)
      | returns f => exact absurd hc (DenseSet.not_mem_empty f)
      | param f n => exact absurd hc (DenseSet.not_mem_empty n)
    · exact absurd hv (DenseSet.not_mem_empty v)

end Point

/-- **Levels are call depths.**  In every state of a run each level on record is the height of a walk
along calls from a source function or a reader of a tainted global, for a value a walk to its function;
and so is the level that the statistics read for a tainted value. -/
theorem run_levels_are_depths (M : Module) (cfg : Config) (addr : Value → Nat)
    (hM : M.LocalOperands) (m : Point) (h : Reachable M cfg addr m) :
    (∀ f level, m.state.functionLevel.lookup f = some level → CallDepth M cfg addr m.state f level) ∧
    (∀ v level, m.state.valueLevel.lookup v = some level →
      ∃ f, v.getFunction = some f ∧ CallDepth M cfg addr m.state f level) ∧
    ∀ v ∈ m.state.taintedValues, ∃ f, v.getFunction = some f ∧
      CallDepth M cfg addr m.state f (m.state.getLevel v) := by
  have hdepths := Point.depths_of_reachable hM h
  refine ⟨hdepths.functionLevels, hdepths.valueLevels, fun v hv => ?_⟩
  obtain ⟨f, hf, hd⟩ := hdepths.value hv
  exact ⟨f, hf, hdepths.getLevel hf hd⟩

theorem run_levels_are_depths_passThrough :
    ∃ s, run passThroughModule passThroughConfig Value.slot 6 = some s ∧
      CallDepth passThroughModule passThroughConfig Value.slot s 2 2 := by
  have h : (run passThroughModule passThroughConfig Value.slot 6).map
      (fun s => s.functionLevel.lookup 2) = some (some 2) := by decide
  obtain ⟨s, hs, hlevel⟩ := Option.map_eq_some_iff.mp h
  exact ⟨s, hs, (run_levels_are_depths passThroughModule passThroughConfig Value.slot
    (Module.localOperands_of_insts (by decide) fun _ => rfl) _ (run_reaches hs)).1 2 2 hlevel⟩

/-- **Modes confine the levels.**  Without the upward mode no level is above `0`, without the
interprocedural mode none is below `0`; without both, taint stays in the source functions and in those
that it enters through a global, at level `0`. -/
theorem run_levels_confined (M : Module) (cfg : Config) (addr : Value → Nat)
    (hM : M.LocalOperands) (m : Point) (h : Reachable M cfg addr m) (v : Value)
    (hv : v ∈ m.state.taintedValues) :
    (cfg.upwardInterprocMode = false → m.state.getLevel v ≤ 0) ∧
    (cfg.interprocMode = false → 0 ≤ m.state.getLevel v) ∧
    (cfg.upwardInterprocMode = false → cfg.interprocMode = false → m.state.getLevel v = 0 ∧
      ∃ f, v.getFunction = some f ∧ LevelRoot M cfg m.state f) := by
  have hdepths := Point.depths_of_reachable hM h
  obtain ⟨f, hf, hcallee⟩ := hdepths.value hv
  have hwalk : CallDepth M cfg addr m.state f (m.state.getLevel v) := hdepths.getLevel hf hcallee
  refine ⟨fun hup => hwalk.nonpos fun a b d hedge => ?_, fun hdown => hwalk.nonneg fun a b d hedge => ?_,
    fun hup hdown => ?_⟩
  · cases hedge with
    | caller hmode _ _ _ =>
      rw [hup] at hmode
      cases hmode
    | _ => decide
  · cases hedge with
    | caller _ _ _ _ => decide
    | seed hmode _ _ | direct hmode _ _ | indirect hmode _ _ _ _ =>
      rw [hdown] at hmode
      cases hmode
  · obtain ⟨hsource, hzero⟩ := hwalk.of_no_edge fun a b d hedge => by
      cases hedge with
      | caller hmode _ _ _ =>
        rw [hup] at hmode
        cases hmode
      | seed hmode _ _ | direct hmode _ _ | indirect hmode _ _ _ _ =>
        rw [hdown] at hmode
        cases hmode
    exact ⟨hzero, f, hf, hsource⟩

def confinedConfig : Config :=
  { passThroughConfig with interprocMode := false, upwardInterprocMode := false }

theorem run_levels_confined_store :
    ∃ s, run passThroughModule confinedConfig Value.slot 6 = some s ∧
      s.getLevel (.inst ⟨0, 0, 0⟩) = 0 ∧ LevelRoot passThroughModule confinedConfig s 0 := by
  have h : (run passThroughModule confinedConfig Value.slot 6).map
      (fun s => decide (.inst ⟨0, 0, 0⟩ ∈ s.taintedValues)) = some true := by decide
  obtain ⟨s, hs, hmem⟩ := Option.map_eq_some_iff.mp h
  obtain ⟨hzero, f, hf, hsource⟩ := (run_levels_confined passThroughModule confinedConfig Value.slot
    (Module.localOperands_of_insts (by decide) fun _ => rfl) _ (run_reaches hs) (.inst ⟨0, 0, 0⟩)
    (of_decide_eq_true hmem)).2.2 rfl rfl
  cases hf
  exact ⟨s, hs, hzero, hsource⟩

end LinuxAnalysis
