import LinuxAnalysis.IR.OriginFuel
import LinuxAnalysis.Lib.Derivation
import LinuxAnalysis.Pass.Invariant

/-!
# Provenance

The facts a run has on record, the rules they come from, and the proof that no update puts a fact on
record by any other way.
-/

open LinuxAnalysis.Lib

namespace LinuxAnalysis

/-- What LLVM's verifier asks of operands: stores go through pointers, and indices are integers. -/
structure Module.TypedOperands (M : Module) : Prop where
  store : ∀ i value ptr, M.kind i = .store value ptr → ∀ type c, ptr ≠ .constantInt type c
  index : ∀ i type ptr indices, M.kind i = .getElementPtr type ptr indices →
    ∀ v ∈ indices, M.isPointerTy v = false

/-- The test behind `TypedOperands`, for one instruction. -/
def Module.operandsTyped (M : Module) (i : InstId) : Bool :=
  match M.kind i with
  | .store _ (.constantInt ..) => false
  | .getElementPtr _ _ indices => indices.all fun v => !M.isPointerTy v
  | _ => true

theorem Module.typedOperands_of_insts {M : Module} (h : ∀ i ∈ M.insts, M.operandsTyped i = true) :
    M.TypedOperands := by
  refine ⟨fun i value ptr hkind type c hptr => ?_, fun i type ptr indices hkind v hv => ?_⟩
  · have hi : i ∈ M.insts := mem_insts_of_mem_operands (v := ptr) (by
      rw [operands, hkind]
      simp [InstKind.operands])
    have htyped := h i hi
    rw [operandsTyped, hkind, hptr] at htyped
    cases htyped
  · have hi : i ∈ M.insts := mem_insts_of_mem_operands (v := ptr) (by
      rw [operands, hkind]
      simp [InstKind.operands])
    have htyped := h i hi
    simp only [operandsTyped, hkind, List.all_eq_true, Bool.not_eq_true'] at htyped
    exact htyped v hv

inductive TaintFact where
  | value (v : Value)
  | pointer (p : Value)
  | returns (f : Nat)
  | param (f n : Nat)

section Rules

variable (M : Module) (cfg : Config) (addr : Value → Nat)

/-- The functions an indirect call through `called` is resolved to. -/
def ResolvesTo (called : Value) (callee : Nat) : Prop :=
  callee ∈ (initialPoint M cfg).state.indirectTargets M addr called

/-- The rules of the analysis.  A seed has no premise; every other rule has one. -/
inductive TaintRule : List TaintFact → TaintFact → Prop where
  | seed {i ci} : IsSeed M cfg i ci → TaintRule [] (.value (.inst i))
  | seedParameter {i ci n callee} : IsSeed M cfg i ci → PassesTaintTo M i ci n callee →
      cfg.interprocMode = true → HasParameter M callee n → TaintRule [] (.value (.arg ⟨callee, n⟩))
  | use {v i} : i ∈ M.users v → TaintRule [.value v] (.value (.inst i))
  | parameter {v i n callee} : PassesTaintTo M i v n callee → cfg.interprocMode = true →
      HasParameter M callee n → TaintRule [.value v] (.value (.arg ⟨callee, n⟩))
  | indirectParameter {v i n called callee} : PassesTaintThrough M i v n called →
      ResolvesTo M cfg addr called callee → cfg.indirectCallMode = true →
      cfg.interprocMode = true → HasParameter M callee n →
      TaintRule [.value v] (.value (.arg ⟨callee, n⟩))
  | load {p i} : i ∈ M.insts → PassState.loadMatches M p i = true →
      TaintRule [.pointer p] (.value (.inst i))
  | call {f i} : i ∈ M.insts → M.calledFunction i = some f →
      TaintRule [.returns f] (.value (.inst i))
  | storeConstant {i ci ptr} : IsSeed M cfg i ci → M.kind i = .store ci ptr →
      TaintRule [] (.pointer (M.stripPointerCasts ptr))
  | store {v i ptr} : M.kind i = .store v ptr →
      TaintRule [.value v] (.pointer (M.stripPointerCasts ptr))
  | actual {f n i actual var} : PassesTaintTo M i actual n f →
      PassState.pointedVar M actual = some var → TaintRule [.param f n] (.pointer var)
  | field {f n i actual var gep type indices m store value} : PassesTaintTo M i actual n f →
      PassState.pointedVar M actual = some var → PassState.isStructAlloca M var = true →
      M.kind gep = .getElementPtr type var indices →
      -- the fields on record for the parameter when the call is looked at
      Reachable M cfg addr m → m.state.SelectsField f n indices →
      M.kind store = .store value (.inst gep) → M.isAlloca (M.stripPointerCasts value) = true →
      TaintRule [.param f n] (.pointer (M.stripPointerCasts value))
  | returnConstant {i ci} : IsSeed M cfg i ci → M.kind i = .ret (some ci) →
      TaintRule [] (.returns i.func)
  | returnValue {v i} : M.kind i = .ret (some v) → TaintRule [.value v] (.returns i.func)
  | storeConstantThrough {i ci ptr a} : IsSeed M cfg i ci → M.kind i = .store ci ptr →
      M.getPointerParameterOrigin ptr = some a → TaintRule [] (.param i.func a.no)
  | storeThrough {v i ptr a} : M.kind i = .store v ptr →
      M.getPointerParameterOrigin ptr = some a → TaintRule [.value v] (.param i.func a.no)
  | passThrough {f n i actual a} : PassesTaintTo M i actual n f →
      M.getPointerParameterOrigin actual = some a → TaintRule [.param f n] (.param i.func a.no)

end Rules

namespace PassState

/-- The facts on record in a state. -/
def Holds (s : PassState) : TaintFact → Prop
  | .value v => v ∈ s.taintedValues
  | .pointer p => p ∈ s.taintedPointers
  | .returns f => f ∈ s.functionsReturningTaint
  | .param f n => s.TaintsParam f n

theorem Extends.holds {s t : PassState} (h : s.Extends t) (c : TaintFact) (hc : s.Holds c) :
    t.Holds c := by
  cases c with
  | value v => exact h.taintedValues v hc
  | pointer p => exact h.taintedPointers p hc
  | returns f => exact h.functionsReturningTaint f hc
  | param f n => exact h.taintsParam f n hc

/-- The sets and records of `t` that hold facts are those of `s`. -/
structure SameFacts (s t : PassState) : Prop where
  values : t.taintedValues = s.taintedValues
  pointers : t.taintedPointers = s.taintedPointers
  returning : t.functionsReturningTaint = s.functionsReturningTaint
  params : t.functionsTaintingPointerParams = s.functionsTaintingPointerParams

theorem SameFacts.holds {s t : PassState} (h : s.SameFacts t) {c : TaintFact} (hc : t.Holds c) :
    s.Holds c := by
  cases c with
  | value v =>
    show v ∈ s.taintedValues
    rw [← h.values]
    exact hc
  | pointer p =>
    show p ∈ s.taintedPointers
    rw [← h.pointers]
    exact hc
  | returns f =>
    show f ∈ s.functionsReturningTaint
    rw [← h.returning]
    exact hc
  | param f n =>
    show s.TaintsParam f n
    rw [TaintsParam, ← h.params]
    exact hc

theorem SameFacts.symm {s t : PassState} (h : s.SameFacts t) : t.SameFacts s :=
  ⟨h.values.symm, h.pointers.symm, h.returning.symm, h.params.symm⟩

/-- `c` is the one fact that `t` may have beyond those of `s`. -/
def AddsFact (s t : PassState) (c : TaintFact) : Prop := ∀ d, t.Holds d → s.Holds d ∨ d = c

theorem AddsFact.trans_same {s t u : PassState} {c : TaintFact} (h : s.SameFacts t)
    (ht : t.AddsFact u c) : s.AddsFact u c :=
  fun d hd => (ht d hd).imp_left h.holds

theorem AddsFact.same_trans {s t u : PassState} {c : TaintFact} (hs : s.AddsFact t c)
    (h : t.SameFacts u) : s.AddsFact u c :=
  fun d hd => hs d (h.holds hd)

theorem addsFact_taintValue (v : Value) (s : PassState) : s.AddsFact (s.taintValue v) (.value v) := by
  intro d hd
  cases d with
  | value w =>
    rcases DenseSet.mem_insert.mp hd with rfl | hw
    · exact .inr rfl
    · exact .inl hw
  | _ => exact .inl hd

theorem addsFact_taintPointer (p : Value) (i : InstId) (s : PassState) :
    s.AddsFact (s.taintPointer p i) (.pointer p) := by
  unfold taintPointer
  split
  · exact fun d hd => .inl hd
  · intro d hd
    cases d with
    | pointer q =>
      rcases DenseSet.mem_insert.mp hd with rfl | hq
      · exact .inr rfl
      · exact .inl hq
    | _ => exact .inl hd

theorem addsFact_addFunctionReturningTaint (f : Nat) (s : PassState) :
    s.AddsFact (s.addFunctionReturningTaint f) (.returns f) := by
  intro d hd
  cases d with
  | returns g =>
    rcases DenseSet.mem_insert.mp hd with rfl | hg
    · exact .inr rfl
    · exact .inl hg
  | _ => exact .inl hd

theorem addsFact_addTaintingPointerParam (f n : Nat) (s : PassState) :
    s.AddsFact (s.addTaintingPointerParam f n) (.param f n) := by
  intro d hd
  cases d with
  | param g m =>
    rcases taintsParam_addTaintingPointerParam.mp hd with ⟨rfl, rfl⟩ | hg
    · exact .inr rfl
    · exact .inl hg
  | _ => exact .inl hd

theorem sameFacts_initFunctionLevel (f : Nat) (level : Int) (s : PassState) :
    s.SameFacts (s.initFunctionLevel f level) := by
  unfold initFunctionLevel
  split <;> exact ⟨rfl, rfl, rfl, rfl⟩

theorem sameFacts_ensureLevelSet (i : InstId) (s : PassState) :
    s.SameFacts (s.ensureLevelSet i) := by
  unfold ensureLevelSet
  split
  · exact ⟨rfl, rfl, rfl, rfl⟩
  · split <;> exact ⟨rfl, rfl, rfl, rfl⟩

theorem sameFacts_recordFieldAccess (f n : Nat) (fields : List Int) (s : PassState) :
    s.SameFacts (s.recordFieldAccess f n fields) := by
  unfold recordFieldAccess
  split <;> exact ⟨rfl, rfl, rfl, rfl⟩

theorem addsFact_taintParameter (a : ArgId) (level : Int) (s : PassState) :
    s.AddsFact (s.taintParameter a level) (.value (.arg a)) := by
  unfold taintParameter
  split
  · exact fun d hd => .inl hd
  · have hset : s.SameFacts ((s.setValueLevel (.arg a) (level - 1)).setFunctionLevel a.func
        (level - 1)) := ⟨rfl, rfl, rfl, rfl⟩
    exact ((addsFact_taintValue (.arg a) _).trans_same hset).same_trans ⟨rfl, rfl, rfl, rfl⟩

variable {M : Module} {cfg : Config} {addr : Value → Nat}

/-- New facts have their rule and its premises in the state before. -/
def AddsJustified (M : Module) (cfg : Config) (addr : Value → Nat) (s t : PassState) : Prop :=
  ∀ d, t.Holds d → s.Holds d ∨ Justified (TaintRule M cfg addr) s.Holds d

theorem AddsFact.justified {s t : PassState} {c : TaintFact} {premises : List TaintFact}
    (h : s.AddsFact t c) (hrule : TaintRule M cfg addr premises c)
    (hprem : ∀ p ∈ premises, s.Holds p) : s.AddsJustified M cfg addr t := by
  intro d hd
  rcases h d hd with hold | rfl
  · exact .inl hold
  · exact .inr ⟨premises, hrule, hprem⟩

theorem SameFacts.justified {s t : PassState} (h : s.SameFacts t) :
    s.AddsJustified M cfg addr t := fun _ hd => .inl (h.holds hd)

theorem holds_one {s : PassState} {c : TaintFact} (h : s.Holds c) : ∀ p ∈ [c], s.Holds p := by
  intro p hp
  rw [List.mem_singleton] at hp
  exact hp ▸ h

theorem holds_nil {s : PassState} : ∀ p ∈ ([] : List TaintFact), s.Holds p := by
  intro p hp
  cases hp

/-! ## One case for every update -/

/-- The constant operand of a seed store is the stored value. -/
theorem seed_store_value (hM : M.TypedOperands) {i : InstId} {ci value ptr : Value}
    (hseed : IsSeed M cfg i ci) (hkind : M.kind i = .store value ptr) : value = ci := by
  have hop := hseed.operand
  rw [Module.operands, hkind] at hop
  obtain ⟨type, hconst⟩ := hseed.constant
  rcases List.mem_cons.mp hop with hvalue | hptr
  · exact hvalue.symm
  · rw [List.mem_singleton.mp hptr] at hconst
    exact absurd hconst (hM.store i value ptr hkind type _)

theorem seedStep_justified (hM : M.TypedOperands) {s t : PassState} (h : SeedStep M cfg s t) :
    s.AddsJustified M cfg addr t := by
  cases h with
  | @source i ci hseed _ =>
    have hset : (s.taintValue (.inst i)).SameFacts
        (((s.taintValue (.inst i)).setFunctionLevel i.func 0).setValueLevel (.inst i) 0) :=
      ⟨rfl, rfl, rfl, rfl⟩
    exact ((addsFact_taintValue _ s).same_trans hset).justified (.seed hseed) holds_nil
  | returned hseed _ hkind =>
    exact (addsFact_addFunctionReturningTaint _ s).justified (.returnConstant hseed hkind) holds_nil
  | @parameterStore i ci value ptr a hseed _ hkind horigin =>
    have hvalue := seed_store_value hM hseed hkind
    subst hvalue
    exact ((addsFact_addTaintingPointerParam _ _ s).same_trans
      (sameFacts_recordFieldAccess _ _ _ _)).justified (.storeConstantThrough hseed hkind horigin)
      holds_nil
  | pointer hseed _ hkind =>
    have hvalue := seed_store_value hM hseed hkind
    subst hvalue
    exact (addsFact_taintPointer _ _ s).justified (.storeConstant hseed hkind) holds_nil
  | parameter hseed _ hcall hmode hparam _ =>
    exact (addsFact_taintParameter _ _ s).justified (.seedParameter hseed hcall hmode hparam)
      holds_nil

theorem forwardStep_justified {s t : PassState}
    (htargets : s.functionPointerTargets = (initialPoint M cfg).state.functionPointerTargets)
    (h : ForwardStep M cfg addr s t) : s.AddsJustified M cfg addr t := by
  cases h with
  | callLevel _ _ _ _ => exact SameFacts.justified ⟨rfl, rfl, rfl, rfl⟩
  | parameter hv _ hcall hmode hparam _ =>
    rcases hcall with hdirect | ⟨hindirect, called, hthrough, htarget⟩
    · exact (addsFact_taintParameter _ _ s).justified (.parameter hdirect hmode hparam)
        (holds_one hv)
    · rw [indirectTargets_congr htargets] at htarget
      exact (addsFact_taintParameter _ _ s).justified
        (.indirectParameter hthrough htarget hindirect hmode hparam) (holds_one hv)
  | returned hv _ hkind =>
    exact (addsFact_addFunctionReturningTaint _ s).justified (.returnValue hkind) (holds_one hv)
  | parameterStore hv _ hkind horigin =>
    exact (addsFact_addTaintingPointerParam _ _ s).justified (.storeThrough hkind horigin)
      (holds_one hv)
  | pointer hv _ hkind _ =>
    exact ((addsFact_taintPointer _ _ s).same_trans ⟨rfl, rfl, rfl, rfl⟩).justified (.store hkind)
      (holds_one hv)
  | @use v i hv hi _ =>
    have hset : s.SameFacts (s.setValueLevel (.inst i) (s.getLevel v)) := ⟨rfl, rfl, rfl, rfl⟩
    exact ((addsFact_taintValue (.inst i) _).trans_same hset).justified (.use hi) (holds_one hv)

theorem scanStep_justified {s t : PassState} (h : ScanStep M s t) :
    s.AddsJustified M cfg addr t := by
  cases h with
  | kill _ _ => exact SameFacts.justified ⟨rfl, rfl, rfl, rfl⟩
  | level _ _ _ _ => exact (sameFacts_ensureLevelSet _ s).justified
  | load hi hp hmatch _ =>
    exact ((addsFact_taintValue _ _).trans_same (sameFacts_ensureLevelSet _ s)).justified
      (.load hi hmatch) (holds_one hp)

theorem isPointerTy_of_isStructAlloca {v : Value} (h : isStructAlloca M v = true) :
    M.isPointerTy v = true := by
  unfold isStructAlloca at h
  split at h
  next i =>
    split at h
    next hkind =>
      simp only [Module.isPointerTy, hkind]
    next => cases h
  next => cases h

theorem upwardStep_justified (hM : M.TypedOperands) {m : Point} (hm : Reachable M cfg addr m)
    {s t : PassState} (h : UpwardStep M m.state s t) : s.AddsJustified M cfg addr t := by
  cases h with
  | @call f i hf hi hcall _ =>
    have hset : s.SameFacts (s.setValueLevel (.inst i) (s.calleeLevel f + 1)) :=
      ⟨rfl, rfl, rfl, rfl⟩
    exact (((addsFact_taintValue (.inst i) _).trans_same
      (sameFacts_initFunctionLevel _ _ _)).trans_same hset).justified (.call hi hcall) (holds_one hf)
  | @passThrough f n i actual a hn hi hcall horigin _ =>
    have hdiscover : s.AddsFact (s.discoverTaintingPointerParam i.func a.no) (.param i.func a.no) :=
      (addsFact_addTaintingPointerParam _ _ s).same_trans ⟨rfl, rfl, rfl, rfl⟩
    exact (hdiscover.same_trans (sameFacts_initFunctionLevel _ _ _)).justified
      (.passThrough hcall horigin) (holds_one hn)
  | pointed hn _ hcall hvar _ =>
    exact ((addsFact_taintPointer _ _ _).trans_same (sameFacts_initFunctionLevel _ _ s)).justified
      (.actual hcall hvar) (holds_one hn)
  | @field f n i actual var gep type base indices _ _ hn _ hcall hvar hstruct hgep hkind hselects _
      hstore halloca =>
    -- the variable is a pointer, so it is the base of the GEP and no index
    have hbase : base = var := by
      have hop := (Module.mem_users.mp hgep).2
      rw [Module.operands, hkind] at hop
      rcases List.mem_cons.mp hop with hbase | hindex
      · exact hbase.symm
      · have hptr := isPointerTy_of_isStructAlloca hstruct
        rw [hM.index gep type base indices hkind var hindex] at hptr
        cases hptr
    subst hbase
    exact (addsFact_taintPointer _ _ s).justified
      (.field hcall hvar hstruct hkind hm hselects hstore halloca) (holds_one hn)
  | @use v i hv hi _ =>
    have hset : s.SameFacts (s.setValueLevel (.inst i) (s.getLevel v)) := ⟨rfl, rfl, rfl, rfl⟩
    exact ((addsFact_taintValue (.inst i) _).trans_same hset).justified (.use hi) (holds_one hv)
  | store hv _ hkind =>
    exact (addsFact_taintPointer _ _ s).justified (.store hkind) (holds_one hv)
  | parameterStore hv _ hkind horigin =>
    exact ((addsFact_addTaintingPointerParam _ _ s).same_trans ⟨rfl, rfl, rfl, rfl⟩).justified
      (.storeThrough hkind horigin) (holds_one hv)
  | fields => exact (sameFacts_recordFieldAccess _ _ _ s).justified
  | returned hv _ hkind =>
    exact ((addsFact_addFunctionReturningTaint _ s).same_trans ⟨rfl, rfl, rfl, rfl⟩).justified
      (.returnValue hkind) (holds_one hv)

/-! ## The table of function pointers -/

theorem targets_taintPointer (p : Value) (i : InstId) (s : PassState) :
    (s.taintPointer p i).functionPointerTargets = s.functionPointerTargets := by
  unfold taintPointer
  split <;> rfl

theorem targets_taintParameter (a : ArgId) (level : Int) (s : PassState) :
    (s.taintParameter a level).functionPointerTargets = s.functionPointerTargets := by
  unfold taintParameter
  split <;> rfl

theorem targets_ensureLevelSet (i : InstId) (s : PassState) :
    (s.ensureLevelSet i).functionPointerTargets = s.functionPointerTargets := by
  unfold ensureLevelSet
  split
  · rfl
  · split <;> rfl

theorem SeedStep.targets {s t : PassState} (h : SeedStep M cfg s t) :
    t.functionPointerTargets = s.functionPointerTargets := by
  cases h with
  | source _ _ => rfl
  | returned _ _ _ => rfl
  | parameterStore _ _ _ _ =>
    unfold recordParameterStore recordFieldAccess
    split <;> rfl
  | pointer _ _ _ => exact targets_taintPointer _ _ s
  | parameter _ _ _ _ _ _ => exact targets_taintParameter _ _ s

theorem ForwardStep.targets {s t : PassState} (h : ForwardStep M cfg addr s t) :
    t.functionPointerTargets = s.functionPointerTargets := by
  cases h with
  | callLevel _ _ _ _ => rfl
  | parameter _ _ _ _ _ _ => exact targets_taintParameter _ _ s
  | returned _ _ _ => rfl
  | parameterStore _ _ _ _ => rfl
  | pointer _ _ _ _ => exact targets_taintPointer _ _ s
  | use _ _ _ => rfl

theorem ScanStep.targets {s t : PassState} (h : ScanStep M s t) :
    t.functionPointerTargets = s.functionPointerTargets := by
  cases h with
  | kill _ _ => rfl
  | level _ _ _ _ => exact targets_ensureLevelSet _ s
  | load _ _ _ _ => exact targets_ensureLevelSet _ s

theorem Bookkeeping.sameFacts {s t : PassState} (h : s.Bookkeeping t) : s.SameFacts t :=
  ⟨h.taintedValues, h.taintedPointers, h.functionsReturningTaint, h.functionsTaintingPointerParams⟩

/-! ## Every point of a run -/

/-- The facts on record at a point of a run are derived, each by a rule whose premise is on record. -/
theorem grounded_of_reachable (hM : M.TypedOperands) {m : Point} (h : Reachable M cfg addr m) :
    Grounded (TaintRule M cfg addr) m.state.Holds := by
  let G := fun s : PassState => Grounded (TaintRule M cfg addr) s.Holds
  -- the forward phase needs the pointer targets as well, which no step changes
  let F := fun s : PassState => G s ∧
    s.functionPointerTargets = (initialPoint M cfg).state.functionPointerTargets
  -- a step keeps what holds and justifies what it adds
  have hadd {s t : PassState} (hs : G s) (hext : s.Extends t) (hnew : s.AddsJustified M cfg addr t) :
      G t := Grounded.step hs hext.holds hnew
  have hsame {s t : PassState} (hs : G s) (h : s.Bookkeeping t) : G t :=
    Grounded.step hs (fun _ hc => h.sameFacts.symm.holds hc) h.sameFacts.justified
  have hinv := Point.invariant (F := F) (U := G) (M := M) (m := initialPoint M cfg)
    (fun s t hs hst => ⟨hadd hs.1 hst.extends (seedStep_justified hM hst), hst.targets.trans hs.2⟩)
    (fun s t hs hst => ⟨hadd hs.1 hst.extends (forwardStep_justified hs.2 hst),
      hst.targets.trans hs.2⟩)
    (fun s t hs hst => ⟨hadd hs.1 hst.extends (scanStep_justified hst), hst.targets.trans hs.2⟩)
    (fun s t hs hst => ⟨hsame hs.1 hst, hst.functionPointerTargets.trans hs.2⟩)
    (fun s hs => hs.1)
    (fun m s t hm hs hst => hadd hs hst.extends (upwardStep_justified hM hm hst))
    (fun s t hs hst => hadd hs hst.extends (scanStep_justified hst))
    (fun s t hs hst => hsame hs hst)
    Point.valid_initialPoint (fun _ => ⟨?_, rfl⟩) (fun hup => by cases hup) h
  · cases hphase : m.control.upward with
    | false => exact (hinv.1 hphase).1
    | true => exact hinv.2 hphase
  · -- nothing is on record at the start
    obtain ⟨targets, hstate⟩ := Point.initialPoint_state M cfg
    intro c hc
    rw [hstate] at hc
    cases c with
    | value v => exact absurd hc (DenseSet.not_mem_empty v)
    | pointer p => exact absurd hc (DenseSet.not_mem_empty p)
    | returns f => exact absurd hc (DenseSet.not_mem_empty f)
    | param f n => exact absurd hc (DenseSet.not_mem_empty n)

end PassState

/-- **Provenance.**  In every state of a run each tainted value has a finite derivation from a seed by
the rules of the analysis, and each tainted pointer comes from a store or an argument by a rule whose
premise, a tainted value or a parameter on record, is in that state. -/
theorem run_provenance (M : Module) (cfg : Config) (addr : Value → Nat) (hM : M.TypedOperands)
    (m : Point) (h : Reachable M cfg addr m) :
    (∀ v ∈ m.state.taintedValues, Derivable (TaintRule M cfg addr) (.value v)) ∧
    ∀ p ∈ m.state.taintedPointers, Derivable (TaintRule M cfg addr) (.pointer p) ∧
      Justified (TaintRule M cfg addr) m.state.Holds (.pointer p) := by
  have hgrounded := PassState.grounded_of_reachable hM h
  exact ⟨fun v hv => (hgrounded (.value v) hv).1, fun p hp => hgrounded (.pointer p) hp⟩

theorem run_provenance_passThrough : ∃ s, run passThroughModule passThroughConfig Value.slot 6 = some s ∧
    .inst ⟨2, 0, 0⟩ ∈ s.taintedPointers ∧
    Derivable (TaintRule passThroughModule passThroughConfig Value.slot)
      (.pointer (.inst ⟨2, 0, 0⟩)) := by
  have h : (run passThroughModule passThroughConfig Value.slot 6).map
      (fun s => decide (.inst ⟨2, 0, 0⟩ ∈ s.taintedPointers)) = some true := by decide
  obtain ⟨s, hs, hval⟩ := Option.map_eq_some_iff.mp h
  have hprovenance := run_provenance passThroughModule passThroughConfig Value.slot
    (Module.typedOperands_of_insts (by decide)) _ (run_reaches hs)
  exact ⟨s, hs, of_decide_eq_true hval, (hprovenance.2 _ (of_decide_eq_true hval)).1⟩

end LinuxAnalysis
