import LinuxAnalysis.Pass.LevelOrder
import LinuxAnalysis.Pass.SeedMonotone

/-!
# What the analysis finds where nothing is stored

While no tainted value goes through memory, the worklists compute a closure that can be said without
them: what flows down from the seeds, and from there what the callers of returning functions pass
on.  The order of the visits, the turns of the loops and the addresses have no part in it.
-/

open LinuxAnalysis.Lib

namespace LinuxAnalysis

/-! ## 1. The relations -/

section Relation

variable (M : Module) (cfg : Config) (addr : Value → Nat)

/-- `v` is reached from the seeds on the way down. -/
def Descended (v : Value) : Prop :=
  ∃ seed ∈ (seedWorklist M cfg).taintedValues, Relation.ReflTransGen (FlowsTo M cfg addr) seed v

/-- `f` returns a seed constant, or a value reached on the way down. -/
def DescendedReturn (f : Nat) : Prop :=
  f ∈ (seedWorklist M cfg).functionsReturningTaint ∨
    ∃ v u, Descended M cfg addr v ∧ u ∈ M.users v ∧ M.kind u = .ret (some v) ∧ u.func = f

/-- The rules of the way up.  They add to what is reached on the way down and never go back to it. -/
inductive AscentRule : List TaintFact → TaintFact → Prop where
  | descended {f} : DescendedReturn M cfg addr f → AscentRule [] (.returns f)
  | call {f i} : i ∈ M.insts → M.calledFunction i = some f → ¬ Descended M cfg addr (.inst i) →
      AscentRule [.returns f] (.value (.inst i))
  | use {v u} : u ∈ M.users v → ¬ Descended M cfg addr (.inst u) →
      AscentRule [.value v] (.value (.inst u))
  | returned {v u} : u ∈ M.users v → ¬ Descended M cfg addr (.inst u) → M.kind u = .ret (some v) →
      AscentRule [.value v] (.returns u.func)

/-- `v` is reached on the way up. -/
def Ascended (v : Value) : Prop := Derivable (AscentRule M cfg addr) (.value v)

/-- `f` hands a value to its callers on the way up. -/
def AscendedReturn (f : Nat) : Prop := Derivable (AscentRule M cfg addr) (.returns f)

/-- No seed is a store, and nothing that is reached is stored. -/
structure NothingStored : Prop where
  seeds : ∀ i ∈ M.insts, ∀ value ptr, M.kind i = .store value ptr →
    .inst i ∉ (seedWorklist M cfg).taintedValues
  descended : ∀ v, Descended M cfg addr v → ∀ i ∈ M.insts, ∀ ptr, M.kind i ≠ .store v ptr
  ascended : cfg.upwardInterprocMode = true → ∀ v, Ascended M cfg addr v →
    ∀ i ∈ M.insts, ∀ ptr, M.kind i ≠ .store v ptr

end Relation

/-! ## 2. The way down -/

section Down

variable {M : Module} {cfg : Config} {addr : Value → Nat} {fuel : Nat} {s : PassState}

theorem descended_of_carries {v : Value} {level : Int} (h : Carries M cfg addr v level) :
    Descended M cfg addr v := by
  induction h with
  | seed hv _ => exact ⟨_, hv, .refl⟩
  | use _ hu hvia _ ih =>
    obtain ⟨seed, hseed, hway⟩ := ih
    exact ⟨seed, hseed, hway.tail ⟨_, hu, hvia⟩⟩
  | parameter _ hu henter _ ih =>
    obtain ⟨seed, hseed, hway⟩ := ih
    exact ⟨seed, hseed, hway.tail ⟨_, hu, .inr ⟨_, rfl, henter⟩⟩⟩

theorem NothingStored.notStored (h : NothingStored M cfg addr) : NotStored M cfg addr :=
  fun v _ hv => h.descended v (descended_of_carries hv)

/-- **The forward phase is the closure under flow.** -/
theorem tainted_iff_descended (hstored : NothingStored M cfg addr)
    (h : forwardPhase M cfg addr fuel = some s) {v : Value} :
    v ∈ s.taintedValues ↔ Descended M cfg addr v := by
  constructor
  · intro hv
    obtain ⟨level, hcarries, _⟩ := (forwardPhase_downward h hstored.seeds hstored.notStored).carries hv
    exact descended_of_carries hcarries
  · rintro ⟨seed, hseed, hway⟩
    induction hway with
    | refl => exact (seeds_subset_forwardPhase h).1 _ hseed
    | tail _ hflow ih => exact forwardPhase_flowsTo h ih hflow

theorem returning_iff_descendedReturn (hstored : NothingStored M cfg addr)
    (h : forwardPhase M cfg addr fuel = some s) {f : Nat} :
    f ∈ s.functionsReturningTaint ↔ DescendedReturn M cfg addr f := by
  have hdown := forwardPhase_downward h hstored.seeds hstored.notStored
  constructor
  · intro hf
    rcases hdown.returning f hf with hseed | ⟨v, level, hv, u, hu, hkind, rfl⟩
    · exact .inl hseed
    · exact .inr ⟨v, u, descended_of_carries hv, hu, hkind, rfl⟩
  · rintro (hseed | ⟨v, u, hv, hu, hkind, rfl⟩)
    · exact (seeds_subset_forwardPhase h).2 _ hseed
    · obtain ⟨level, hcarries, _⟩ := hdown.carries ((tainted_iff_descended hstored h).mpr hv)
      exact mem_forwardPhase_of_carriesReturn h ⟨v, level, hcarries, u, hu, hkind, rfl⟩

end Down

/-! ## 3. The way up -/

section Up

variable {M : Module} {cfg : Config} {addr : Value → Nat} {fuel : Nat} {s t : PassState}

theorem Ascended.isInst {v : Value} (h : Ascended M cfg addr v) :
    ∃ i, v = .inst i ∧ ¬ Descended M cfg addr (.inst i) := by
  cases h with
  | intro hrule _ =>
    cases hrule with
    | call _ _ hnew => exact ⟨_, rfl, hnew⟩
    | use _ hnew => exact ⟨_, rfl, hnew⟩

namespace PassState

/-- A state of the upward phase that began with the values `before`. -/
structure Ascending (M : Module) (cfg : Config) (addr : Value → Nat) (before : DenseSet Value)
    (s : PassState) : Prop where
  kept : before ⊆ s.taintedValues
  values : ∀ v ∈ s.taintedValues, v ∈ before ∨ Ascended M cfg addr v
  returning : ∀ f ∈ s.functionsReturningTaint, AscendedReturn M cfg addr f
  -- a return that was tainted on the way up has its function on record
  returns : ∀ u value, M.kind u = .ret (some value) → .inst u ∈ s.taintedValues →
    .inst u ∉ before → u.func ∈ s.functionsReturningTaint
  pointers : ∀ p, p ∉ s.taintedPointers
  params : s.functionsTaintingPointerParams = ∅

variable {before : DenseSet Value}

theorem Ascending.same (hs : s.Ascending M cfg addr before) (h : s.SameFacts t) :
    t.Ascending M cfg addr before where
  kept := h.values ▸ hs.kept
  values v hv := hs.values v (h.values ▸ hv)
  returning f hf := hs.returning f (h.returning ▸ hf)
  returns u value hkind hu hnew := by
    rw [h.returning]
    exact hs.returns u value hkind (h.values ▸ hu) hnew
  pointers p := h.pointers ▸ hs.pointers p
  params := h.params.trans hs.params

/-- A value is tainted that is no return. -/
theorem Ascending.taint (hs : s.Ascending M cfg addr before) {i : InstId}
    (hret : ∀ value, M.kind i ≠ .ret (some value)) (hi : Ascended M cfg addr (.inst i)) :
    (s.taintValue (.inst i)).Ascending M cfg addr before where
  kept v hv := DenseSet.mem_insert.mpr (.inr (hs.kept v hv))
  values v hv := by
    rcases DenseSet.mem_insert.mp hv with rfl | hv
    · exact .inr hi
    · exact hs.values v hv
  returning := hs.returning
  returns u value hkind hu hnew := by
    rcases DenseSet.mem_insert.mp hu with he | hu
    · cases he
      exact absurd hkind (hret value)
    · exact hs.returns u value hkind hu hnew
  pointers := hs.pointers
  params := hs.params

theorem Ascending.taintReturningCall (hs : s.Ascending M cfg addr before)
    (hbefore : ∀ v, Descended M cfg addr v → v ∈ before) {f : Nat} {i : InstId}
    (hf : f ∈ s.functionsReturningTaint) (hi : i ∈ M.insts) :
    (s.taintReturningCall M f i).Ascending M cfg addr before := by
  unfold PassState.taintReturningCall
  split
  next hcall =>
    split
    next => exact hs
    next hnew =>
      obtain ⟨called, same, args, bundles, hkind⟩ := kind_of_calledFunction hcall
      have hret (value : Value) : M.kind i ≠ .ret (some value) := by
        rw [hkind]
        exact fun h => by cases h
      have hrule : AscentRule M cfg addr [.returns f] (.value (.inst i)) :=
        .call hi hcall fun h => hnew (hs.kept _ (hbefore _ h))
      have hlevel : s.SameFacts ((s.setValueLevel (.inst i) (s.calleeLevel f + 1)).initFunctionLevel
          i.func (s.calleeLevel f + 1)) := by
        obtain ⟨h₁, h₂, h₃, h₄⟩ := sameFacts_initFunctionLevel i.func (s.calleeLevel f + 1)
          (s.setValueLevel (.inst i) (s.calleeLevel f + 1))
        exact ⟨h₁, h₂, h₃, h₄⟩
      exact (hs.same hlevel).taint hret (.of_one hrule (hs.returning f hf))
  next => exact hs

theorem upwardCallSite_of_no_params {f : Nat} {params : DenseSet Nat} (h : ∀ n, n ∉ params)
    (i : InstId) (s : PassState) : s.upwardCallSite M f params i = s := by
  have helems : params.elems = [] := List.eq_nil_iff_forall_not_mem.mpr h
  unfold upwardCallSite
  split
  · split
    · rw [helems]
      rfl
    · rfl
  · rfl

theorem operands_ret {u : InstId} {value v : Value} (hkind : M.kind u = .ret (some value))
    (hu : u ∈ M.users v) : value = v := by
  have hop := (Module.mem_users.mp hu).2
  rw [Module.operands, hkind] at hop
  exact (List.mem_singleton.mp hop).symm

/-- One visit of the upward worklist. -/
theorem Ascending.upwardUser (hs : s.Ascending M cfg addr before)
    (hbefore : ∀ v, Descended M cfg addr v → v ∈ before) {v : Value} (hv : Ascended M cfg addr v)
    (hstore : ∀ i ∈ M.insts, ∀ ptr, M.kind i ≠ .store v ptr) {u : InstId} (hu : u ∈ M.users v) :
    (s.upwardUser M v u).Ascending M cfg addr before := by
  unfold PassState.upwardUser
  split
  next => exact hs
  next hnew =>
    have hdown : ¬ Descended M cfg addr (.inst u) := fun h => hnew (hs.kept _ (hbefore _ h))
    have huse : Ascended M cfg addr (.inst u) := .of_one (.use hu hdown) hv
    have hlevel : s.SameFacts (s.setValueLevel (.inst u) (s.getLevel v)) := ⟨rfl, rfl, rfl, rfl⟩
    dsimp only
    rw [processStoreForTaint_of_no_store (hstore u (Module.mem_users.mp hu).1)]
    unfold upwardReturn
    split
    next value hkind =>
      obtain rfl := operands_ret hkind hu
      rw [if_pos rfl]
      -- the return is tainted and its function recorded in one visit
      refine ⟨fun w hw => DenseSet.mem_insert.mpr (.inr (hs.kept w hw)), fun w hw => ?_,
        fun f hf => ?_, fun i w hret hi hfresh => ?_, hs.pointers, hs.params⟩
      · rcases DenseSet.mem_insert.mp hw with rfl | hw
        · exact .inr huse
        · exact hs.values w hw
      · rcases DenseSet.mem_insert.mp hf with rfl | hf
        · exact .of_one (.returned hu hdown hkind) hv
        · exact hs.returning f hf
      · rcases DenseSet.mem_insert.mp hi with he | hi
        · cases he
          exact DenseSet.mem_insert.mpr (.inl rfl)
        · exact DenseSet.mem_insert.mpr (.inr (hs.returns i w hret hi hfresh))
    next hret => exact (hs.same hlevel).taint hret huse

/-- One step of the upward phase. -/
theorem Ascending.visit {m : Point} (hs : m.state.Ascending M cfg addr before)
    (hphase : m.control.upward = true) (hbefore : ∀ v, Descended M cfg addr v → v ∈ before)
    (hstored : ∀ v, Ascended M cfg addr v → ∀ i ∈ M.insts, ∀ ptr, M.kind i ≠ .store v ptr)
    (hfresh : ∀ old v rest, m.control = .upwardUsers old v rest → v ∉ before)
    (h : Visit M cfg addr m t) : t.Ascending M cfg addr before := by
  cases h with
  | seed _ _ | forwardUser _ _ | kill _ | forwardLoad _ _ => cases hphase
  | returningCall hf hi => exact hs.taintReturningCall hbefore hf hi
  | @paramCall old e i rest s hparams hi =>
    have hnone (n : Nat) : n ∉ e.2 := by
      intro hn
      have hparam := hparams n hn
      rw [TaintsParam, show s.functionsTaintingPointerParams = ∅ from hs.params] at hparam
      exact DenseSet.not_mem_empty n hparam
    rw [upwardCallSite_of_no_params hnone]
    exact hs
  | @upwardUser old v u rest s hv hu =>
    have hup : Ascended M cfg addr v :=
      (hs.values v hv).resolve_left (hfresh old v (u :: rest) rfl)
    exact hs.upwardUser hbefore hup (hstored v hup) hu
  | @upwardLoad old ptrs p i rest changed s hp _ => exact absurd hp (hs.pointers p)
  | choice _ hbook _ => exact hs.same hbook.sameFacts

end PassState

/-! ## 4. The end of a run -/

theorem run_ascending (hstored : NothingStored M cfg addr) (hup : cfg.upwardInterprocMode = true)
    (hs : forwardPhase M cfg addr fuel = some s) (ht : run M cfg addr fuel = some t) :
    t.Ascending M cfg addr s.taintedValues := by
  have hentry := forwardPhase_reaches hs
  have hdown := forwardPhase_downward hs hstored.seeds hstored.notStored
  have hstart : s.Ascending M cfg addr s.taintedValues :=
    { kept := DenseSet.Subset.refl _
      values := fun v hv => .inl hv
      returning := fun f hf => .of_nil (.descended ((returning_iff_descendedReturn hstored hs).mp hf))
      returns := fun u value _ hu hnew => absurd hu hnew
      pointers := hdown.pointers
      params := hdown.params }
  have hinv := (Point.reaches_finished hentry ht).invariant
    (I := fun m => Reachable M cfg addr m ∧ m.control.upward = true ∧
      m.state.Ascending M cfg addr s.taintedValues) (fun m m' hm hstep => ?_) ⟨hentry, rfl, hstart⟩
  · exact hinv.2.2
  · have hvalid := Point.valid_of_reachable hm.1
    refine ⟨hm.1.trans (.single hstep), ((Point.step_spec hvalid hstep).upward hm.2.1).1,
      hm.2.2.visit hm.2.1 (fun v hv => (tainted_iff_descended hstored hs).mpr hv)
        (hstored.ascended hup) (fun old v rest hc => ?_) (Point.step_visit hvalid hstep)⟩
    obtain ⟨control, state⟩ := m
    cases hc
    exact fresh_of_upwardUsers hs hm.1

/-- The facts that the upward phase starts from or adds. -/
def AddedAbove (s t : PassState) : TaintFact → Prop
  | .value v => v ∈ t.taintedValues ∧ v ∉ s.taintedValues
  | .returns f => f ∈ t.functionsReturningTaint
  | _ => False

/-- No rule of the way up leads out of a finished run. -/
theorem closed_run (hstored : NothingStored M cfg addr) (hup : cfg.upwardInterprocMode = true)
    (hs : forwardPhase M cfg addr fuel = some s) (ht : run M cfg addr fuel = some t) :
    Closed (AscentRule M cfg addr) (AddedAbove s t) := by
  have hdown {v : Value} (h : ¬ Descended M cfg addr v) : v ∉ s.taintedValues :=
    fun hv => h ((tainted_iff_descended hstored hs).mp hv)
  have husers {v : Value} (hv : AddedAbove s t (.value v)) {u : InstId} (hu : u ∈ M.users v) :
      .inst u ∈ t.taintedValues := by
    refine upwardPhase_done (D := fun _ u s => .inst u ∈ s.taintedValues)
      (fun v u a b hext => hext.taintedValues _) (fun v u a b hbook h => ?_)
      (fun old v u rest a _ => PassState.mem_upwardUser v u a) hs ht hv.2 hv.1 hu
    rw [hbook.taintedValues]
    exact h
  have hentry := forwardPhase_reaches hs
  intro premises c hrule hprem
  cases hrule with
  | @descended f hf =>
    have hreturning := Point.returning_of_reaches (Point.valid_of_reachable hentry)
      (Point.reaches_finished hentry ht)
    exact hreturning f ((returning_iff_descendedReturn hstored hs).mpr hf)
  | @call f i hi hcall hnew =>
    have hf : f ∈ t.functionsReturningTaint := hprem _ List.mem_cons_self
    obtain ⟨a, _, ha⟩ := Option.bind_eq_some_iff.mp ht
    exact ⟨(PassState.upwardPhase_closed hup ha).returning f hf i hi hcall, hdown hnew⟩
  | use hu hnew => exact ⟨husers (hprem _ List.mem_cons_self) hu, hdown hnew⟩
  | @returned v u hu hnew hkind =>
    have hv : AddedAbove s t (.value v) := hprem _ List.mem_cons_self
    exact (run_ascending hstored hup hs ht).returns u v hkind (husers hv hu) (hdown hnew)

theorem tainted_run_iff (hstored : NothingStored M cfg addr) (h : run M cfg addr fuel = some t)
    {v : Value} : v ∈ t.taintedValues ↔ Descended M cfg addr v ∨
      cfg.upwardInterprocMode = true ∧ Ascended M cfg addr v := by
  cases hup : cfg.upwardInterprocMode with
  | false =>
    rw [run_eq_forwardPhase hup] at h
    simp only [Bool.false_eq_true, false_and, or_false]
    exact tainted_iff_descended hstored h
  | true =>
    obtain ⟨s, hs, _⟩ := Option.bind_eq_some_iff.mp h
    have hascending := run_ascending hstored hup hs h
    constructor
    · intro hv
      exact (hascending.values v hv).imp (tainted_iff_descended hstored hs).mp fun hv => ⟨rfl, hv⟩
    · rintro (hv | ⟨_, hv⟩)
      · exact hascending.kept v ((tainted_iff_descended hstored hs).mpr hv)
      · exact (hv.of_closed (closed_run hstored hup hs h)).1

theorem returning_run_iff (hstored : NothingStored M cfg addr) (h : run M cfg addr fuel = some t)
    {f : Nat} : f ∈ t.functionsReturningTaint ↔ DescendedReturn M cfg addr f ∨
      cfg.upwardInterprocMode = true ∧ AscendedReturn M cfg addr f := by
  cases hup : cfg.upwardInterprocMode with
  | false =>
    rw [run_eq_forwardPhase hup] at h
    simp only [Bool.false_eq_true, false_and, or_false]
    exact returning_iff_descendedReturn hstored h
  | true =>
    obtain ⟨s, hs, _⟩ := Option.bind_eq_some_iff.mp h
    constructor
    · exact fun hf => .inr ⟨rfl, (run_ascending hstored hup hs h).returning f hf⟩
    · intro hf
      have hup' : AscendedReturn M cfg addr f :=
        hf.elim (fun hf => .of_nil (AscentRule.descended hf)) And.right
      have hadded : AddedAbove s t (.returns f) := hup'.of_closed (closed_run hstored hup hs h)
      exact hadded

/-- **What a run finds.**  Where nothing tainted is stored, a value is tainted at the end of a run if
and only if it is reached on the way down or, with upward tracking, on the way up; and a function is
on record as returning taint if and only if it returns such a value.  The addresses have a say only
in the targets of indirect calls. -/
theorem run_values_exact (M : Module) (cfg : Config) (addr : Value → Nat) (fuel : Nat)
    (t : PassState) (hstored : NothingStored M cfg addr) (h : run M cfg addr fuel = some t) :
    (∀ v, v ∈ t.taintedValues ↔ Descended M cfg addr v ∨
      cfg.upwardInterprocMode = true ∧ Ascended M cfg addr v) ∧
    ∀ f, f ∈ t.functionsReturningTaint ↔ DescendedReturn M cfg addr f ∨
      cfg.upwardInterprocMode = true ∧ AscendedReturn M cfg addr f :=
  ⟨fun _ => tainted_run_iff hstored h, fun _ => returning_run_iff hstored h⟩

theorem nothingStored_of_no_store (h : ∀ i ∈ M.insts, M.storePointer i = none) :
    NothingStored M cfg addr := by
  have hnone {i : InstId} (hi : i ∈ M.insts) (value ptr : Value) : M.kind i ≠ .store value ptr := by
    intro hkind
    have hstore := h i hi
    rw [Module.storePointer, hkind] at hstore
    cases hstore
  exact ⟨fun i hi value ptr hkind => absurd hkind (hnone hi value ptr),
    fun v _ i hi ptr => hnone hi v ptr, fun _ v _ i hi ptr => hnone hi v ptr⟩

theorem run_values_exact_calleesModule :
    ∃ t, run (calleesModule []) downwardConfig Value.slot 6 = some t ∧
      (Descended (calleesModule []) downwardConfig Value.slot (.inst ⟨3, 0, 0⟩) ∨
        Ascended (calleesModule []) downwardConfig Value.slot (.inst ⟨3, 0, 0⟩)) := by
  have h : (run (calleesModule []) downwardConfig Value.slot 6).map
      (fun t => decide (.inst ⟨3, 0, 0⟩ ∈ t.taintedValues)) = some true := by decide
  obtain ⟨t, ht, hmem⟩ := Option.map_eq_some_iff.mp h
  have hexact := (run_values_exact (calleesModule []) downwardConfig Value.slot 6 t
    (nothingStored_of_no_store (by decide)) ht).1 (.inst ⟨3, 0, 0⟩)
  exact ⟨t, ht, (hexact.mp (of_decide_eq_true hmem)).imp_right And.right⟩

end Up

/-! ## 5. More modes, more seeds -/

/-- `cfg'` looks for the same constant in more modes.  All occurrences count as more than one of
them where seeds do not enter the functions they are passed to: an instruction with two matching
operands is a seed through the first of them only. -/
structure Config.TrackedBy (cfg cfg' : Config) : Prop where
  functionName : cfg'.functionName = cfg.functionName
  targetOpcode : cfg'.targetOpcode = cfg.targetOpcode
  constantToTrack : cfg'.constantToTrack = cfg.constantToTrack
  interprocMode : cfg.interprocMode = true → cfg'.interprocMode = true
  indirectCallMode : cfg.indirectCallMode = true → cfg'.indirectCallMode = true
  upwardInterprocMode : cfg.upwardInterprocMode = true → cfg'.upwardInterprocMode = true
  occurrenceIndex : cfg'.occurrenceIndex = cfg.occurrenceIndex ∨
    cfg'.occurrenceIndex = 0 ∧ cfg.interprocMode = false

namespace PassState

variable {M : Module} {cfg cfg' : Config}

/-- The seed `i` enters parameter `v` with its constant `ci`. -/
def SeedEnters (M : Module) (cfg : Config) (i : InstId) (ci v : Value) : Prop :=
  cfg.interprocMode = true ∧ ∃ n callee, PassesTaintTo M i ci n callee ∧ HasParameter M callee n ∧
    v = .arg ⟨callee, n⟩

theorem mem_seedCallArgument {i : InstId} {callee n : Nat} {v : Value} {s : PassState} :
    v ∈ (s.seedCallArgument M cfg i callee n).taintedValues ↔ v ∈ s.taintedValues ∨
      cfg.interprocMode = true ∧ HasParameter M callee n ∧ v = .arg ⟨callee, n⟩ := by
  unfold seedCallArgument HasParameter
  split
  next hguard =>
    simp only [Bool.and_eq_true, Bool.not_eq_true', decide_eq_true_eq] at hguard
    rw [mem_taintParameter_iff, or_comm, and_iff_right hguard.1.1,
      and_iff_right ⟨hguard.1.2, hguard.2⟩]
  next hguard =>
    simp only [Bool.and_eq_true, Bool.not_eq_true', decide_eq_true_eq] at hguard
    exact ⟨.inl, fun hv => hv.resolve_right fun ⟨hmode, hparam, _⟩ =>
      hguard ⟨⟨hmode, hparam.1⟩, hparam.2⟩⟩

theorem mem_foldl_seedCallArgument {i : InstId} {callee : Nat} {ns : List Nat} {v : Value}
    {s : PassState} :
    v ∈ (ns.foldl (seedCallArgument M cfg i callee) s).taintedValues ↔ v ∈ s.taintedValues ∨
      ∃ n ∈ ns, cfg.interprocMode = true ∧ HasParameter M callee n ∧ v = .arg ⟨callee, n⟩ := by
  induction ns generalizing s with
  | nil => simp
  | cons n ns ih => rw [List.foldl_cons, ih, mem_seedCallArgument, or_assoc, List.exists_mem_cons_iff]

theorem mem_seedCall {i : InstId} {ci v : Value} {s : PassState} :
    v ∈ (s.seedCall M cfg i ci).taintedValues ↔
      v ∈ s.taintedValues ∨ SeedEnters M cfg i ci v := by
  unfold seedCall
  split
  next called same args bundles callee hkind hcallee =>
    rw [mem_foldl_seedCallArgument]
    apply or_congr_right
    constructor
    · rintro ⟨n, hn, hmode, hparam, rfl⟩
      have hactual : args[n]? = some ci := by simpa using (List.mem_filter.mp hn).2
      exact ⟨hmode, n, callee, ⟨called, same, args, bundles, hkind, hactual, hcallee⟩, hparam, rfl⟩
    · rintro ⟨hmode, n, callee', ⟨called', same', args', bundles', hkind', hactual, hcallee'⟩,
        hparam, rfl⟩
      rw [hkind] at hkind'
      cases hkind'
      rw [hcallee] at hcallee'
      cases hcallee'
      have hlt : n < args.length := (List.getElem?_eq_some_iff.mp hactual).1
      exact ⟨n, List.mem_filter.mpr ⟨List.mem_range.mpr hlt, by simpa using hactual⟩, hmode, hparam,
        rfl⟩
  next hnone =>
    refine ⟨.inl, fun hv => hv.resolve_right ?_⟩
    rintro ⟨_, n, callee, ⟨called, same, args, bundles, hkind, _, hcallee⟩, _⟩
    exact hnone called same args bundles callee hkind hcallee

theorem mem_seedInst_of_fresh {i : InstId} {ci v : Value} {s : PassState}
    (hnew : .inst i ∉ s.taintedValues) :
    v ∈ (s.seedInst M cfg i ci).taintedValues ↔
      (v = .inst i ∨ v ∈ s.taintedValues) ∨ SeedEnters M cfg i ci v := by
  rw [seedInst, if_neg hnew]
  dsimp only
  rw [mem_seedCall, (seedStore_sets i _).1, (seedReturn_sets i ci _).1]
  exact or_congr_left DenseSet.mem_insert

theorem inst_mem_seedInst_iff {i j : InstId} {ci : Value} {s : PassState} :
    .inst j ∈ (s.seedInst M cfg i ci).taintedValues ↔ j = i ∨ .inst j ∈ s.taintedValues := by
  by_cases hold : .inst i ∈ s.taintedValues
  · rw [seedInst, if_pos hold]
    exact ⟨.inr, fun h => h.elim (fun he => he ▸ hold) id⟩
  · rw [mem_seedInst_of_fresh hold, Value.inst.injEq]
    refine or_iff_left ?_
    rintro ⟨_, n, callee, _, _, he⟩
    cases he

end PassState

section Seeds

variable {M : Module} {cfg cfg' : Config}

/-- What the seeding loops have selected when they run side by side. -/
structure SelectsWithin (r r' : SeedState) : Prop where
  found : r'.found = r.found
  count : r'.currentOccurrence = r.currentOccurrence
  insts : ∀ i, .inst i ∈ r'.pass.taintedValues ↔ .inst i ∈ r.pass.taintedValues
  values : r.pass.taintedValues ⊆ r'.pass.taintedValues

theorem SelectsWithin.seedInst {r r' : SeedState} (h : SelectsWithin r r')
    (hmode : cfg.interprocMode = true → cfg'.interprocMode = true) (i : InstId) (ci : Value)
    (n : Nat) (found : Bool) : SelectsWithin ⟨r.pass.seedInst M cfg i ci, n, found⟩
      ⟨r'.pass.seedInst M cfg' i ci, n, found⟩ where
  found := rfl
  count := rfl
  insts j := by
    rw [PassState.inst_mem_seedInst_iff, PassState.inst_mem_seedInst_iff, h.insts]
  values v hv := by
    show v ∈ (r'.pass.seedInst M cfg' i ci).taintedValues
    have hv : v ∈ (r.pass.seedInst M cfg i ci).taintedValues := hv
    by_cases hold : .inst i ∈ r.pass.taintedValues
    · rw [PassState.seedInst, if_pos ((h.insts i).mpr hold)]
      rw [PassState.seedInst, if_pos hold] at hv
      exact h.values v hv
    · rw [PassState.mem_seedInst_of_fresh fun hi => hold ((h.insts i).mp hi)]
      rw [PassState.mem_seedInst_of_fresh hold] at hv
      exact hv.imp (Or.imp_right (h.values v)) fun henters => ⟨hmode henters.1, henters.2⟩

theorem SelectsWithin.seedOperand {r r' : SeedState} (h : SelectsWithin r r')
    (hconst : cfg'.constantToTrack = cfg.constantToTrack)
    (hindex : cfg'.occurrenceIndex = cfg.occurrenceIndex)
    (hmode : cfg.interprocMode = true → cfg'.interprocMode = true) (i : InstId) (op : Value) :
    SelectsWithin (LinuxAnalysis.seedOperand M cfg i r op)
      (LinuxAnalysis.seedOperand M cfg' i r' op) := by
  unfold LinuxAnalysis.seedOperand
  rw [h.found, hconst, hindex, h.count]
  split
  next => exact h
  next hfound =>
    split
    next type c =>
      split
      next =>
        dsimp only
        split
        next => exact ⟨rfl, rfl, h.insts, h.values⟩
        next => exact h.seedInst hmode i _ _ _
      next => exact h
    next => exact h

/-- More modes select the same instructions. -/
theorem seeds_subset_of_modes (hname : cfg'.functionName = cfg.functionName)
    (hopcode : cfg'.targetOpcode = cfg.targetOpcode)
    (hconst : cfg'.constantToTrack = cfg.constantToTrack)
    (hindex : cfg'.occurrenceIndex = cfg.occurrenceIndex)
    (hmode : cfg.interprocMode = true → cfg'.interprocMode = true) :
    (seedWorklist M cfg).taintedValues ⊆ (seedWorklist M cfg').taintedValues := by
  have hcandidates : seedCandidates M cfg' = seedCandidates M cfg := by
    unfold seedCandidates opcodeSelected
    rw [hname, hopcode]
  have hstart : SelectsWithin ⟨PassState.buildFunctionPointerTargets M cfg {}, 0, false⟩
      ⟨PassState.buildFunctionPointerTargets M cfg' {}, 0, false⟩ := by
    have hnone (c : Config) : (PassState.buildFunctionPointerTargets M c {}).taintedValues = ∅ :=
      PassState.taintedValues_buildFunctionPointerTargets {}
    refine ⟨rfl, rfl, fun i => ?_, ?_⟩
    · rw [hnone, hnone]
    · rw [hnone, hnone]
  unfold seedWorklist
  rw [hcandidates]
  refine (List.foldl_rel (r := SelectsWithin) hstart fun i _ r r' h => ?_).values
  exact List.foldl_rel h fun op _ r r' h => h.seedOperand hconst hindex hmode i op

/-- A selected instruction passes the filters through one of its operands. -/
theorem isSeed_of_seedWorklist {i : InstId} (h : .inst i ∈ (seedWorklist M cfg).taintedValues) :
    ∃ ci, IsSeed M cfg i ci := by
  let I := fun s : PassState => ∀ i, .inst i ∈ s.taintedValues → ∃ ci, IsSeed M cfg i ci
  refine steps_invariant (I := I) (fun s t hs hst j hj => ?_) (fun j hj => ?_)
    (PassState.seedWorklist_steps M cfg) i h
  · cases hst with
    | @source i ci hseed _ =>
      rcases DenseSet.mem_insert.mp hj with he | hj
      · cases he
        exact ⟨ci, hseed⟩
      · exact hs j hj
    | parameter _ _ _ _ _ _ =>
      rcases PassState.mem_taintParameter_iff.mp hj with he | hj
      · cases he
      · exact hs j hj
    | returned _ _ _ => exact hs j hj
    | @parameterStore i ci value ptr a _ _ _ _ =>
      refine hs j ?_
      rwa [PassState.recordParameterStore, (PassState.sameFacts_recordFieldAccess _ _ _ _).values]
        at hj
    | pointer _ _ _ =>
      unfold PassState.taintPointer at hj
      split at hj
      · exact hs j hj
      · exact hs j hj
  · rw [PassState.taintedValues_buildFunctionPointerTargets] at hj
    exact absurd hj (DenseSet.not_mem_empty _)

/-- A selected return has its function on record. -/
def ReturnsSelected (M : Module) (s : PassState) : Prop :=
  ∀ i value, M.kind i = .ret (some value) → .inst i ∈ s.taintedValues →
    i.func ∈ s.functionsReturningTaint

theorem ReturnsSelected.seedInst {s : PassState} (hs : ReturnsSelected M s) {i : InstId} {ci : Value}
    (hop : ci ∈ M.operands i) : ReturnsSelected M (s.seedInst M cfg i ci) := by
  intro j value hkind hj
  by_cases hold : .inst j ∈ s.taintedValues
  · exact (PassState.extends_seedInst M cfg i ci s).functionsReturningTaint _ (hs j value hkind hold)
  · obtain rfl := (PassState.inst_mem_seedInst_iff.mp hj).resolve_right hold
    -- a return has one operand, so the constant selected is the value returned
    have hvalue : value = ci := by
      rw [Module.operands, hkind] at hop
      exact (List.mem_singleton.mp hop).symm
    rw [PassState.seedInst, if_neg hold]
    refine ((PassState.extends_seedStore M j _).trans
      (PassState.extends_seedCall M cfg j ci _)).functionsReturningTaint _ ?_
    unfold PassState.seedReturn
    rw [hkind]
    dsimp only
    rw [if_pos hvalue]
    exact DenseSet.mem_insert.mpr (.inl rfl)

theorem PassState.SeedStep.returning {s t : PassState} (h : PassState.SeedStep M cfg s t) {f : Nat}
    (hf : f ∈ t.functionsReturningTaint) : f ∈ s.functionsReturningTaint ∨
      ∃ i value, M.kind i = .ret (some value) ∧ .inst i ∈ s.taintedValues ∧ i.func = f := by
  cases h with
  | source _ _ => exact .inl hf
  | @returned i ci _ hi hkind =>
    rcases DenseSet.mem_insert.mp hf with rfl | hf
    · exact .inr ⟨i, ci, hkind, hi, rfl⟩
    · exact .inl hf
  | parameterStore _ _ _ _ =>
    rw [recordParameterStore, (sameFacts_recordFieldAccess _ _ _ _).returning] at hf
    exact .inl hf
  | pointer _ _ _ =>
    unfold taintPointer at hf
    split at hf
    · exact .inl hf
    · exact .inl hf
  | parameter _ _ _ _ _ hnew =>
    rw [taintParameter, if_neg hnew] at hf
    exact .inl hf

/-- The functions that return a seed constant are those of the returns selected. -/
theorem returning_seedWorklist_iff {f : Nat} :
    f ∈ (seedWorklist M cfg).functionsReturningTaint ↔ ∃ i value, M.kind i = .ret (some value) ∧
      .inst i ∈ (seedWorklist M cfg).taintedValues ∧ i.func = f := by
  constructor
  · let I := fun s : PassState => ∀ f ∈ s.functionsReturningTaint,
      ∃ i value, M.kind i = .ret (some value) ∧ .inst i ∈ s.taintedValues ∧ i.func = f
    refine steps_invariant (I := I) (fun s t hs hst g hg => ?_) (fun g hg => ?_)
      (PassState.seedWorklist_steps M cfg) f
    · obtain ⟨i, value, hkind, hi, hfunc⟩ := (hst.returning hg).elim (hs g) id
      exact ⟨i, value, hkind, hst.extends.taintedValues _ hi, hfunc⟩
    · obtain ⟨targets, hstate⟩ := Point.initialPoint_state M cfg
      rw [show PassState.buildFunctionPointerTargets M cfg {} = (initialPoint M cfg).state from rfl,
        hstate] at hg
      exact absurd hg (DenseSet.not_mem_empty g)
  · rintro ⟨i, value, hkind, hi, rfl⟩
    refine foldl_invariant (I := fun r : SeedState => ReturnsSelected M r.pass)
      (fun r j _ hr => ?_) (fun j value _ hj => ?_) i value hkind hi
    · refine foldl_invariant (I := fun r : SeedState => ReturnsSelected M r.pass)
        (fun r op hop hr => ?_) hr
      rcases PassState.seedOperand_cases M cfg j r op with h | h
      · rw [h]
        exact hr
      · rw [h]
        exact hr.seedInst hop
    · rw [show (SeedState.pass _).taintedValues = _ from
        PassState.taintedValues_buildFunctionPointerTargets {}] at hj
      exact absurd hj (DenseSet.not_mem_empty _)

theorem Config.TrackedBy.seeds (h : cfg.TrackedBy cfg') :
    (seedWorklist M cfg).taintedValues ⊆ (seedWorklist M cfg').taintedValues := by
  rcases h.occurrenceIndex with hindex | ⟨hindex, hmode⟩
  · exact seeds_subset_of_modes h.functionName h.targetOpcode h.constantToTrack hindex h.interprocMode
  · refine DenseSet.Subset.trans (seeds_subset_allOccurrences hmode).1 ?_
    exact seeds_subset_of_modes h.functionName h.targetOpcode h.constantToTrack hindex h.interprocMode

theorem Config.TrackedBy.seedReturns (h : cfg.TrackedBy cfg') :
    (seedWorklist M cfg).functionsReturningTaint ⊆ (seedWorklist M cfg').functionsReturningTaint := by
  intro f hf
  obtain ⟨i, value, hkind, hi, hfunc⟩ := returning_seedWorklist_iff.mp hf
  exact returning_seedWorklist_iff.mpr ⟨i, value, hkind, h.seeds _ hi, hfunc⟩

end Seeds

/-- A return instruction. -/
def Module.isReturn (M : Module) : Value → Bool
  | .inst u =>
    match M.kind u with
    | .ret _ => true
    | _ => false
  | _ => false

/-- A return has no value that an instruction could use, as LLVM's verifier demands. -/
def Module.ReturnsUnused (M : Module) : Prop :=
  ∀ i ∈ M.insts, ∀ v ∈ M.operands i, M.isReturn v = false

instance (M : Module) : Decidable M.ReturnsUnused :=
  inferInstanceAs (Decidable (∀ i ∈ M.insts, ∀ v ∈ M.operands i, M.isReturn v = false))

section Modes

variable {M : Module} {cfg cfg' : Config} {addr addr' : Value → Nat}

theorem Module.ReturnsUnused.user (hM : M.ReturnsUnused) {v : Value} {u : InstId}
    (hu : u ∈ M.users v) : M.isReturn v ≠ true := by
  obtain ⟨hi, hop⟩ := Module.mem_users.mp hu
  rw [hM u hi v hop]
  exact Bool.false_ne_true

/-- The functions entered at indirect calls are the same, for all that the smaller mode enters. -/
def SameTargets (M : Module) (cfg cfg' : Config) (addr addr' : Value → Nat) : Prop :=
  cfg.interprocMode = true → cfg.indirectCallMode = true →
    ∀ called, ∀ f ∈ callTargets M cfg addr called, f ∈ callTargets M cfg' addr' called

theorem sameTargets_of_addr (hle : cfg.TrackedBy cfg')
    (haddr : cfg.interprocMode = true → cfg.indirectCallMode = true → addr' = addr) :
    SameTargets M cfg cfg' addr addr' := by
  intro hmode hindirect called f hf
  rw [haddr hmode hindirect]
  have htable : (initialPoint M cfg').state = (initialPoint M cfg).state := by
    show PassState.buildFunctionPointerTargets M cfg' {} =
      PassState.buildFunctionPointerTargets M cfg {}
    unfold PassState.buildFunctionPointerTargets
    rw [if_pos hindirect, if_pos (hle.indirectCallMode hindirect)]
  rwa [callTargets, htable]

theorem flowsTo_mono (hle : cfg.TrackedBy cfg') (htargets : SameTargets M cfg cfg' addr addr')
    {v w : Value} (h : FlowsTo M cfg addr v w) : FlowsTo M cfg' addr' v w := by
  obtain ⟨u, hu, huse | ⟨a, rfl, hmode, hparam, called, same, args, bundles, hkind, hidx, hcall⟩⟩ := h
  · exact ⟨u, hu, .inl huse⟩
  · refine ⟨u, hu, .inr ⟨a, rfl, hle.interprocMode hmode, hparam, called, same, args, bundles, hkind,
      hidx, ?_⟩⟩
    rcases hcall with hdirect | ⟨hnone, hindirect, htarget⟩
    · exact .inl hdirect
    · exact .inr ⟨hnone, hle.indirectCallMode hindirect, htargets hmode hindirect called _ htarget⟩

theorem descended_mono (hle : cfg.TrackedBy cfg') (htargets : SameTargets M cfg cfg' addr addr')
    {v : Value} (h : Descended M cfg addr v) : Descended M cfg' addr' v := by
  obtain ⟨seed, hseed, hway⟩ := h
  exact ⟨seed, hle.seeds _ hseed,
    (Relation.ReflTransGen.mono fun _ _ h => flowsTo_mono hle htargets h) _ _ hway⟩

theorem descendedReturn_mono (hle : cfg.TrackedBy cfg')
    (htargets : SameTargets M cfg cfg' addr addr') {f : Nat}
    (h : DescendedReturn M cfg addr f) : DescendedReturn M cfg' addr' f := by
  rcases h with hseed | ⟨v, u, hv, hret⟩
  · exact .inl (hle.seedReturns _ hseed)
  · exact .inr ⟨v, u, descended_mono hle htargets hv, hret⟩

/-- What is returned on the way up is no return that is reached on the way down. -/
theorem not_descended_of_ret {u j : InstId} (hkind : M.kind u = .ret (some (.inst j))) :
    ¬ Descended M cfg addr (.inst u) := by
  rintro ⟨seed, hseed, hway⟩
  rcases Relation.ReflTransGen.cases_tail hway with rfl | ⟨w, _, i, hi, hvia⟩
  · obtain ⟨ci, hsource⟩ := isSeed_of_seedWorklist hseed
    obtain ⟨type, rfl⟩ := hsource.constant
    have hop := hsource.operand
    rw [Module.operands, hkind] at hop
    cases List.mem_singleton.mp hop
  · rcases hvia with ⟨he, hret, _⟩ | ⟨a, he, _⟩
    · cases he
      obtain rfl := PassState.operands_ret hkind hi
      exact hret hkind
    · cases he

/-- A fact of the smaller mode is one of the larger mode, found there on the way up or down. -/
def FoundWithin (M : Module) (cfg : Config) (addr : Value → Nat) : TaintFact → Prop
  | .value v => (Descended M cfg addr v ∨ Ascended M cfg addr v) ∨ M.isReturn v = true
  | .returns f => AscendedReturn M cfg addr f
  | _ => True

theorem closed_foundWithin (hM : M.ReturnsUnused) (hle : cfg.TrackedBy cfg')
    (htargets : SameTargets M cfg cfg' addr addr') (hstored : NothingStored M cfg' addr') :
    Closed (AscentRule M cfg addr) (FoundWithin M cfg' addr') := by
  intro premises c hrule hprem
  cases hrule with
  | descended hf => exact .of_nil (.descended (descendedReturn_mono hle htargets hf))
  | @call f i hi hcall _ =>
    have hf : AscendedReturn M cfg' addr' f := hprem _ List.mem_cons_self
    by_cases hdown : Descended M cfg' addr' (.inst i)
    · exact .inl (.inl hdown)
    · exact .inl (.inr (.of_one (.call hi hcall hdown) hf))
  | @use v u hu _ =>
    have hv : FoundWithin M cfg' addr' (.value v) := hprem _ List.mem_cons_self
    rcases hv.resolve_right (hM.user hu) with hv | hv
    · by_cases hret : M.kind u = .ret (some v)
      · refine .inr ?_
        simp only [Module.isReturn, hret]
      · -- nothing is stored, so that the larger run passes the value on as well
        obtain ⟨seed, hseed, hway⟩ := hv
        have hstore (ptr : Value) : M.kind u ≠ .store v ptr :=
          hstored.descended v ⟨seed, hseed, hway⟩ u (Module.mem_users.mp hu).1 ptr
        exact .inl (.inl ⟨seed, hseed, hway.tail ⟨u, hu, .inl ⟨rfl, hret, fun ptr hk =>
          absurd hk (hstore ptr)⟩⟩⟩)
    · by_cases hdown : Descended M cfg' addr' (.inst u)
      · exact .inl (.inl hdown)
      · exact .inl (.inr (.of_one (.use hu hdown) hv))
  | @returned v u hu _ hkind =>
    have hv : FoundWithin M cfg' addr' (.value v) := hprem _ List.mem_cons_self
    rcases hv.resolve_right (hM.user hu) with hv | hv
    · exact .of_nil (.descended (.inr ⟨v, u, hv, hu, hkind, rfl⟩))
    · obtain ⟨j, rfl, _⟩ := hv.isInst
      exact .of_one (.returned hu (not_descended_of_ret hkind) hkind) hv

theorem NothingStored.mono (hM : M.ReturnsUnused) (hle : cfg.TrackedBy cfg')
    (htargets : SameTargets M cfg cfg' addr addr') (hstored : NothingStored M cfg' addr') :
    NothingStored M cfg addr where
  seeds i hi value ptr hkind hseed := hstored.seeds i hi value ptr hkind (hle.seeds _ hseed)
  descended v hv := hstored.descended v (descended_mono hle htargets hv)
  ascended hup v hv i hi ptr hkind := by
    have huser : i ∈ M.users v := Module.mem_users.mpr ⟨hi, by
      rw [Module.operands, hkind]
      exact List.mem_cons_self⟩
    have hfound : FoundWithin M cfg' addr' (.value v) :=
      Derivable.of_closed hv (closed_foundWithin hM hle htargets hstored)
    rcases hfound.resolve_right (hM.user huser) with hv | hv
    · exact hstored.descended v hv i hi ptr hkind
    · exact hstored.ascended (hle.upwardInterprocMode hup) v hv i hi ptr hkind

end Modes

/-- **More modes find more.**  Where nothing tainted is stored in the larger mode, every value that a
run taints is tainted by a run in more modes or for all occurrences, return instructions apart: only
the way up taints those, and it leaves out what the way down has reached.  The functions that return
taint stay on record.  The addresses may differ unless indirect calls are followed. -/
theorem run_values_mono (M : Module) (cfg cfg' : Config) (addr addr' : Value → Nat)
    (fuel fuel' : Nat) (s t : PassState) (hM : M.ReturnsUnused) (hle : cfg.TrackedBy cfg')
    (haddr : cfg.interprocMode = true → cfg.indirectCallMode = true → addr' = addr)
    (hstored : NothingStored M cfg' addr') (hs : run M cfg addr fuel = some s)
    (ht : run M cfg' addr' fuel' = some t) :
    (∀ v ∈ s.taintedValues, v ∈ t.taintedValues ∨ M.isReturn v = true) ∧
    ∀ f ∈ s.functionsReturningTaint, f ∈ t.functionsReturningTaint := by
  have htargets := sameTargets_of_addr (M := M) hle haddr
  have hclosed := closed_foundWithin hM hle htargets hstored
  have hstored' := hstored.mono hM hle htargets
  refine ⟨fun v hv => ?_, fun f hf => ?_⟩
  · rw [tainted_run_iff hstored ht]
    rcases (tainted_run_iff hstored' hs).mp hv with hdown | ⟨hup, hv⟩
    · exact .inl (.inl (descended_mono hle htargets hdown))
    · have hfound : FoundWithin M cfg' addr' (.value v) := Derivable.of_closed hv hclosed
      exact hfound.imp_left (Or.imp_right fun hv => ⟨hle.upwardInterprocMode hup, hv⟩)
  · rw [returning_run_iff hstored ht]
    rcases (returning_run_iff hstored' hs).mp hf with hdown | ⟨hup, hf⟩
    · exact .inl (descendedReturn_mono hle htargets hdown)
    · have hfound : FoundWithin M cfg' addr' (.returns f) := hf.of_closed hclosed
      exact .inr ⟨hle.upwardInterprocMode hup, hfound⟩

theorem run_values_mono_calleesModule :
    ∃ s t, run (calleesModule []) { downwardConfig with upwardInterprocMode := false } Value.slot 6 =
        some s ∧ run (calleesModule []) downwardConfig Value.slot 6 = some t ∧
      .arg ⟨1, 0⟩ ∈ t.taintedValues ∧ 0 ∈ t.functionsReturningTaint := by
  let small : Config := { downwardConfig with upwardInterprocMode := false }
  have h : (run (calleesModule []) small Value.slot 6).map (fun s =>
      (decide (.arg ⟨1, 0⟩ ∈ s.taintedValues), decide (0 ∈ s.functionsReturningTaint))) =
        some (true, true) := by decide
  have h' : (run (calleesModule []) downwardConfig Value.slot 6).isSome = true := by decide
  obtain ⟨s, hs, hmem⟩ := Option.map_eq_some_iff.mp h
  obtain ⟨t, ht⟩ := Option.isSome_iff_exists.mp h'
  simp only [Prod.mk.injEq, decide_eq_true_eq] at hmem
  have hle : small.TrackedBy downwardConfig := by
    constructor <;> simp [small]
  obtain ⟨hvalues, hreturns⟩ := run_values_mono (calleesModule []) small downwardConfig Value.slot
    Value.slot 6 6 s t (by decide) hle (fun _ _ => rfl) (nothingStored_of_no_store (by decide))
    hs ht
  exact ⟨s, t, hs, ht, (hvalues _ hmem.1).resolve_right (by decide), hreturns 0 hmem.2⟩

end LinuxAnalysis
