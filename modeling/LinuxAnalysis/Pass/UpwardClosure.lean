import LinuxAnalysis.Pass.SpanCoverage

/-!
# Caller closure of the upward phase

A turn of the outer loop visits the call sites of the functions it has on record when it starts
looking.  Whatever is recorded later sets `discoveredNewFunctions`, so the turn that leaves the loop
has visited all of them.
-/

open LinuxAnalysis.Lib

namespace LinuxAnalysis

namespace PassState

variable {M : Module} {addr : Value → Nat}

/-! ## Discoveries -/

/-- Growth of the state under which a new returning function or a new tainted parameter shows in
`discoveredNewFunctions`. -/
structure Discovers (s t : PassState) : Prop where
  taintedValues : s.taintedValues ⊆ t.taintedValues
  taintedPointers : s.taintedPointers ⊆ t.taintedPointers
  taintsParam : ∀ f i, s.TaintsParam f i → t.TaintsParam f i
  flag : s.discoveredNewFunctions = true → t.discoveredNewFunctions = true
  reported : t.discoveredNewFunctions = true ∨
    (t.functionsReturningTaint ⊆ s.functionsReturningTaint ∧
      ∀ f i, t.TaintsParam f i → s.TaintsParam f i)

theorem Discovers.trans {s t u : PassState} (h₁ : s.Discovers t) (h₂ : t.Discovers u) :
    s.Discovers u where
  taintedValues := DenseSet.Subset.trans h₁.taintedValues h₂.taintedValues
  taintedPointers := DenseSet.Subset.trans h₁.taintedPointers h₂.taintedPointers
  taintsParam f i h := h₂.taintsParam f i (h₁.taintsParam f i h)
  flag h := h₂.flag (h₁.flag h)
  reported := by
    rcases h₂.reported with h | ⟨hret, hparam⟩
    · exact .inl h
    · rcases h₁.reported with h | ⟨hret', hparam'⟩
      · exact .inl (h₂.flag h)
      · exact .inr ⟨DenseSet.Subset.trans hret hret', fun f i h => hparam' f i (hparam f i h)⟩

/-- An update that leaves the two records and the flag alone. -/
theorem Extends.discovers {s t : PassState} (h : s.Extends t)
    (hret : t.functionsReturningTaint = s.functionsReturningTaint)
    (hparam : t.functionsTaintingPointerParams = s.functionsTaintingPointerParams)
    (hflag : t.discoveredNewFunctions = s.discoveredNewFunctions) : s.Discovers t where
  taintedValues := h.taintedValues
  taintedPointers := h.taintedPointers
  taintsParam := h.taintsParam
  flag hs := by rw [hflag, hs]
  reported := by
    refine .inr ⟨?_, fun f i hfi => ?_⟩
    · rw [hret]
    · rwa [TaintsParam, hparam] at hfi

theorem Discovers.refl (s : PassState) : s.Discovers s := (Extends.refl s).discovers rfl rfl rfl

theorem discovers_foldl {α : Type} {f : PassState → α → PassState} {xs : List α}
    (hstep : ∀ s : PassState, ∀ x ∈ xs, s.Discovers (f s x)) (s : PassState) :
    s.Discovers (xs.foldl f s) :=
  foldl_rel Discovers.refl (fun _ _ _ => Discovers.trans) hstep s

theorem discovers_taintValue (v : Value) (s : PassState) : s.Discovers (s.taintValue v) :=
  (extends_taintValue v s).discovers rfl rfl rfl

theorem discovers_setValueLevel (v : Value) (level : Int) (s : PassState) :
    s.Discovers (s.setValueLevel v level) :=
  (extends_setValueLevel v level s).discovers rfl rfl rfl

theorem discovers_initFunctionLevel (f : Nat) (level : Int) (s : PassState) :
    s.Discovers (s.initFunctionLevel f level) := by
  refine (extends_initFunctionLevel f level s).discovers ?_ ?_ ?_
  all_goals
    unfold initFunctionLevel
    split <;> rfl

theorem discovers_taintPointer (ptr : Value) (origin : InstId) (s : PassState) :
    s.Discovers (s.taintPointer ptr origin) := by
  refine (extends_taintPointer ptr origin s).discovers ?_ ?_ ?_
  all_goals
    unfold taintPointer
    split <;> rfl

theorem discovers_recordFieldAccess (f i : Nat) (fields : List Int) (s : PassState) :
    s.Discovers (s.recordFieldAccess f i fields) := by
  refine (extends_recordFieldAccess f i fields s).discovers ?_ ?_ ?_
  all_goals
    unfold recordFieldAccess
    split <;> rfl

theorem discovers_ensureLevelSet (i : InstId) (s : PassState) :
    s.Discovers (s.ensureLevelSet i) := by
  unfold ensureLevelSet
  split
  · exact .refl s
  · split
    · exact discovers_setValueLevel _ _ s
    · exact .refl s

theorem discovers_discoverTaintingPointerParam (f i : Nat) (s : PassState) :
    s.Discovers (s.discoverTaintingPointerParam f i) := by
  have hext := extends_addTaintingPointerParam f i s
  refine ⟨hext.taintedValues, hext.taintedPointers, hext.taintsParam, ?_, ?_⟩
  · intro hs
    simp only [discoverTaintingPointerParam, hs, Bool.true_or]
  · by_cases hfi : s.TaintsParam f i
    · refine .inr ⟨DenseSet.Subset.refl _, fun g j hgj => ?_⟩
      rcases taintsParam_addTaintingPointerParam.mp hgj with ⟨rfl, rfl⟩ | hgj
      · exact hfi
      · exact hgj
    · exact .inl (by simp only [discoverTaintingPointerParam, hfi, decide_false, Bool.not_false,
        Bool.or_true])

theorem discovers_discoverReturningFunction (f : Nat) (s : PassState) :
    s.Discovers (s.discoverReturningFunction f) := by
  have hext := extends_addFunctionReturningTaint f s
  refine ⟨hext.taintedValues, hext.taintedPointers, hext.taintsParam, ?_, ?_⟩
  · intro hs
    simp only [discoverReturningFunction, hs, Bool.true_or]
  · by_cases hf : f ∈ s.functionsReturningTaint
    · refine .inr ⟨fun g hg => ?_, fun _ _ h => h⟩
      rcases DenseSet.mem_insert.mp hg with rfl | hg
      · exact hf
      · exact hg
    · exact .inl (by simp only [discoverReturningFunction, hf, decide_false, Bool.not_false,
        Bool.or_true])

/-! ## Every part of a turn discovers -/

theorem discovers_taintReturningCall (f : Nat) (s : PassState) (i : InstId) :
    s.Discovers (s.taintReturningCall M f i) := by
  unfold taintReturningCall
  split
  · split
    · exact .refl s
    · exact ((discovers_setValueLevel _ _ s).trans (discovers_initFunctionLevel _ _ _)).trans
        (discovers_taintValue _ _)
  · exact .refl s

theorem discovers_upwardReturns (s : PassState) : s.Discovers (s.upwardReturns M addr) :=
  discovers_foldl (fun s f _ =>
    discovers_foldl (fun s i _ => discovers_taintReturningCall f s i) s) s

theorem discovers_taintFieldTargets (call gep : InstId) (s : PassState) :
    s.Discovers (s.taintFieldTargets M call gep) := by
  refine discovers_foldl (fun s u _ => ?_) s
  split
  · dsimp only
    split
    · exact discovers_taintPointer _ _ s
    · exact .refl s
  · exact .refl s

theorem discovers_taintStructFields (call : InstId) (f paramIdx : Nat) (var : Value)
    (s : PassState) : s.Discovers (s.taintStructFields M call f paramIdx var) := by
  refine discovers_foldl (fun s u _ => ?_) s
  split
  · split
    · exact discovers_taintFieldTargets _ _ s
    · exact .refl s
  · exact .refl s

theorem discovers_passThroughParam (call : InstId) (f : Nat) (a : ArgId) (s : PassState) :
    s.Discovers (s.passThroughParam call f a) := by
  unfold passThroughParam
  split
  · exact .refl s
  · exact (discovers_discoverTaintingPointerParam _ _ s).trans (discovers_initFunctionLevel _ _ _)

theorem discovers_taintPointedVar (call : InstId) (f paramIdx : Nat) (var : Value)
    (s : PassState) : s.Discovers (s.taintPointedVar M call f paramIdx var) := by
  unfold taintPointedVar
  split
  · exact .refl s
  · have hptr := (discovers_initFunctionLevel call.func (s.calleeLevel f + 1) s).trans
      (discovers_taintPointer var call _)
    dsimp only
    split
    · exact hptr.trans (discovers_taintStructFields _ _ _ _ _)
    · exact hptr

theorem discovers_upwardArgument (call : InstId) (f : Nat) (args : List Value) (s : PassState)
    (paramIdx : Nat) : s.Discovers (s.upwardArgument M call f args paramIdx) := by
  unfold upwardArgument
  split
  · exact .refl s
  · split
    · exact discovers_passThroughParam _ _ _ s
    · split
      · exact discovers_taintPointedVar _ _ _ _ s
      · exact .refl s

theorem discovers_upwardCallSite (f : Nat) (params : DenseSet Nat) (s : PassState) (i : InstId) :
    s.Discovers (s.upwardCallSite M f params i) := by
  unfold upwardCallSite
  split
  · split
    · exact discovers_foldl (fun s n _ => discovers_upwardArgument _ _ _ s n) s
    · exact .refl s
  · exact .refl s

theorem discovers_upwardParams (s : PassState) : s.Discovers (s.upwardParams M addr) :=
  discovers_foldl (fun s e _ =>
    discovers_foldl (fun s i _ => discovers_upwardCallSite e.1 e.2 s i) s) s

theorem discovers_processStoreForTaint (store : InstId) (v : Value) (s : PassState) :
    s.Discovers (s.processStoreForTaint M store v) := by
  unfold processStoreForTaint
  split
  · split
    · exact .refl s
    · dsimp only
      split
      · exact (discovers_taintPointer _ _ s).trans
          ((discovers_discoverTaintingPointerParam _ _ _).trans (discovers_recordFieldAccess _ _ _ _))
      · exact discovers_taintPointer _ _ s
  · exact .refl s

theorem discovers_upwardReturn (v : Value) (user : InstId) (s : PassState) :
    s.Discovers (s.upwardReturn M v user) := by
  unfold upwardReturn
  split
  · split
    · exact discovers_discoverReturningFunction _ s
    · exact .refl s
  · exact .refl s

theorem discovers_upwardUser (v : Value) (s : PassState) (user : InstId) :
    s.Discovers (s.upwardUser M v user) := by
  unfold upwardUser
  split
  · exact .refl s
  · exact ((discovers_setValueLevel _ _ s).trans (discovers_taintValue _ _)).trans
      ((discovers_processStoreForTaint _ _ _).trans (discovers_upwardReturn _ _ _))

theorem discovers_upwardPop (s : PassState) : s.Discovers (s.upwardPop M addr) := by
  unfold upwardPop
  split
  · exact .refl s
  · rename_i v rest _
    have hpop : s.Discovers { s with worklist := rest } :=
      ⟨DenseSet.Subset.refl _, DenseSet.Subset.refl _, fun _ _ h => h, id,
        .inr ⟨DenseSet.Subset.refl _, fun _ _ h => h⟩⟩
    exact hpop.trans (discovers_foldl (fun s u _ => discovers_upwardUser v s u) _)

theorem discovers_scanLoad (killTracking : Bool) (ptr : Value) (s : PassState × Bool)
    (i : InstId) : s.1.Discovers (scanLoad M killTracking ptr s i).1 := by
  unfold scanLoad
  split
  · exact .refl _
  · split
    · exact .refl _
    · split
      · exact discovers_ensureLevelSet i _
      · split
        · exact discovers_ensureLevelSet i _
        · exact (discovers_ensureLevelSet i _).trans (discovers_taintValue _ _)

theorem discovers_upwardScan (ptrs : List Value) (s : PassState) :
    s.Discovers (s.upwardScan M ptrs) := by
  have hscan : s.Discovers (s.scanLoadsFromTaintedPointers M false ptrs).1 := by
    refine foldl_rel (R := fun s t : PassState × Bool => s.1.Discovers t.1) (fun _ => .refl _)
      (fun _ _ _ => .trans) (fun s p _ => ?_) (s, false)
    exact foldl_rel (R := fun s t : PassState × Bool => s.1.Discovers t.1) (fun _ => .refl _)
      (fun _ _ _ => .trans) (fun s i _ => discovers_scanLoad false p s i) s
  exact ⟨hscan.taintedValues, hscan.taintedPointers, hscan.taintsParam, hscan.flag,
    hscan.reported⟩

theorem discovers_upwardSaturate {fuel : Nat} {s t : PassState}
    (h : s.upwardSaturate M addr fuel = some t) : s.Discovers t := by
  have hdrain {u w : PassState} (h : u.upwardDrain M addr fuel = some w) : u.Discovers w :=
    (whileLoop_invariant (I := u.Discovers)
      (fun x y hx _ hxy => by cases hxy; exact hx.trans (discovers_upwardPop x)) (.refl u) h).1
  refine loop_invariant (I := s.Discovers) (Q := s.Discovers) ?_ ?_ (.refl s) h
  · intro u w hu huw
    obtain ⟨x, hx, hxw⟩ := Option.map_eq_some_iff.mp huw
    dsimp only at hxw
    split at hxw
    · cases hxw
    · cases hxw
      exact (hu.trans (hdrain hx)).trans (discovers_upwardScan _ x)
  · intro u w hu huw
    obtain ⟨x, hx, hxw⟩ := Option.map_eq_some_iff.mp huw
    dsimp only at hxw
    split at hxw
    · cases hxw
      exact hu.trans (hdrain hx)
    · cases hxw

/-! ## Visited call sites -/

theorem mem_taintReturningCall {f : Nat} {s : PassState} {i : InstId}
    (hcall : M.calledFunction i = some f) :
    .inst i ∈ (s.taintReturningCall M f i).taintedValues := by
  unfold taintReturningCall
  rw [if_pos hcall]
  split
  next h => exact h
  next => exact DenseSet.mem_insert.mpr (.inl rfl)

/-- 5a visits every call site of every function on record. -/
theorem upwardReturns_visits {s : PassState} {f : Nat} {i : InstId}
    (hf : f ∈ s.functionsReturningTaint) (hi : i ∈ M.insts) (hcall : M.calledFunction i = some f) :
    .inst i ∈ (s.upwardReturns M addr).taintedValues := by
  have houter := foldl_visits (f := fun s f => M.insts.foldl (taintReturningCall M f) s)
    (P := fun f t => ∀ i ∈ M.insts, M.calledFunction i = some f → .inst i ∈ t.taintedValues)
    (sortOn (fun f => addr (.function f)) s.functionsReturningTaint.elems) ?_ ?_ s
  · exact houter f (mem_sortOn.mpr hf) i hi hcall
  · intro t g _
    exact foldl_visits (P := fun i t => M.calledFunction i = some g → .inst i ∈ t.taintedValues)
      M.insts (fun u j _ hj => mem_taintReturningCall hj)
      (fun u j _ k hk hcall => (discovers_taintReturningCall g u j).taintedValues _ (hk hcall)) t
  · intro t g _ g' hg' j hj hcall
    exact (discovers_foldl (fun u k _ => discovers_taintReturningCall g u k) t).taintedValues _
      (hg' j hj hcall)

/-- What is on record about an actual argument at a tainted position of a call. -/
structure ArgumentRecorded (M : Module) (call : InstId) (actual : Value) (s : PassState) : Prop where
  param : ∀ a, M.getPointerParameterOrigin actual = some a → s.TaintsParam call.func a.no
  var : M.getPointerParameterOrigin actual = none → ∀ var, pointedVar M actual = some var →
    var ∈ s.taintedPointers

theorem ArgumentRecorded.mono {call : InstId} {actual : Value} {s t : PassState}
    (hst : s.Discovers t) (h : ArgumentRecorded M call actual s) :
    ArgumentRecorded M call actual t where
  param a ha := hst.taintsParam _ _ (h.param a ha)
  var hnone v hv := hst.taintedPointers _ (h.var hnone v hv)

theorem taintsParam_passThroughParam (call : InstId) (f : Nat) (a : ArgId) (s : PassState) :
    (s.passThroughParam call f a).TaintsParam call.func a.no := by
  unfold passThroughParam
  split
  next h => exact h
  next =>
    refine (discovers_initFunctionLevel _ _ _).taintsParam _ _ ?_
    exact taintsParam_addTaintingPointerParam.mpr (.inl ⟨rfl, rfl⟩)

theorem mem_taintPointedVar (call : InstId) (f paramIdx : Nat) (var : Value) (s : PassState) :
    var ∈ (s.taintPointedVar M call f paramIdx var).taintedPointers := by
  unfold taintPointedVar
  split
  next h => exact h
  next =>
    have hmem (t : PassState) : var ∈ (t.taintPointer var call).taintedPointers :=
      mem_taintPointer.mpr (.inl rfl)
    dsimp only
    split
    · exact (discovers_taintStructFields _ _ _ _ _).taintedPointers _ (hmem _)
    · exact hmem _

theorem upwardArgument_records {call : InstId} {f : Nat} {args : List Value} {s : PassState}
    {paramIdx : Nat} {actual : Value} (hactual : args[paramIdx]? = some actual) :
    ArgumentRecorded M call actual (s.upwardArgument M call f args paramIdx) := by
  unfold upwardArgument
  rw [hactual]
  dsimp only
  split
  next a ha =>
    refine ⟨fun b hb => ?_, fun hnone => ?_⟩
    · rw [ha] at hb
      cases hb
      exact taintsParam_passThroughParam _ _ _ _
    · rw [ha] at hnone
      cases hnone
  next hnone =>
    refine ⟨fun a ha => ?_, fun _ v hv => ?_⟩
    · rw [hnone] at ha
      cases ha
    · rw [hv]
      exact mem_taintPointedVar _ _ _ _ _

/-- The arguments of a call at tainted positions of its callee are all on record. -/
def CallRecorded (M : Module) (f : Nat) (params : DenseSet Nat) (call : InstId) (s : PassState) :
    Prop :=
  ∀ called same args bundles, M.kind call = .call called same args bundles →
    M.calledFunction call = some f → ∀ n ∈ params, ∀ actual, args[n]? = some actual →
      ArgumentRecorded M call actual s

theorem upwardCallSite_records (f : Nat) (params : DenseSet Nat) (s : PassState) (i : InstId) :
    CallRecorded M f params i (s.upwardCallSite M f params i) := by
  intro called same args bundles hkind hcall n hn
  unfold upwardCallSite
  rw [hkind]
  dsimp only
  rw [if_pos hcall]
  exact foldl_visits (P := fun n t => ∀ actual, args[n]? = some actual →
      ArgumentRecorded M i actual t) (sortOn id params.elems)
    (fun t n _ actual ha => upwardArgument_records ha)
    (fun t n _ m hm actual ha => (hm actual ha).mono (discovers_upwardArgument _ _ _ t n)) s n
    (mem_sortOn.mpr hn)

/-- 5b visits every call site of every function on record. -/
theorem upwardParams_visits {s : PassState} {f : Nat} {params : DenseSet Nat} {i : InstId}
    (hf : s.functionsTaintingPointerParams.lookup f = some params) (hi : i ∈ M.insts) :
    CallRecorded M f params i (s.upwardParams M addr) := by
  have hkeep {t u : PassState} (htu : t.Discovers u) {g : Nat} {ps : DenseSet Nat} {j : InstId}
      (h : CallRecorded M g ps j t) : CallRecorded M g ps j u :=
    fun called same args bundles hk hc n hn actual ha =>
      (h called same args bundles hk hc n hn actual ha).mono htu
  have houter := foldl_visits (f := fun s e => M.insts.foldl (upwardCallSite M e.1 e.2) s)
    (P := fun e t => ∀ i ∈ M.insts, CallRecorded M e.1 e.2 i t)
    (sortOn (fun e : (Σ _ : Nat, DenseSet Nat) => addr (.function e.1))
      s.functionsTaintingPointerParams.entries) ?_ ?_ s
  · exact houter ⟨f, params⟩ (mem_sortOn.mpr (DenseMap.mem_entries_iff.mpr hf)) i hi
  · intro t e _
    exact foldl_visits (P := fun i t => CallRecorded M e.1 e.2 i t) M.insts
      (fun u j _ => upwardCallSite_records e.1 e.2 u j)
      (fun u j _ k hk => hkeep (discovers_upwardCallSite _ _ u j) hk) t
  · intro t e _ e' he' j hj
    exact hkeep (discovers_foldl (fun u k _ => discovers_upwardCallSite _ _ u k) t) (he' j hj)

/-! ## The outer loop -/

/-- Nothing on record has an unvisited call site. -/
structure UpwardClosed (M : Module) (s : PassState) : Prop where
  returning : ∀ f ∈ s.functionsReturningTaint, ∀ i ∈ M.insts, M.calledFunction i = some f →
    .inst i ∈ s.taintedValues
  params : ∀ f params, s.functionsTaintingPointerParams.lookup f = some params → ∀ i ∈ M.insts,
    CallRecorded M f params i s

theorem upwardRound_spec {fuel : Nat} {s t : PassState}
    (h : s.upwardRound M addr fuel = some t) :
    t.discoveredNewFunctions = true ∨ UpwardClosed M t := by
  obtain ⟨u, hu, rfl⟩ := Option.map_eq_some_iff.mp h
  split
  case isTrue => exact .inl rfl
  case isFalse =>
    have hret : Discovers { s with discoveredNewFunctions := false }
        (upwardReturns M addr { s with discoveredNewFunctions := false }) :=
      discovers_upwardReturns _
    have hpar : Discovers (upwardReturns M addr { s with discoveredNewFunctions := false })
        (upwardParams M addr (upwardReturns M addr { s with discoveredNewFunctions := false })) :=
      discovers_upwardParams _
    have hsat := discovers_upwardSaturate hu
    -- without the flag the round found no new function and no new parameter
    rcases (hret.trans (hpar.trans hsat)).reported with hflag | ⟨hsub, _⟩
    · exact .inl hflag
    rcases (hpar.trans hsat).reported with hflag | ⟨_, hsub'⟩
    · exact .inl hflag
    refine .inr ⟨fun f hf i hi hcall => ?_, fun f params hf i hi => ?_⟩
    · exact (hpar.trans hsat).taintedValues _ (upwardReturns_visits (hsub f hf) hi hcall)
    · -- each index on record at the end was on record when 5b took its snapshot
      intro called same args bundles hkind hcall n hn actual hactual
      have hn' := hsub' f n (by rwa [TaintsParam, DenseMap.getD, hf])
      rw [TaintsParam, DenseMap.getD] at hn'
      cases hold : (upwardReturns M addr { s with discoveredNewFunctions := false }
          ).functionsTaintingPointerParams.lookup f with
      | none =>
        rw [hold] at hn'
        exact absurd hn' (DenseSet.not_mem_empty n)
      | some old =>
        rw [hold] at hn'
        exact (upwardParams_visits hold hi called same args bundles hkind hcall n hn' actual
          hactual).mono hsat

theorem upwardPhase_closed {cfg : Config} {fuel : Nat} {s t : PassState}
    (hmode : cfg.upwardInterprocMode = true) (h : s.upwardPhase M addr cfg fuel = some t) :
    UpwardClosed M t := by
  unfold upwardPhase at h
  split at h
  case isTrue =>
    obtain ⟨hinv, hcond⟩ := whileLoop_invariant
      (I := fun s => s.discoveredNewFunctions = true ∨ UpwardClosed M s)
      (fun s t _ _ hst => upwardRound_spec hst) (.inl rfl) h
    exact hinv.resolve_left (by rw [hcond]; decide)
  case isFalse hnone =>
    cases h
    rw [hmode, Bool.true_and, Bool.not_eq_true, Bool.or_eq_false_iff, Bool.not_eq_false',
      Bool.not_eq_false'] at hnone
    refine ⟨fun f hf => absurd hf (DenseSet.isEmpty_iff.mp hnone.1 f), fun f params hf => ?_⟩
    have hmem := DenseMap.mem_entries_iff.mpr hf
    rw [List.isEmpty_iff.mp hnone.2] at hmem
    cases hmem

end PassState

/-- **Caller closure of a run with upward tracking.** -/
theorem run_upward_closed (M : Module) (cfg : Config) (addr : Value → Nat) (fuel : Nat)
    (s : PassState) (hmode : cfg.upwardInterprocMode = true) (h : run M cfg addr fuel = some s) :
    (∀ i ∈ M.insts, ∀ f ∈ s.functionsReturningTaint, M.calledFunction i = some f →
      .inst i ∈ s.taintedValues) ∧
    ∀ f n, s.TaintsParam f n → ∀ i ∈ M.insts, ∀ called same args bundles,
      M.kind i = .call called same args bundles → M.calledFunction i = some f →
      ∀ actual, args[n]? = some actual →
        (∀ a, M.getPointerParameterOrigin actual = some a → s.TaintsParam i.func a.no) ∧
        (M.getPointerParameterOrigin actual = none →
          (M.isAlloca actual = true → actual ∈ s.taintedPointers) ∧
          ∀ gep type ptr indices, actual = .inst gep →
            M.kind gep = .getElementPtr type ptr indices →
            M.stripPointerCasts ptr ∈ s.taintedPointers) := by
  obtain ⟨t, _, ht⟩ := Option.bind_eq_some_iff.mp h
  have hclosed := PassState.upwardPhase_closed hmode ht
  refine ⟨fun i hi f hf hcall => hclosed.returning f hf i hi hcall, ?_⟩
  intro f n hn i hi called same args bundles hkind hcall actual hactual
  -- a parameter on record has an entry for its function
  cases hparams : s.functionsTaintingPointerParams.lookup f with
  | none =>
    rw [PassState.TaintsParam, DenseMap.getD, hparams] at hn
    exact absurd hn (DenseSet.not_mem_empty n)
  | some params =>
    rw [PassState.TaintsParam, DenseMap.getD, hparams] at hn
    have hrec := hclosed.params f params hparams i hi called same args bundles hkind hcall n hn
      actual hactual
    refine ⟨hrec.param, fun hnone => ⟨fun halloca => ?_, fun gep type ptr indices hgep hk => ?_⟩⟩
    · exact hrec.var hnone actual (by rw [PassState.pointedVar, if_pos halloca])
    · subst hgep
      refine hrec.var hnone _ ?_
      simp only [PassState.pointedVar, Module.isAlloca, PassState.gepBase, hk, Bool.false_eq_true,
        if_false]

/-- `g` stores the constant through its parameter, `h` passes its own parameter to `g`, and `f`
passes the address of a local variable to `h`. -/
def passThroughModule : Module :=
  .ofFunctions [
    { name := "g".toList
      argIsPointerTy := [true]
      blocks := [[{ kind := .store (.constantInt 32 5) (.arg ⟨0, 0⟩) }, { kind := .ret none }]] },
    { name := "h".toList
      argIsPointerTy := [true]
      blocks := [[{ kind := .call (.function 0) true [.arg ⟨1, 0⟩] [] }, { kind := .ret none }]] },
    { name := "f".toList
      argIsPointerTy := []
      blocks := [[
        { kind := .alloca false (.constantInt 32 1) },
        { kind := .call (.function 1) true [.inst ⟨2, 0, 0⟩] [] },
        { kind := .ret none }]] }] id

def passThroughConfig : Config :=
  { recursiveConfig with functionName := "g".toList, targetOpcode := "store".toList }

theorem run_upward_closed_passThrough :
    ∃ s, run passThroughModule passThroughConfig Value.slot 6 = some s ∧ s.TaintsParam 1 0 ∧
      .inst ⟨2, 0, 0⟩ ∈ s.taintedPointers := by
  have h : (run passThroughModule passThroughConfig Value.slot 6).map
      (fun s => decide (s.TaintsParam 0 0)) = some true := by decide
  obtain ⟨s, hs, hval⟩ := Option.map_eq_some_iff.mp h
  have hclosed := (run_upward_closed passThroughModule passThroughConfig _ 6 s rfl hs).2
  have hparam : s.TaintsParam 1 0 :=
    (hclosed 0 0 (of_decide_eq_true hval) ⟨1, 0, 0⟩ (by decide) _ _ _ _ rfl rfl _ rfl).1 ⟨1, 0⟩
      (by decide)
  have halloca := ((hclosed 1 0 hparam ⟨2, 0, 1⟩ (by decide) _ _ _ _ rfl rfl _ rfl).2
    (by decide)).1 (by decide)
  exact ⟨s, hs, hparam, halloca⟩

end LinuxAnalysis
