import LinuxAnalysis.Pass.DownwardLevels
import LinuxAnalysis.Pass.UpwardClosure

/-!
# Levels in a turn of the upward loop

A turn taints the calls, not tainted yet, of the functions it has on record when it begins, one level
above their callee, and what uses them.  A function without a level takes that of its first call.
-/

open LinuxAnalysis.Lib

namespace LinuxAnalysis

namespace PassState

section Relation

variable (M : Module) (s : PassState)

/-- Call `i` of a function `f` on record is not tainted. -/
structure NewCall (i : InstId) (f : Nat) : Prop where
  mem : i ∈ M.insts
  callee : M.calledFunction i = some f
  returning : f ∈ s.functionsReturningTaint
  fresh : .inst i ∉ s.taintedValues

/-- `v` is reached from an untainted call at this level. -/
inductive Climbs : Value → Int → Prop where
  | call {i f} : NewCall M s i f → Climbs (.inst i) (s.calleeLevel f + 1)
  | use {v u level} : Climbs v level → u ∈ M.users v → .inst u ∉ s.taintedValues →
      Climbs (.inst u) level

/-- A value reached from an untainted call is returned by `f`. -/
def ClimbsReturn (f : Nat) : Prop :=
  ∃ u level value, Climbs M s (.inst u) level ∧ M.kind u = .ret (some value) ∧ u.func = f

/-- The order in which a turn visits the calls does not matter: they bring one level to each value
and to each function without a level, and no function that is called gets its level in this turn. -/
structure TurnUnambiguous : Prop where
  values : ∀ v level level', Climbs M s v level → Climbs M s v level' → level = level'
  functions : ∀ i j f g, NewCall M s i f → NewCall M s j g → i.func = j.func →
    i.func ∉ s.functionLevel → s.calleeLevel f = s.calleeLevel g
  callees : ∀ i j f g, NewCall M s i f → NewCall M s j g → j.func = f → f ∈ s.functionLevel

end Relation

variable {M : Module} {addr : Value → Nat}

/-- The values and functions of two states agree, and so do their levels. -/
structure InStep (s t : PassState) : Prop where
  values : ∀ v, v ∈ s.taintedValues ↔ v ∈ t.taintedValues
  levels : ∀ v ∈ s.taintedValues, s.valueLevel.lookup v = t.valueLevel.lookup v
  functions : ∀ f, s.functionLevel.lookup f = t.functionLevel.lookup f
  returning : ∀ f, f ∈ s.functionsReturningTaint ↔ f ∈ t.functionsReturningTaint

theorem InStep.symm {s t : PassState} (h : s.InStep t) : t.InStep s where
  values v := (h.values v).symm
  levels v hv := (h.levels v ((h.values v).mpr hv)).symm
  functions f := (h.functions f).symm
  returning f := (h.returning f).symm

theorem InStep.calleeLevel {s t : PassState} (h : s.InStep t) (f : Nat) :
    s.calleeLevel f = t.calleeLevel f := by
  rw [PassState.calleeLevel, PassState.calleeLevel, DenseMap.getD, DenseMap.getD, h.functions]

theorem InStep.newCall {s t : PassState} (h : s.InStep t) {i : InstId} {f : Nat}
    (hi : NewCall M s i f) : NewCall M t i f :=
  ⟨hi.mem, hi.callee, (h.returning f).mp hi.returning, fun hmem => hi.fresh ((h.values _).mpr hmem)⟩

theorem InStep.climbs {s t : PassState} (h : s.InStep t) {v : Value} {level : Int}
    (hv : Climbs M s v level) : Climbs M t v level := by
  induction hv with
  | call hi =>
    rw [h.calleeLevel]
    exact .call (h.newCall hi)
  | use _ hu hfresh ih => exact .use ih hu fun hmem => hfresh ((h.values _).mpr hmem)

theorem TurnUnambiguous.congr {s t : PassState} (hs : TurnUnambiguous M s) (h : s.InStep t) :
    TurnUnambiguous M t := by
  have hmem (f : Nat) : f ∈ s.functionLevel ↔ f ∈ t.functionLevel := by
    rw [← AList.lookup_isSome, h.functions, AList.lookup_isSome]
  refine ⟨fun v level level' hv hv' => hs.values v level level' (h.symm.climbs hv) (h.symm.climbs hv'),
    fun i j f g hi hj hfunc hnone => ?_, fun i j f g hi hj hfunc => (hmem f).mp
      (hs.callees i j f g (h.symm.newCall hi) (h.symm.newCall hj) hfunc)⟩
  rw [← h.calleeLevel, ← h.calleeLevel]
  exact hs.functions i j f g (h.symm.newCall hi) (h.symm.newCall hj) hfunc
    fun hf => hnone ((hmem _).mp hf)

theorem Climbs.fresh {s : PassState} {v : Value} {level : Int} (h : Climbs M s v level) :
    v ∉ s.taintedValues := by
  cases h with
  | call hi => exact hi.fresh
  | use _ _ hfresh => exact hfresh

/-- A state within the turn that began in `s₀`, when nothing tainted is stored. -/
structure Turn (M : Module) (s₀ t : PassState) : Prop where
  spreads : Spreads (Climbs M s₀) s₀ t
  functions : ∀ g, t.functionLevel.lookup g = s₀.functionLevel.lookup g ∧ (g ∈ s₀.functionLevel ∨
      ∀ i f, NewCall M s₀ i f → i.func = g → .inst i ∉ t.taintedValues) ∨
    g ∉ s₀.functionLevel ∧ ∃ i f, NewCall M s₀ i f ∧ i.func = g ∧
      t.functionLevel.lookup g = some (s₀.calleeLevel f + 1)
  kept : s₀.functionsReturningTaint ⊆ t.functionsReturningTaint
  returning : ∀ f ∈ t.functionsReturningTaint,
    f ∈ s₀.functionsReturningTaint ∨ ClimbsReturn M s₀ f
  returns : ∀ u value, .inst u ∈ t.taintedValues → .inst u ∉ s₀.taintedValues →
    M.kind u = .ret (some value) → u.func ∈ t.functionsReturningTaint
  discovered : t.discoveredNewFunctions = true ↔
    ∃ f ∈ t.functionsReturningTaint, f ∉ s₀.functionsReturningTaint
  pointers : ∀ p, p ∉ t.taintedPointers
  params : t.functionsTaintingPointerParams = ∅
  queued : ∀ v ∈ t.worklist, v ∈ t.taintedValues ∧ v ∉ s₀.taintedValues

/-- Whatever the turn has tainted is queued or has all its users tainted. -/
def UsersTainted (M : Module) (s₀ t : PassState) : Prop :=
  ∀ v ∈ t.taintedValues, v ∉ s₀.taintedValues →
    v ∈ t.worklist ∨ ∀ u ∈ M.users v, .inst u ∈ t.taintedValues

theorem UsersTainted.extend {s₀ t u : PassState} (ht : UsersTainted M s₀ t) (h : t.Extends u) :
    UsersTainted M s₀ u := by
  intro v hv hnew
  rcases h.queued v hv with hv | hv
  · exact (ht v hv hnew).imp (h.worklist v) fun hall w hw => h.taintedValues _ (hall w hw)
  · exact .inl hv

theorem kind_of_calledFunction {i : InstId} {f : Nat} (h : M.calledFunction i = some f) :
    ∃ called same args bundles, M.kind i = .call called same args bundles := by
  unfold Module.calledFunction at h
  split at h
  next g args bundles hkind => exact ⟨_, _, _, _, hkind⟩
  next => cases h

/-- The level of a function that a new call looks at is what it was when the turn began. -/
theorem Turn.calleeLevel {s₀ t : PassState} (ht : Turn M s₀ t) (hs : TurnUnambiguous M s₀)
    {i : InstId} {f : Nat} (hi : NewCall M s₀ i f) : t.calleeLevel f = s₀.calleeLevel f := by
  rw [PassState.calleeLevel, PassState.calleeLevel, DenseMap.getD, DenseMap.getD]
  rcases ht.functions f with ⟨hsame, _⟩ | ⟨hnone, j, g, hj, hfunc, _⟩
  · rw [hsame]
  · exact absurd (hs.callees i j f g hi hj hfunc) hnone

/-- A visit that taints a call. -/
theorem Turn.call {s₀ t u : PassState} (ht : Turn M s₀ t) {i : InstId} {f : Nat}
    (hi : NewCall M s₀ i f) (hset : t.SetsLevel u (.inst i) (s₀.calleeLevel f + 1))
    (htainted : .inst i ∈ u.taintedValues)
    (hlevels : ∀ g, u.functionLevel.lookup g =
      if g = i.func ∧ g ∉ t.functionLevel then some (s₀.calleeLevel f + 1)
      else t.functionLevel.lookup g)
    (hrecords : t.SameRecords u) (hflag : u.discoveredNewFunctions = t.discoveredNewFunctions)
    (hworklist : u.worklist = .inst i :: t.worklist) : Turn M s₀ u where
  spreads := ht.spreads.trans (.of_sets hset (.call hi))
  functions g := by
    rw [hlevels]
    split
    next hg =>
      -- the first call of the turn in its function sets the level
      rcases ht.functions g with ⟨hsame, _⟩ | ⟨_, _, _, _, _, hlookup⟩
      · refine .inr ⟨fun h => hg.2 ?_, i, f, hi, hg.1.symm, rfl⟩
        rwa [← AList.lookup_isSome, hsame, AList.lookup_isSome]
      · rw [AList.lookup_eq_none.mpr hg.2] at hlookup
        cases hlookup
    next hg =>
      rcases ht.functions g with ⟨hsame, hnone⟩ | hfirst
      · refine .inl ⟨hsame, or_iff_not_imp_left.mpr fun hg₀ j f' hj hfunc hmem => ?_⟩
        rcases hset.values _ hmem with hold | he
        · exact hnone.resolve_left hg₀ j f' hj hfunc hold
        · -- the function of this call had a level already
          cases he
          refine hg ⟨hfunc.symm, fun h => hg₀ ?_⟩
          rwa [← AList.lookup_isSome, ← hsame, AList.lookup_isSome]
      · exact .inr hfirst
  kept := by
    rw [hrecords.returning]
    exact ht.kept
  returning f' hf' := ht.returning f' (hrecords.returning ▸ hf')
  returns v value hmem hnew hkind := by
    rw [hrecords.returning]
    rcases hset.values _ hmem with hold | he
    · exact ht.returns v value hold hnew hkind
    · cases he
      -- a call is no return
      obtain ⟨_, _, _, _, hcall⟩ := kind_of_calledFunction hi.callee
      rw [hkind] at hcall
      cases hcall
  discovered := by
    rw [hflag, hrecords.returning]
    exact ht.discovered
  pointers p := hrecords.pointers ▸ ht.pointers p
  params := hrecords.params.trans ht.params
  queued v hv := by
    rw [hworklist] at hv
    rcases List.mem_cons.mp hv with rfl | hv
    · exact ⟨htainted, hi.fresh⟩
    · exact (ht.queued v hv).imp_left (hset.kept v)

theorem Turn.taintReturningCall {s₀ t : PassState} (ht : Turn M s₀ t)
    (hs : TurnUnambiguous M s₀) {f : Nat} (hf : f ∈ s₀.functionsReturningTaint) {i : InstId}
    (hi : i ∈ M.insts) : Turn M s₀ (t.taintReturningCall M f i) := by
  unfold PassState.taintReturningCall
  split
  next hcall =>
    split
    next => exact ht
    next hnew =>
      have hcallee : NewCall M s₀ i f := ⟨hi, hcall, hf, fun h => hnew (ht.spreads.values _ h)⟩
      have htainted : .inst i ∈ t.taintedValues.insert (.inst i) :=
        DenseSet.mem_insert.mpr (.inl rfl)
      have hvalues (w : Value) (hw : w ∈ t.taintedValues.insert (.inst i)) :
          w ∈ t.taintedValues ∨ w = .inst i := (DenseSet.mem_insert.mp hw).symm
      dsimp only
      -- the level of the callee is the one the turn began with
      rw [ht.calleeLevel hs hcallee]
      unfold initFunctionLevel
      split
      next hlevel =>
        refine ht.call hcallee ⟨hnew, DenseSet.subset_insert _ _, hvalues, rfl, .inl rfl⟩ htainted
          (fun g => ?_) ⟨rfl, rfl, rfl, rfl⟩ rfl rfl
        rw [if_neg fun hg => hg.2 (hg.1 ▸ hlevel)]
        rfl
      next hlevel =>
        refine ht.call hcallee ⟨hnew, DenseSet.subset_insert _ _, hvalues, rfl, .inr ⟨i.func, rfl⟩⟩
          htainted (fun g => ?_) ⟨rfl, rfl, rfl, rfl⟩ rfl rfl
        show (t.functionLevel.insert i.func _).lookup g = _
        rw [DenseMap.lookup_insert_ite]
        by_cases hg : g = i.func
        · rw [if_pos hg, if_pos ⟨hg, hg ▸ hlevel⟩]
        · rw [if_neg hg, if_neg fun h => hg h.1]
  next => exact ht

theorem Turn.upwardReturns {s₀ : PassState} (ht : Turn M s₀ s₀) (hs : TurnUnambiguous M s₀) :
    Turn M s₀ (s₀.upwardReturns M addr) := by
  refine foldl_invariant (I := Turn M s₀) (fun t f hf ht => ?_) ht
  exact foldl_invariant (fun t i hi ht => ht.taintReturningCall hs (mem_sortOn.mp hf) hi) ht

theorem processStoreForTaint_of_no_store {v : Value} {u : InstId}
    (hstore : ∀ ptr, M.kind u ≠ .store v ptr) (s : PassState) :
    s.processStoreForTaint M u v = s := by
  unfold processStoreForTaint
  split
  next value ptr hkind =>
    split
    next => rfl
    next hvalue =>
      rw [not_not] at hvalue
      subst hvalue
      exact absurd hkind (hstore ptr)
  next => rfl

/-- A visit that taints a user.  A return of the value is put on record. -/
theorem Turn.use {s₀ t w : PassState} (ht : Turn M s₀ t) {u : InstId} {level : Int}
    (huse : Climbs M s₀ (.inst u) level) (hcall : ∀ f, ¬ NewCall M s₀ u f)
    (hset : t.SetsLevel w (.inst u) level) (htainted : .inst u ∈ w.taintedValues)
    (hlevels : w.functionLevel = t.functionLevel) (hpointers : w.taintedPointers = t.taintedPointers)
    (hparams : w.functionsTaintingPointerParams = t.functionsTaintingPointerParams)
    (hworklist : w.worklist = .inst u :: t.worklist)
    (hreturning : ∀ f, f ∈ w.functionsReturningTaint ↔ f ∈ t.functionsReturningTaint ∨
      f = u.func ∧ ∃ value, M.kind u = .ret (some value))
    (hflag : w.discoveredNewFunctions = true ↔ t.discoveredNewFunctions = true ∨
      u.func ∉ t.functionsReturningTaint ∧ ∃ value, M.kind u = .ret (some value)) :
    Turn M s₀ w where
  spreads := ht.spreads.trans (.of_sets hset huse)
  functions g := by
    rw [hlevels]
    refine (ht.functions g).imp_left fun ⟨hsame, hnone⟩ => ⟨hsame, hnone.imp_right ?_⟩
    intro hnone i f hi hfunc hmem
    rcases hset.values _ hmem with hold | he
    · exact hnone i f hi hfunc hold
    -- a use is no call of the turn
    · cases he
      exact hcall f hi
  kept f hf := (hreturning f).mpr (.inl (ht.kept f hf))
  returning f hf := by
    rcases (hreturning f).mp hf with hold | ⟨rfl, value, hkind⟩
    · exact ht.returning f hold
    · exact .inr ⟨u, level, value, huse, hkind, rfl⟩
  returns i value hmem hnew hkind := by
    rw [hreturning]
    rcases hset.values _ hmem with hold | he
    · exact .inl (ht.returns i value hold hnew hkind)
    · cases he
      exact .inr ⟨rfl, value, hkind⟩
  discovered := by
    rw [hflag, ht.discovered]
    constructor
    · rintro (⟨f, hf, hnew⟩ | ⟨hnew, hkind⟩)
      · exact ⟨f, (hreturning f).mpr (.inl hf), hnew⟩
      · exact ⟨u.func, (hreturning _).mpr (.inr ⟨rfl, hkind⟩), fun h => hnew (ht.kept _ h)⟩
    · rintro ⟨f, hf, hnew⟩
      -- new against the beginning: known already, or found by this use
      by_cases hold : f ∈ t.functionsReturningTaint
      · exact .inl ⟨f, hold, hnew⟩
      · obtain ⟨rfl, hkind⟩ := ((hreturning f).mp hf).resolve_left hold
        exact .inr ⟨hold, hkind⟩
  pointers p := hpointers ▸ ht.pointers p
  params := hparams.trans ht.params
  queued v hv := by
    rw [hworklist] at hv
    rcases List.mem_cons.mp hv with rfl | hv
    · exact ⟨htainted, huse.fresh⟩
    · exact (ht.queued v hv).imp_left (hset.kept v)

theorem Turn.upwardUser {s₀ t : PassState} (ht : Turn M s₀ t)
    (hstores : ∀ v level, Climbs M s₀ v level → ∀ i ∈ M.insts, ∀ ptr, M.kind i ≠ .store v ptr)
    (hcalls : ∀ i f, NewCall M s₀ i f → .inst i ∈ t.taintedValues)
    {v : Value} (hv : v ∈ t.taintedValues) (hnew : v ∉ s₀.taintedValues) {u : InstId}
    (hu : u ∈ M.users v) : Turn M s₀ (t.upwardUser M v u) := by
  obtain ⟨level, hclimbs, hlevel⟩ := ht.spreads.taken v hv hnew
  unfold PassState.upwardUser
  split
  next => exact ht
  next hfresh =>
    have huse : Climbs M s₀ (.inst u) level :=
      .use hclimbs hu fun h => hfresh (ht.spreads.values _ h)
    have hcall (f : Nat) : ¬ NewCall M s₀ u f := fun h => hfresh (hcalls u f h)
    have htainted : .inst u ∈ t.taintedValues.insert (.inst u) := DenseSet.mem_insert.mpr (.inl rfl)
    have hvalues (w : Value) (hw : w ∈ t.taintedValues.insert (.inst u)) :
        w ∈ t.taintedValues ∨ w = .inst u := (DenseSet.mem_insert.mp hw).symm
    dsimp only
    rw [processStoreForTaint_of_no_store (hstores v level hclimbs u (Module.mem_users.mp hu).1),
      getLevel_of_lookup hlevel]
    unfold upwardReturn
    split
    next value hkind =>
      -- the value returned is the one visited
      have hvalue : value = v := by
        have hop := (Module.mem_users.mp hu).2
        rw [Module.operands, hkind] at hop
        exact (List.mem_singleton.mp hop).symm
      rw [if_pos hvalue]
      refine ht.use huse hcall ⟨hfresh, DenseSet.subset_insert _ _, hvalues, rfl, .inl rfl⟩ htainted
        rfl rfl rfl rfl (fun f => ?_) ?_
      · show f ∈ t.functionsReturningTaint.insert u.func ↔ _
        rw [DenseSet.mem_insert, or_comm, and_iff_left ⟨value, hkind⟩]
      · show (t.discoveredNewFunctions || !decide (u.func ∈ t.functionsReturningTaint)) = true ↔ _
        rw [Bool.or_eq_true, Bool.not_eq_true', decide_eq_false_iff_not, and_iff_left ⟨value, hkind⟩]
    next hret =>
      have hnone : ¬ ∃ value, M.kind u = .ret (some value) := not_exists.mpr hret
      exact ht.use huse hcall ⟨hfresh, DenseSet.subset_insert _ _, hvalues, rfl, .inl rfl⟩ htainted
        rfl rfl rfl rfl (fun f => by rw [or_iff_left fun h => hnone h.2]; rfl)
        (by rw [or_iff_left fun h => hnone h.2]; rfl)

/-! ## The turn -/

/-- What the drains of a turn keep, once all its calls are tainted. -/
structure Draining (M : Module) (s₀ t : PassState) : Prop where
  turn : Turn M s₀ t
  users : UsersTainted M s₀ t
  calls : ∀ i f, NewCall M s₀ i f → .inst i ∈ t.taintedValues

theorem mem_upwardUser (v : Value) (u : InstId) (s : PassState) :
    .inst u ∈ (s.upwardUser M v u).taintedValues := by
  unfold PassState.upwardUser
  split
  next h => exact h
  next =>
    have hmem : .inst u ∈ ((s.setValueLevel (.inst u) (s.getLevel v)).taintValue (.inst u)).taintedValues :=
      DenseSet.mem_insert.mpr (.inl rfl)
    exact ((discovers_processStoreForTaint _ _ _).trans (discovers_upwardReturn _ _ _)).taintedValues
      _ hmem

theorem Draining.upwardPop {s₀ t : PassState} (ht : Draining M s₀ t)
    (hstores : ∀ v level, Climbs M s₀ v level → ∀ i ∈ M.insts, ∀ ptr, M.kind i ≠ .store v ptr) :
    Draining M s₀ (t.upwardPop M addr) := by
  unfold PassState.upwardPop
  split
  next => exact ht
  next v rest hwl =>
    obtain ⟨hv, hnew⟩ := ht.turn.queued v (by rw [hwl]; exact List.mem_cons_self)
    have hpopped : Turn M s₀ { t with worklist := rest } :=
      { ht.turn with
        spreads := ht.turn.spreads.trans (.of_same ⟨rfl, rfl, rfl⟩)
        queued := fun w hw => ht.turn.queued w (by rw [hwl]; exact List.mem_cons_of_mem v hw) }
    -- all users of the popped value, in the order of the addresses
    let visited := (M.getSortedUsers addr v).foldl (PassState.upwardUser M v) { t with worklist := rest }
    have hfold : Turn M s₀ visited ∧ PassState.Extends { t with worklist := rest } visited := by
      refine foldl_invariant (I := fun w : PassState => Turn M s₀ w ∧
        PassState.Extends { t with worklist := rest } w) (fun w u hu hw => ?_) ⟨hpopped, .refl _⟩
      have hvw : v ∈ w.taintedValues := hw.2.taintedValues v hv
      have huser := mem_sortOn.mp hu
      exact ⟨hw.1.upwardUser hstores (fun i f hi => hw.2.taintedValues _ (ht.calls i f hi)) hvw hnew
        huser, hw.2.trans (extends_of_steps (fun _ _ => UpwardStep.extends)
          (upwardUser_steps hvw huser))⟩
    have hvisit := foldl_visits (f := PassState.upwardUser M v)
      (P := fun u w => .inst u ∈ w.taintedValues)
      (M.getSortedUsers addr v) (fun w u _ => mem_upwardUser v u w)
      (fun w u _ u' hu' => (discovers_upwardUser v w u).taintedValues _ hu')
      { t with worklist := rest }
    refine ⟨hfold.1, fun w hw hfresh => ?_, fun i f hi => hfold.2.taintedValues _ (ht.calls i f hi)⟩
    -- a value from before the visit, or one the visit pushed
    rcases hfold.2.queued w hw with hold | hqueued
    · rcases ht.users w hold hfresh with hqueued | hall
      · rw [hwl, List.mem_cons] at hqueued
        rcases hqueued with rfl | hqueued
        · exact .inr fun u hu => hvisit u (mem_sortOn.mpr hu)
        · exact .inl (hfold.2.worklist w hqueued)
      · exact .inr fun u hu => hfold.2.taintedValues _ (hall u hu)
    · exact .inl hqueued

theorem Draining.upwardSaturate {s₀ t u : PassState} (ht : Draining M s₀ t)
    (hstores : ∀ v level, Climbs M s₀ v level → ∀ i ∈ M.insts, ∀ ptr, M.kind i ≠ .store v ptr)
    {fuel : Nat} (h : t.upwardSaturate M addr fuel = some u) :
    Draining M s₀ u ∧ u.worklist = [] := by
  have hdrain {a b : PassState} (ha : Draining M s₀ a) (h : a.upwardDrain M addr fuel = some b) :
      Draining M s₀ b ∧ b.worklist = [] := by
    obtain ⟨hb, hcond⟩ := whileLoop_invariant (I := Draining M s₀)
      (fun x y hx _ hxy => by cases hxy; exact hx.upwardPop hstores) ha h
    exact ⟨hb, by simpa using hcond⟩
  refine loop_invariant (I := Draining M s₀) (Q := fun u => Draining M s₀ u ∧ u.worklist = [])
    (fun a b ha hab => ?_) (fun a b ha hab => ?_) ht h
  · obtain ⟨x, hx, hxb⟩ := Option.map_eq_some_iff.mp hab
    dsimp only at hxb
    rw [pointersToScan_of_no_pointers (hdrain ha hx).1.turn.pointers,
      if_pos List.isEmpty_nil] at hxb
    cases hxb
  · obtain ⟨x, hx, hxb⟩ := Option.map_eq_some_iff.mp hab
    dsimp only at hxb
    rw [pointersToScan_of_no_pointers (hdrain ha hx).1.turn.pointers,
      if_pos List.isEmpty_nil] at hxb
    cases hxb
    exact hdrain ha hx

section InStep

variable {s₀ t₀ u w : PassState}

end InStep

/-! ## Turns of two runs -/

/-- Between two turns nothing is queued, and nothing is on record about memory. -/
structure Quiet (s : PassState) : Prop where
  pointers : ∀ p, p ∉ s.taintedPointers
  params : s.functionsTaintingPointerParams = ∅
  empty : s.worklist = []

theorem InStep.trans {s t u : PassState} (h₁ : s.InStep t) (h₂ : t.InStep u) : s.InStep u where
  values v := (h₁.values v).trans (h₂.values v)
  levels v hv := (h₁.levels v hv).trans (h₂.levels v ((h₁.values v).mp hv))
  functions f := (h₁.functions f).trans (h₂.functions f)
  returning f := (h₁.returning f).trans (h₂.returning f)

end PassState

end LinuxAnalysis
