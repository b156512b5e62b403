import LinuxAnalysis.Pass.Levels
import LinuxAnalysis.Pass.LoadVerdict
import LinuxAnalysis.Pass.Visit

/-!
# Tainted values without a level

The statistics iterate over `ValueLevel`.  Every update that taints a value gives it a level, except
the load scan: `ensureLevelSet` copies the level of the load's function and does nothing when the
function has none.  What is tainted without a level stays without one.
-/

open LinuxAnalysis.Lib

namespace LinuxAnalysis

/-- The next step from a point taints load `i`. -/
inductive TakesLoad (M : Module) : Point → InstId → Prop where
  | forward {ptrs p i rest changed s} : PassState.loadVerdict M true p s i = .tainted →
      TakesLoad M ⟨.forwardLoads ptrs ((p, i) :: rest) changed, s⟩ i
  | upward {old ptrs p i rest changed s} : PassState.loadVerdict M false p s i = .tainted →
      TakesLoad M ⟨.upwardLoads old ptrs ((p, i) :: rest) changed, s⟩ i

namespace PassState

/-- `ensureLevelSet(I)` leaves `I` with a level. -/
def LevelKnown (s : PassState) (i : InstId) : Prop :=
  .inst i ∈ s.valueLevel ∨ i.func ∈ s.functionLevel

/-- Every tainted instruction and argument has a level. -/
structure Covered (s : PassState) : Prop where
  insts : ∀ i, .inst i ∈ s.taintedValues → .inst i ∈ s.valueLevel
  args : ∀ a, .arg a ∈ s.taintedValues → .arg a ∈ s.valueLevel

/-- What is tainted from `s` to `t` has a level in `t`. -/
structure CoversNew (s t : PassState) : Prop where
  values : ∀ v ∈ t.taintedValues, v ∈ s.taintedValues ∨ v ∈ t.valueLevel
  levels : ∀ v ∈ s.valueLevel, v ∈ t.valueLevel

variable {M : Module} {cfg : Config} {addr : Value → Nat}

theorem Covered.mono {s t : PassState} (hs : s.Covered) (h : s.CoversNew t) : t.Covered := by
  constructor
  · intro i hi
    exact (h.values _ hi).elim (fun hold => h.levels _ (hs.insts i hold)) id
  · intro a ha
    exact (h.values _ ha).elim (fun hold => h.levels _ (hs.args a hold)) id

theorem CoversNew.refl (s : PassState) : s.CoversNew s := ⟨fun _ h => .inl h, fun _ h => h⟩

theorem CoversNew.trans {s t u : PassState} (h₁ : s.CoversNew t) (h₂ : t.CoversNew u) :
    s.CoversNew u := by
  refine ⟨fun v hv => ?_, fun v hv => h₂.levels v (h₁.levels v hv)⟩
  rcases h₂.values v hv with hold | hnew
  · exact (h₁.values v hold).imp_right (h₂.levels v)
  · exact .inr hnew

theorem coversNew_of_steps {R : PassState → PassState → Prop} (hR : ∀ s t, R s t → s.CoversNew t)
    {s t : PassState} (h : Relation.ReflTransGen R s t) : s.CoversNew t := by
  induction h with
  | refl => exact .refl s
  | tail _ hstep ih => exact ih.trans (hR _ _ hstep)

theorem SameLevels.coversNew {s t : PassState} (h : s.SameLevels t) : s.CoversNew t := by
  constructor
  · intro v hv
    rw [h.values] at hv
    exact .inl hv
  · intro v hv
    rwa [h.valueLevel]

theorem SetsLevel.coversNew {s t : PassState} {v : Value} {level : Int}
    (h : s.SetsLevel t v level) : s.CoversNew t := by
  constructor
  · intro w hw
    refine (h.values w hw).imp_right fun he => ?_
    rw [h.valueLevel, AList.mem_insert]
    exact .inl he
  · intro w hw
    rw [h.valueLevel, AList.mem_insert]
    exact .inr hw

theorem coversNew_taintParameter {a : ArgId} {level : Int} {s : PassState}
    (h : .arg a ∉ s.taintedValues) : s.CoversNew (s.taintParameter a level) := by
  rw [taintParameter, if_neg h]
  constructor
  · intro w hw
    refine (DenseSet.mem_insert.mp hw).symm.imp_right fun he => ?_
    exact (AList.mem_insert _).mpr (.inl he)
  · intro w hw
    exact (AList.mem_insert _).mpr (.inr hw)

/-! ## The updates that set a level -/

theorem SeedStep.coversNew {s t : PassState} (h : SeedStep M cfg s t) : s.CoversNew t := by
  cases h with
  | @source i _ _ hnew =>
    have hset : s.SetsLevel (((s.taintValue (.inst i)).setFunctionLevel i.func 0).setValueLevel
        (.inst i) 0) (.inst i) 0 :=
      ⟨hnew, DenseSet.subset_insert _ _, fun _ hw => (DenseSet.mem_insert.mp hw).symm, rfl,
        .inr ⟨i.func, rfl⟩⟩
    exact hset.coversNew
  | returned _ _ _ => exact SameLevels.coversNew ⟨rfl, rfl, rfl⟩
  | @parameterStore i _ _ ptr a _ _ _ _ =>
    have hrecord := sameLevels_recordFieldAccess i.func a.no (M.extractStructFieldIndices ptr)
      (s.addTaintingPointerParam i.func a.no)
    exact SameLevels.coversNew ⟨hrecord.values, hrecord.valueLevel, hrecord.functionLevel⟩
  | pointer _ _ _ => exact (sameLevels_taintPointer _ _ s).coversNew
  | parameter _ _ _ _ _ hnew => exact coversNew_taintParameter hnew

theorem ForwardStep.coversNew {s t : PassState} (h : ForwardStep M cfg addr s t) :
    s.CoversNew t := by
  cases h with
  | callLevel _ _ _ _ =>
    exact ⟨fun _ hw => .inl hw, fun _ hw => (AList.mem_insert _).mpr (.inr hw)⟩
  | parameter _ _ _ _ _ hnew => exact coversNew_taintParameter hnew
  | returned _ _ _ => exact SameLevels.coversNew ⟨rfl, rfl, rfl⟩
  | parameterStore _ _ _ _ => exact SameLevels.coversNew ⟨rfl, rfl, rfl⟩
  | @pointer v i ptr _ _ _ _ =>
    have hptr := sameLevels_taintPointer (M.stripPointerCasts ptr) i s
    exact SameLevels.coversNew ⟨hptr.values, hptr.valueLevel, hptr.functionLevel⟩
  | use _ _ hnew => exact (setsLevel_use hnew).coversNew

theorem UpwardStep.coversNew {start s t : PassState} (h : UpwardStep M start s t) : s.CoversNew t := by
  have hcaller (u : PassState) (f : Nat) (level : Int) : u.CoversNew (u.initFunctionLevel f level) := by
    obtain ⟨hvalues, hlevels⟩ := initFunctionLevel_levels f level u
    constructor
    · intro v hv
      rw [hvalues] at hv
      exact .inl hv
    · intro v hv
      rwa [hlevels]
  cases h with
  -- the call is the one new value, and its level is set with it
  | @call f i _ _ _ hnew =>
    obtain ⟨hvalues, hlevels⟩ := initFunctionLevel_levels i.func (s.calleeLevel f + 1)
      (s.setValueLevel (.inst i) (s.calleeLevel f + 1))
    constructor
    · intro w hw
      have hw' : w ∈ (((s.setValueLevel (.inst i) (s.calleeLevel f + 1)).initFunctionLevel i.func
          (s.calleeLevel f + 1)).taintedValues).insert (.inst i) := hw
      rw [hvalues, DenseSet.mem_insert] at hw'
      refine hw'.symm.imp_right fun he => ?_
      show w ∈ ((s.setValueLevel (.inst i) (s.calleeLevel f + 1)).initFunctionLevel i.func
        (s.calleeLevel f + 1)).valueLevel
      rw [hlevels]
      exact (AList.mem_insert _).mpr (.inl he)
    · intro w hw
      show w ∈ ((s.setValueLevel (.inst i) (s.calleeLevel f + 1)).initFunctionLevel i.func
        (s.calleeLevel f + 1)).valueLevel
      rw [hlevels]
      exact (AList.mem_insert _).mpr (.inr hw)
  | @passThrough f n i actual a _ _ _ _ _ =>
    have hquiet : s.SameLevels (s.discoverTaintingPointerParam i.func a.no) := ⟨rfl, rfl, rfl⟩
    exact hquiet.coversNew.trans (hcaller _ _ _)
  | pointed _ _ _ _ _ => exact (hcaller s _ _).trans (sameLevels_taintPointer _ _ _).coversNew
  | field _ _ _ _ _ _ _ _ _ _ _ => exact (sameLevels_taintPointer _ _ s).coversNew
  | use _ _ hnew => exact (setsLevel_use hnew).coversNew
  | store _ _ _ => exact (sameLevels_taintPointer _ _ s).coversNew
  | parameterStore _ _ _ _ => exact SameLevels.coversNew ⟨rfl, rfl, rfl⟩
  | fields => exact (sameLevels_recordFieldAccess _ _ _ s).coversNew
  | returned _ _ _ => exact SameLevels.coversNew ⟨rfl, rfl, rfl⟩

/-! ## The load scan -/

theorem ensureLevelSet_levels (i : InstId) (s : PassState) :
    (s.ensureLevelSet i).taintedValues = s.taintedValues ∧
      (∀ v ∈ s.valueLevel, v ∈ (s.ensureLevelSet i).valueLevel) ∧
      (.inst i ∈ (s.ensureLevelSet i).valueLevel ↔ s.LevelKnown i) := by
  unfold ensureLevelSet
  split
  next hlevel => exact ⟨rfl, fun _ h => h, fun _ => .inl hlevel, fun _ => hlevel⟩
  next hnone =>
    split
    next level hlookup =>
      refine ⟨rfl, fun v hv => (AList.mem_insert _).mpr (.inr hv), fun _ => .inr ?_,
        fun _ => (AList.mem_insert _).mpr (.inl rfl)⟩
      rw [← AList.lookup_isSome, hlookup]
      rfl
    next hlookup =>
      refine ⟨rfl, fun _ h => h, fun h => absurd h hnone, fun h => ?_⟩
      rcases h with h | h
      · exact absurd h hnone
      · rw [← AList.lookup_isSome, hlookup] at h
        cases h

/-- One load: new taint has a level when the load finds one. -/
theorem coversNew_scanLoad {killTracking : Bool} {p : Value} {r : PassState × Bool} {i : InstId}
    (h : loadVerdict M killTracking p r.1 i = .tainted → r.1.LevelKnown i) :
    r.1.CoversNew (scanLoad M killTracking p r i).1 := by
  obtain ⟨hvalues, hlevels, hknown⟩ := ensureLevelSet_levels i r.1
  have hensure : r.1.CoversNew (r.1.ensureLevelSet i) := by
    refine ⟨fun v hv => ?_, hlevels⟩
    rw [hvalues] at hv
    exact .inl hv
  rw [scanLoad_eq_loadVerdict]
  split
  · exact .refl _
  · exact .refl _
  · exact hensure
  · exact hensure
  next htaken =>
    refine hensure.trans ⟨fun v hv => ?_, fun _ hv => hv⟩
    refine (DenseSet.mem_insert.mp hv).symm.imp_right fun he => ?_
    rw [he]
    exact hknown.mpr (h htaken)

end PassState

namespace Point

variable {M : Module} {cfg : Config} {addr : Value → Nat}

/-- Only a load that finds no level is tainted without one. -/
theorem coversNew_of_visit {m : Point} {t : PassState} (h : Visit M cfg addr m t)
    (hloads : ∀ i, TakesLoad M m i → m.state.LevelKnown i) : m.state.CoversNew t := by
  have hupward {s t : PassState} (hsteps : Relation.ReflTransGen (PassState.UpwardStep M s) s t) :
      s.CoversNew t :=
    PassState.coversNew_of_steps (fun _ _ => PassState.UpwardStep.coversNew) hsteps
  cases h with
  | @seed i op rest n found s hi hop =>
    apply PassState.coversNew_of_steps (R := PassState.SeedStep M cfg)
    · exact fun _ _ => PassState.SeedStep.coversNew
    · exact PassState.seedOperand_steps hi hop ⟨s, n, found⟩
  | forwardUser hv hu =>
    apply PassState.coversNew_of_steps (R := PassState.ForwardStep M cfg addr)
    · exact fun _ _ => PassState.ForwardStep.coversNew
    · exact PassState.forwardUser_steps hv hu
  -- a kill changes no value and no level
  | @kill i rest s _ =>
    have hsame : s.SameLevels (s.identifyKillStore M i) := by
      unfold PassState.identifyKillStore
      split
      · dsimp only
        split <;> exact ⟨rfl, rfl, rfl⟩
      · exact ⟨rfl, rfl, rfl⟩
    exact hsame.coversNew
  -- a load takes its level from its function, which is where a value can stay without one
  | @forwardLoad ptrs p i rest changed s _ _ =>
    apply PassState.coversNew_scanLoad (r := (s, changed))
    exact fun htaken => hloads i (.forward htaken)
  | returningCall hf hi => exact hupward (PassState.taintReturningCall_steps hf hi)
  | paramCall hparams hi => exact hupward (PassState.upwardCallSite_steps hparams hi)
  | upwardUser hv hu => exact hupward (PassState.upwardUser_steps hv hu)
  | @upwardLoad old ptrs p i rest changed s _ _ =>
    apply PassState.coversNew_scanLoad (r := (s, changed))
    exact fun htaken => hloads i (.upward htaken)
  | choice _ hbook _ => exact hbook.sameLevels.coversNew

/-- The step that takes a load. -/
theorem step_of_takesLoad (cfg : Config) (addr : Value → Nat) {m : Point} {i : InstId}
    (h : TakesLoad M m i) :
    ∃ m', step M cfg addr m = some m' ∧ .inst i ∈ m'.state.taintedValues ∧
      (.inst i ∈ m'.state.valueLevel ↔ m.state.LevelKnown i) := by
  have hscan {killTracking : Bool} {p : Value} {r : PassState × Bool}
      (htaken : PassState.loadVerdict M killTracking p r.1 i = .tainted) :
      .inst i ∈ (PassState.scanLoad M killTracking p r i).1.taintedValues ∧
        (.inst i ∈ (PassState.scanLoad M killTracking p r i).1.valueLevel ↔ r.1.LevelKnown i) := by
    rw [PassState.scanLoad_eq_loadVerdict, htaken]
    exact ⟨DenseSet.mem_insert.mpr (.inl rfl), (PassState.ensureLevelSet_levels i r.1).2.2⟩
  cases h with
  | @forward ptrs p _ rest changed s htaken => exact ⟨_, rfl, hscan (r := (s, changed)) htaken⟩
  | @upward old ptrs p _ rest changed s htaken => exact ⟨_, rfl, hscan (r := (s, changed)) htaken⟩

end Point

/-- **Levels of tainted values.**  At the end of a run every tainted value has a level exactly when
every load that a scan took had a level already or was in a function that had one. -/
theorem run_covered_iff (M : Module) (cfg : Config) (addr : Value → Nat) (fuel : Nat)
    (t : PassState) (h : run M cfg addr fuel = some t) :
    t.Covered ↔ ∀ m i, Reachable M cfg addr m → TakesLoad M m i → m.state.LevelKnown i := by
  constructor
  · intro hcovered m i hm htakes
    obtain ⟨m', hstep, htainted, hlevel⟩ := Point.step_of_takesLoad cfg addr htakes
    -- after the step the entry of the load is never written again
    have hm' : Reachable M cfg addr m' := hm.trans (.single hstep)
    have hfrozen := (Point.levelsAt_of_reaches (Point.valid_of_reachable hm')
      (Point.levelsAt_of_reachable hm') (Point.reaches_finished hm' h)).2
    have hend := hcovered.insts i (hfrozen.values _ htainted)
    rw [← AList.lookup_isSome, hfrozen.valueLevel _ htainted, AList.lookup_isSome] at hend
    exact hlevel.mp hend
  · intro hloads
    have hstart : (initialPoint M cfg).state.Covered := by
      obtain ⟨targets, hstate⟩ := Point.initialPoint_state M cfg
      rw [hstate]
      exact ⟨fun i hi => absurd hi (DenseSet.not_mem_empty _),
        fun a ha => absurd ha (DenseSet.not_mem_empty _)⟩
    have hinv := (run_reaches h).invariant (I := fun m => Reachable M cfg addr m ∧ m.state.Covered)
      (fun m m' hm hstep => ?_) ⟨.refl _, hstart⟩
    · exact hinv.2
    · have hvisit := Point.step_visit (Point.valid_of_reachable hm.1) hstep
      exact ⟨hm.1.trans (.single hstep),
        hm.2.mono (Point.coversNew_of_visit hvisit fun i => hloads m i hm.1)⟩

/-- A caller writes the returned taint to a global variable that a third function reads. -/
def sharedGlobalModule : Module :=
  .ofFunctions [
    { name := "f".toList
      argIsPointerTy := []
      blocks := [[
        { kind := .other "add".toList [.constantInt 32 5, .constant 0] [] },
        { kind := .ret (some (.inst ⟨0, 0, 0⟩)) }]] },
    { name := "g".toList
      argIsPointerTy := []
      blocks := [[
        { kind := .call (.function 0) true [] [] },
        { kind := .store (.inst ⟨1, 0, 0⟩) (.globalVariable 0) },
        { kind := .ret none }]] },
    { name := "h".toList
      argIsPointerTy := []
      blocks := [[{ kind := .load (.globalVariable 0) }, { kind := .ret none }]] }] id

theorem run_sharedGlobal : ∃ t, run sharedGlobalModule recursiveConfig Value.slot 6 = some t ∧
    .inst ⟨2, 0, 0⟩ ∈ t.taintedValues ∧ .inst ⟨2, 0, 0⟩ ∉ t.valueLevel := by
  have h : (run sharedGlobalModule recursiveConfig Value.slot 6).map (fun t =>
      decide (.inst ⟨2, 0, 0⟩ ∈ t.taintedValues ∧ .inst ⟨2, 0, 0⟩ ∉ t.valueLevel)) = some true := by
    decide
  obtain ⟨t, ht, hval⟩ := Option.map_eq_some_iff.mp h
  exact ⟨t, ht, of_decide_eq_true hval⟩

/-- The reader of the global variable has no level, and its load gets none. -/
theorem run_not_covered : ¬ ∀ (M : Module) (cfg : Config) (addr : Value → Nat) (fuel : Nat)
    (t : PassState), run M cfg addr fuel = some t → t.Covered := by
  intro hall
  obtain ⟨t, ht, htainted, hnone⟩ := run_sharedGlobal
  exact hnone ((hall _ _ _ _ t ht).insts _ htainted)

theorem run_covered_iff_sharedGlobal :
    ∃ m i, Reachable sharedGlobalModule recursiveConfig Value.slot m ∧
      TakesLoad sharedGlobalModule m i ∧ ¬ m.state.LevelKnown i := by
  obtain ⟨t, ht, htainted, hnone⟩ := run_sharedGlobal
  by_contra hno
  refine hnone (((run_covered_iff _ _ _ _ t ht).mpr fun m i hm htakes => ?_).insts _ htainted)
  by_contra hlevel
  exact hno ⟨m, i, hm, htakes, hlevel⟩

end LinuxAnalysis
