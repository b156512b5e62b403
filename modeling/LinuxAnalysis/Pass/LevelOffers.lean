import LinuxAnalysis.Pass.CallClosure
import LinuxAnalysis.Pass.DownwardLevels
import LinuxAnalysis.Pass.Visit

/-!
# The level a visit offers

A value is tainted by one visit, which gives it a level for good: that of the value visited, one less
for a parameter, or one read off a function.  Another visit of the same value may offer it another
level, and which of them comes first is up to the addresses.
-/

open LinuxAnalysis.Lib

namespace LinuxAnalysis

/-- The elements of the innermost loops whose visits taint values. -/
inductive TaintVisit where
  | forwardUser (v : Value) (u : InstId)
  | forwardLoad (p : Value) (i : InstId)
  | returningCall (f : Nat) (i : InstId)
  | upwardUser (v : Value) (u : InstId)
  | upwardLoad (p : Value) (i : InstId)

/-- The visit that the next step makes. -/
def Control.taintVisit : Control → Option TaintVisit
  | .forwardUsers v (u :: _) => some (.forwardUser v u)
  | .forwardLoads _ ((p, i) :: _) _ => some (.forwardLoad p i)
  | .returningCalls _ ((f, i) :: _) => some (.returningCall f i)
  | .upwardUsers _ v (u :: _) => some (.upwardUser v u)
  | .upwardLoads _ _ ((p, i) :: _) _ => some (.upwardLoad p i)
  | _ => none

/-- The value whose users are visited. -/
def TaintVisit.source : TaintVisit → Option Value
  | .forwardUser v _ | .upwardUser v _ => some v
  | _ => none

namespace PassState

/-- The level that a visit gives to `w` when it finds it untainted. -/
def offeredLevel (s : PassState) : TaintVisit → Value → Option Int
  | .forwardUser v _, .arg _ => some (s.getLevel v - 1)
  | .forwardUser v _, _ | .upwardUser v _, _ => some (s.getLevel v)
  | .returningCall f _, _ => some (s.calleeLevel f + 1)
  | .forwardLoad _ i, _ | .upwardLoad _ i, _ => (s.ensureLevelSet i).valueLevel.lookup (.inst i)

end PassState

section Relation

variable (M : Module) (cfg : Config) (addr : Value → Nat)

/-- The run makes visit `k` in state `s`, which leaves state `t`. -/
def Makes (k : TaintVisit) (s t : PassState) : Prop :=
  ∃ c c', c.taintVisit = some k ∧ Reachable M cfg addr ⟨c, s⟩ ∧
    step M cfg addr ⟨c, s⟩ = some ⟨c', t⟩

/-- Visit `k`, made in state `s`, taints `w`. -/
def Taints (k : TaintVisit) (w : Value) (s : PassState) : Prop :=
  w ∉ s.taintedValues ∧ ∃ t, Makes M cfg addr k s t ∧ w ∈ t.taintedValues

/-- Visit `k`, made in state `s`, taints `w` or finds it tainted. -/
def LeavesTainted (k : TaintVisit) (w : Value) (s : PassState) : Prop :=
  ∃ t, Makes M cfg addr k s t ∧ w ∈ t.taintedValues

end Relation

/-- Each visit by which the one run taints a value is made by the other run as well, which has the
value tainted after it; values whose users are visited have levels. -/
structure VisitsShared (M : Module) (cfg : Config) (addr addr' : Value → Nat) : Prop where
  made : ∀ k w s, Taints M cfg addr k w s → ∃ s', LeavesTainted M cfg addr' k w s'
  leveled : ∀ k w s v, Taints M cfg addr k w s → k.source = some v → v ∈ s.valueLevel

/-- Two runs end with the same values at the same levels. -/
structure LevelsAgree (t t' : PassState) : Prop where
  values : ∀ v, v ∈ t.taintedValues ↔ v ∈ t'.taintedValues
  levels : ∀ v ∈ t.taintedValues, t.valueLevel.lookup v = t'.valueLevel.lookup v

variable {M : Module} {cfg : Config} {addr addr' : Value → Nat}

namespace PassState

/-! ## The level given -/

theorem level_forwardUser {v : Value} {u : InstId} {s : PassState} {level : Int}
    (hv : v ∈ s.taintedValues) (hlevel : s.valueLevel.lookup v = some level)
    (hleveled : .inst u ∈ s.taintedValues → .inst u ∈ s.valueLevel ∨ ∃ ptr, M.kind u = .load ptr)
    (htargets : s.InitialTargets M cfg)
    {w : Value} (hnew : w ∉ s.taintedValues)
    (hw : w ∈ (s.forwardUser M cfg addr v u).taintedValues) :
    (s.forwardUser M cfg addr v u).valueLevel.lookup w = s.offeredLevel (.forwardUser v u) w := by
  have hdescends : Descends (fun w l => s.offeredLevel (.forwardUser v u) w = some l) s
      (s.forwardUser M cfg addr v u) :=
    descends_forwardUser hv hlevel hleveled htargets
      (fun _ _ => by rw [offeredLevel, getLevel_of_lookup hlevel]; exact fun a h => by cases h)
      (fun a _ _ => by rw [offeredLevel, getLevel_of_lookup hlevel])
  obtain ⟨l, hoffered, hl⟩ := hdescends.taken w hw hnew
  rw [hl, hoffered]

theorem level_taintReturningCall {f : Nat} {i : InstId} {s : PassState} {w : Value}
    (hnew : w ∉ s.taintedValues) (hw : w ∈ (s.taintReturningCall M f i).taintedValues) :
    w = .inst i ∧ M.calledFunction i = some f ∧
      (s.taintReturningCall M f i).valueLevel.lookup w = s.offeredLevel (.returningCall f i) w := by
  unfold taintReturningCall at hw ⊢
  split at hw
  next hcall =>
    split at hw
    next => exact absurd hw hnew
    next hfresh =>
      obtain ⟨hvalues, hlevels⟩ := initFunctionLevel_levels i.func (s.calleeLevel f + 1)
        (s.setValueLevel (.inst i) (s.calleeLevel f + 1))
      have hw' : w ∈ (((s.setValueLevel (.inst i) (s.calleeLevel f + 1)).initFunctionLevel i.func
          (s.calleeLevel f + 1)).taintedValues).insert (.inst i) := hw
      rw [hvalues, DenseSet.mem_insert] at hw'
      obtain rfl := hw'.resolve_right hnew
      refine ⟨rfl, hcall, ?_⟩
      rw [if_pos hcall, if_neg hfresh]
      show ((s.setValueLevel (.inst i) (s.calleeLevel f + 1)).initFunctionLevel i.func
        (s.calleeLevel f + 1)).valueLevel.lookup (.inst i) = some (s.calleeLevel f + 1)
      rw [hlevels]
      exact AList.lookup_insert _
  next => exact absurd hw hnew

/-- The bookkeeping of a store or a return leaves the values and their levels. -/
theorem upwardUser_levels {v : Value} {u : InstId} {s : PassState} (hnew : .inst u ∉ s.taintedValues) :
    (s.upwardUser M v u).taintedValues = s.taintedValues.insert (.inst u) ∧
      (s.upwardUser M v u).valueLevel = s.valueLevel.insert (.inst u) (s.getLevel v) := by
  have hstore (t : PassState) : t.SameLevels (t.processStoreForTaint M u v) := by
    unfold processStoreForTaint
    split
    next value ptr hkind =>
      split
      next => exact ⟨rfl, rfl, rfl⟩
      next =>
        have hptr := sameLevels_taintPointer (M.stripPointerCasts ptr) u t
        dsimp only
        split
        next a _ =>
          have hrecord := sameLevels_recordFieldAccess u.func a.no (M.extractStructFieldIndices ptr)
            ((t.taintPointer (M.stripPointerCasts ptr) u).discoverTaintingPointerParam u.func a.no)
          exact ⟨hrecord.values.trans hptr.values, hrecord.valueLevel.trans hptr.valueLevel,
            hrecord.functionLevel.trans hptr.functionLevel⟩
        next => exact hptr
    next => exact ⟨rfl, rfl, rfl⟩
  have hreturn (t : PassState) : t.SameLevels (t.upwardReturn M v u) := by
    unfold upwardReturn
    split
    · split <;> exact ⟨rfl, rfl, rfl⟩
    · exact ⟨rfl, rfl, rfl⟩
  have hstored := hstore ((s.setValueLevel (.inst u) (s.getLevel v)).taintValue (.inst u))
  have hreturned := hreturn
    (((s.setValueLevel (.inst u) (s.getLevel v)).taintValue (.inst u)).processStoreForTaint M u v)
  unfold upwardUser
  rw [if_neg hnew]
  exact ⟨hreturned.values.trans hstored.values, hreturned.valueLevel.trans hstored.valueLevel⟩

theorem level_upwardUser {v : Value} {u : InstId} {s : PassState} {w : Value}
    (hnew : w ∉ s.taintedValues) (hw : w ∈ (s.upwardUser M v u).taintedValues) :
    w = .inst u ∧
      (s.upwardUser M v u).valueLevel.lookup w = s.offeredLevel (.upwardUser v u) w := by
  by_cases hu : .inst u ∈ s.taintedValues
  · rw [upwardUser, if_pos hu] at hw
    exact absurd hw hnew
  · obtain ⟨hvalues, hlevels⟩ := upwardUser_levels (M := M) (v := v) hu
    rw [hvalues, DenseSet.mem_insert] at hw
    obtain rfl := hw.resolve_right hnew
    rw [hlevels]
    exact ⟨rfl, AList.lookup_insert _⟩

theorem level_scanLoad {killTracking : Bool} {p : Value} {i : InstId} {r : PassState × Bool}
    {w : Value} (hnew : w ∉ r.1.taintedValues)
    (hw : w ∈ (scanLoad M killTracking p r i).1.taintedValues) :
    w = .inst i ∧ (scanLoad M killTracking p r i).1.valueLevel.lookup w =
      (r.1.ensureLevelSet i).valueLevel.lookup (.inst i) := by
  have hensure : (r.1.ensureLevelSet i).taintedValues = r.1.taintedValues := by
    unfold ensureLevelSet
    split
    · rfl
    · split <;> rfl
  unfold scanLoad at hw ⊢
  split at hw
  next => exact absurd hw hnew
  next hmatch =>
    split at hw
    next => exact absurd hw hnew
    next hfresh =>
      split at hw
      next => exact absurd (hensure ▸ hw) hnew
      next hkill =>
        split at hw
        next => exact absurd (hensure ▸ hw) hnew
        next hbefore =>
          rw [if_neg hmatch, if_neg hfresh, if_neg hkill, if_neg hbefore]
          rcases DenseSet.mem_insert.mp hw with rfl | hw
          · exact ⟨rfl, rfl⟩
          · exact absurd (hensure ▸ hw) hnew

/-! ## Visits that taint no value -/

/-- A fold whose turns leave the tainted values alone. -/
theorem taintedValues_foldl {α : Type} {f : PassState → α → PassState} {xs : List α}
    (hstep : ∀ s x, (f s x).taintedValues = s.taintedValues) (s : PassState) :
    (xs.foldl f s).taintedValues = s.taintedValues :=
  foldl_invariant (I := fun t => t.taintedValues = s.taintedValues)
    (fun t x _ ht => (hstep t x).trans ht) rfl

theorem taintedValues_taintPointedVar (call : InstId) (f n : Nat) (var : Value) (s : PassState) :
    (s.taintPointedVar M call f n var).taintedValues = s.taintedValues := by
  have htargets (gep : InstId) (t : PassState) :
      (t.taintFieldTargets M call gep).taintedValues = t.taintedValues := by
    unfold taintFieldTargets
    refine taintedValues_foldl (fun u i => ?_) t
    split
    · dsimp only
      split
      · exact taintedValues_taintPointer _ _ u
      · rfl
    · rfl
  have hstruct (t : PassState) :
      (t.taintStructFields M call f n var).taintedValues = t.taintedValues := by
    unfold taintStructFields
    dsimp only
    refine taintedValues_foldl (fun u i => ?_) t
    split
    · split
      · exact htargets _ u
      · rfl
    · rfl
  unfold taintPointedVar
  split
  · rfl
  · have hvar := (taintedValues_taintPointer var call
      (s.initFunctionLevel call.func (s.calleeLevel f + 1))).trans
      (taintedValues_initFunctionLevel call.func (s.calleeLevel f + 1) s)
    dsimp only
    split
    · exact (hstruct _).trans hvar
    · exact hvar

theorem taintedValues_upwardCallSite (f : Nat) (params : DenseSet Nat) (s : PassState) (i : InstId) :
    (s.upwardCallSite M f params i).taintedValues = s.taintedValues := by
  unfold upwardCallSite
  split
  · split
    · refine taintedValues_foldl (fun t n => ?_) s
      unfold upwardArgument
      split
      · rfl
      · split
        · unfold passThroughParam
          split
          · rfl
          · exact taintedValues_initFunctionLevel _ _ _
        · split
          · exact taintedValues_taintPointedVar _ _ _ _ t
          · rfl
    · rfl
  · rfl

theorem taintedValues_identifyKillStore (s : PassState) (i : InstId) :
    (s.identifyKillStore M i).taintedValues = s.taintedValues := by
  unfold identifyKillStore
  split
  · dsimp only
    split <;> rfl
  · rfl

end PassState

/-! ## Along the run -/

/-- What a step after seeding taints is tainted by one of the visits. -/
theorem taintVisit_of_step {m m' : Point} (hm : Reachable M cfg addr m)
    (hstep : step M cfg addr m = some m')
    (hseeded : ∀ rest n found, m.control ≠ .seeding rest n found) {w : Value}
    (hnew : w ∉ m.state.taintedValues) (hw : w ∈ m'.state.taintedValues) :
    ∃ k, m.control.taintVisit = some k := by
  have hkept {t : PassState} (h : t.taintedValues = m.state.taintedValues) : ¬ w ∈ t.taintedValues := by
    rw [h]
    exact hnew
  have hvisit := Point.step_visit (Point.valid_of_reachable hm) hstep
  generalize m'.state = t at hvisit hw
  cases hvisit with
  | seed _ _ => exact absurd rfl (hseeded _ _ _)
  | forwardUser _ _ | forwardLoad _ _ | returningCall _ _ | upwardUser _ _ | upwardLoad _ _ =>
    exact ⟨_, rfl⟩
  | kill _ => exact absurd hw (hkept (PassState.taintedValues_identifyKillStore _ _))
  | paramCall _ _ => exact absurd hw (hkept (PassState.taintedValues_upwardCallSite _ _ _ _))
  | choice _ hbook _ => exact absurd hw (hkept hbook.taintedValues)

/-- A visit from a value with a level gives what it taints the level it offers. -/
theorem Makes.level {k : TaintVisit} {s t : PassState} (h : Makes M cfg addr k s t)
    (hleveled : ∀ v, k.source = some v → v ∈ s.valueLevel) {w : Value} (hnew : w ∉ s.taintedValues)
    (hw : w ∈ t.taintedValues) : t.valueLevel.lookup w = s.offeredLevel k w := by
  obtain ⟨c, c', hc, hreach, hstep⟩ := h
  have hpending := (Point.valid_of_reachable hreach).pending
  cases transition_of_step hstep with
  | @forwardUser v u rest =>
    cases hc
    obtain ⟨level, hlevel⟩ :=
      Option.isSome_iff_exists.mp (AList.lookup_isSome.mpr (hleveled v rfl))
    have hlevels := ((Point.levelsAt_of_reachable hreach).forward rfl).1
    exact PassState.level_forwardUser hpending.1 hlevel (hlevels.insts u)
      (Point.initialTargets_of_reachable hreach rfl) hnew hw
  | @forwardLoad ptrs p i rest changed =>
    cases hc
    exact (PassState.level_scanLoad (r := (s, changed)) hnew hw).2
  | @returningCall old f i rest =>
    cases hc
    exact (PassState.level_taintReturningCall hnew hw).2.2
  | @upwardUser old v u rest =>
    cases hc
    exact (PassState.level_upwardUser hnew hw).2
  | @upwardLoad old ptrs p i rest changed =>
    cases hc
    exact (PassState.level_scanLoad (r := (s, changed)) hnew hw).2
  | _ => cases hc

/-- From the visit on the levels of what is tainted stay. -/
theorem Makes.frozen {k : TaintVisit} {s t : PassState} (h : Makes M cfg addr k s t) {fuel : Nat}
    {u : PassState} (hrun : run M cfg addr fuel = some u) : s.Frozen u ∧ t.Frozen u := by
  obtain ⟨c, c', _, hreach, hstep⟩ := h
  have hafter := hreach.trans (.single hstep)
  have hfrozen {m : Point} (hm : Reachable M cfg addr m) : m.state.Frozen u :=
    (Point.levelsAt_of_reaches (Point.valid_of_reachable hm) (Point.levelsAt_of_reachable hm)
      (Point.reaches_finished hm hrun)).2
  exact ⟨hfrozen hreach, hfrozen hafter⟩

/-- What seeding taints is tainted at the end, at its level. -/
theorem frozen_seedWorklist {fuel : Nat} {t : PassState} (h : run M cfg addr fuel = some t) :
    (seedWorklist M cfg).Frozen t := by
  have hseeded : Reachable M cfg addr ⟨.forwardLoop, { seedWorklist M cfg with changed := true }⟩ :=
    seedWorklist_reaches
  have hfrozen := (Point.levelsAt_of_reaches (Point.valid_of_reachable hseeded)
    (Point.levelsAt_of_reachable hseeded) (Point.reaches_finished hseeded h)).2
  exact ⟨hfrozen.values, hfrozen.valueLevel, hfrozen.functions⟩

/-- **Taint rule.**  What holds of the seeds, and of each value that a visit taints if it holds of all
values tainted before, holds of all values tainted at the end. -/
theorem run_tainted_rule {P : Value → Prop} (hseed : ∀ w ∈ (seedWorklist M cfg).taintedValues, P w)
    (hvisit : ∀ k w s, Taints M cfg addr k w s → (∀ v ∈ s.taintedValues, P v) → P w) {fuel : Nat}
    {t : PassState} (h : run M cfg addr fuel = some t) : ∀ w ∈ t.taintedValues, P w := by
  have hseeded : Reachable M cfg addr ⟨.forwardLoop, { seedWorklist M cfg with changed := true }⟩ :=
    seedWorklist_reaches
  have hinv := (Point.reaches_finished hseeded h).invariant
    (I := fun m => Reachable M cfg addr m ∧ (∀ rest n found, m.control ≠ .seeding rest n found) ∧
      ∀ w ∈ m.state.taintedValues, P w)
    (fun m m' hm hstep => ?_) ⟨hseeded, fun rest n found hc => Control.noConfusion hc, hseed⟩
  · exact hinv.2.2
  · obtain ⟨hreach, hphase, hall⟩ := hm
    refine ⟨hreach.trans (.single hstep), fun rest n found hc => ?_, fun w hw => ?_⟩
    · obtain ⟨c, s⟩ := m'
      cases hc
      obtain ⟨_, _, _, _, _, hm, _⟩ := Point.step_to_seeding hstep
      exact hphase _ _ _ (by rw [hm])
    · by_cases hold : w ∈ m.state.taintedValues
      · exact hall w hold
      · obtain ⟨k, hk⟩ := taintVisit_of_step hreach hstep hphase hold hw
        exact hvisit k w m.state ⟨hold, m'.state, ⟨m.control, m'.control, hk, hreach, hstep⟩, hw⟩ hall

/-! ## Two runs -/

section TwoRuns

variable {fuel fuel' : Nat} {t t' : PassState}

theorem VisitsShared.subset (hshared : VisitsShared M cfg addr addr')
    (h : run M cfg addr fuel = some t) (h' : run M cfg addr' fuel' = some t') :
    t.taintedValues ⊆ t'.taintedValues := by
  refine run_tainted_rule (frozen_seedWorklist h').values (fun k w s htaints _ => ?_) h
  obtain ⟨s', u, hmakes, hw⟩ := hshared.made k w s htaints
  exact (hmakes.frozen h').2.values w hw

end TwoRuns

end LinuxAnalysis
