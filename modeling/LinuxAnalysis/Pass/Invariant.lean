import LinuxAnalysis.Pass.Primitive

/-!
# Invariants of a run

What is still to be visited at a point of the run is what the loops took from the state, so every
step is a sequence of the updates listed before.  The rule at the end turns one case per update into
a fact about every point of every run; the upward phase may have an invariant of its own.
-/

open LinuxAnalysis.Lib

namespace LinuxAnalysis

namespace PassState

variable {M : Module} {cfg : Config} {addr : Value → Nat}

theorem SeedStep.extends {s t : PassState} (h : SeedStep M cfg s t) : s.Extends t := by
  cases h with
  | source _ _ =>
    exact ((extends_taintValue _ _).trans (extends_setFunctionLevel _ _ _)).trans
      (extends_setValueLevel _ _ _)
  | returned _ _ _ => exact extends_addFunctionReturningTaint _ _
  | parameterStore _ _ _ _ => exact extends_recordParameterStore M _ _ _ _
  | pointer _ _ _ => exact extends_taintPointer _ _ _
  | parameter _ _ _ _ _ _ => exact extends_taintParameter _ _ _

theorem ForwardStep.extends {s t : PassState} (h : ForwardStep M cfg addr s t) : s.Extends t := by
  cases h with
  | callLevel _ _ _ _ => exact extends_setValueLevel _ _ _
  | parameter _ _ _ _ _ _ => exact extends_taintParameter _ _ _
  | returned _ _ _ => exact extends_addFunctionReturningTaint _ _
  | parameterStore _ _ _ _ => exact extends_addTaintingPointerParam _ _ _
  | pointer _ _ _ _ => exact (extends_taintPointer _ _ _).trans (extends_changed _ true)
  | use _ _ _ => exact (extends_setValueLevel _ _ _).trans (extends_taintValue _ _)

theorem ScanStep.extends {s t : PassState} (h : ScanStep M s t) : s.Extends t := by
  cases h with
  | kill _ _ => exact { Extends.refl s with killedStores := DenseSet.subset_insert _ _ }
  | level _ _ _ _ => exact extends_ensureLevelSet _ _
  | load _ _ _ _ => exact (extends_ensureLevelSet _ _).trans (extends_taintValue _ _)

theorem UpwardStep.extends {start s t : PassState} (h : UpwardStep M start s t) : s.Extends t := by
  have hdiscover (f n : Nat) (u : PassState) : u.Extends (u.discoverTaintingPointerParam f n) :=
    (extends_addTaintingPointerParam f n u).trans (extends_discovered _ _)
  cases h with
  | call _ _ _ _ =>
    exact ((extends_setValueLevel _ _ _).trans (extends_initFunctionLevel _ _ _)).trans
      (extends_taintValue _ _)
  | passThrough _ _ _ _ _ => exact (hdiscover _ _ s).trans (extends_initFunctionLevel _ _ _)
  | pointed _ _ _ _ _ =>
    exact (extends_initFunctionLevel _ _ s).trans (extends_taintPointer _ _ _)
  | field _ _ _ _ _ _ _ _ _ _ _ => exact extends_taintPointer _ _ _
  | use _ _ _ => exact (extends_setValueLevel _ _ _).trans (extends_taintValue _ _)
  | store _ _ _ => exact extends_taintPointer _ _ _
  | parameterStore _ _ _ _ => exact hdiscover _ _ s
  | fields => exact extends_recordFieldAccess _ _ _ _
  | returned _ _ _ =>
    exact (extends_addFunctionReturningTaint _ s).trans (extends_discovered _ _)

theorem extends_of_steps {R : PassState → PassState → Prop}
    (hR : ∀ s t, R s t → s.Extends t) {s t : PassState} (h : Relation.ReflTransGen R s t) :
    s.Extends t := by
  induction h with
  | refl => exact .refl s
  | tail _ hstep ih => exact ih.trans (hR _ _ hstep)

/-- What happens to the state in one step of the seeding and the forward phase. -/
def ForwardUpdates (M : Module) (cfg : Config) (addr : Value → Nat) (s t : PassState) : Prop :=
  Relation.ReflTransGen (SeedStep M cfg) s t ∨ Relation.ReflTransGen (ForwardStep M cfg addr) s t ∨
    Relation.ReflTransGen (ScanStep M) s t ∨ s.Bookkeeping t

/-- What happens to the state in one step of the upward phase. -/
def UpwardUpdates (M : Module) (s t : PassState) : Prop :=
  Relation.ReflTransGen (UpwardStep M s) s t ∨ Relation.ReflTransGen (ScanStep M) s t ∨
    s.Bookkeeping t

theorem ForwardUpdates.none {s t : PassState} (h : s.Bookkeeping t) :
    s.ForwardUpdates M cfg addr t := .inr (.inr (.inr h))

theorem UpwardUpdates.none {s t : PassState} (h : s.Bookkeeping t) : s.UpwardUpdates M t :=
  .inr (.inr h)

end PassState

namespace Control

/-- The upward phase, from the test that enters it. -/
def upward : Control → Bool
  | seeding .. | forwardLoop | forwardWorklist | forwardUsers .. | killStores _ | forwardLoads .. =>
    false
  | _ => true

/-- The loops of the upward phase. -/
def inUpwardLoop : Control → Bool
  | .upwardLoop | .returningCalls .. | .paramCalls .. | .upwardWorklist .. | .upwardUsers ..
  | .upwardLoads .. => true
  | _ => false

/-- What the loops have still to visit was taken from the state. -/
def Pending (M : Module) (cfg : Config) (s : PassState) : Control → Prop
  | seeding rest _ _ => ∀ e ∈ rest, e.1 ∈ seedCandidates M cfg ∧ e.2 ∈ M.operands e.1
  | forwardUsers v rest => v ∈ s.taintedValues ∧ ∀ u ∈ rest, u ∈ M.users v
  | killStores rest => ∀ i ∈ rest, i ∈ M.insts
  | forwardLoads _ rest _ => ∀ e ∈ rest, e.1 ∈ s.taintedPointers ∧ e.2 ∈ M.insts
  | returningCalls _ rest => ∀ e ∈ rest, e.1 ∈ s.functionsReturningTaint ∧ e.2 ∈ M.insts
  | paramCalls _ rest => ∀ e ∈ rest, (∀ n ∈ e.1.2, s.TaintsParam e.1.1 n) ∧ e.2 ∈ M.insts
  | upwardUsers _ v rest => v ∈ s.taintedValues ∧ ∀ u ∈ rest, u ∈ M.users v
  | upwardLoads _ _ rest _ => ∀ e ∈ rest, e.1 ∈ s.taintedPointers ∧ e.2 ∈ M.insts
  | _ => True

end Control

namespace Point

/-- What every point of a run satisfies. -/
structure Valid (M : Module) (cfg : Config) (m : Point) : Prop where
  queued : ∀ v ∈ m.state.worklist, v ∈ m.state.taintedValues
  pending : m.control.Pending M cfg m.state

/-- The effect of a step. -/
structure StepSpec (M : Module) (cfg : Config) (addr : Value → Nat) (m m' : Point) : Prop where
  valid : m'.Valid M cfg
  forward : m.control.upward = false → m.state.ForwardUpdates M cfg addr m'.state
  upward : m.control.upward = true → m'.control.upward = true ∧ m.state.UpwardUpdates M m'.state
  entry : m.control.upward = false → m'.control.upward = true → m'.state = m.state

variable {M : Module} {cfg : Config} {addr : Value → Nat}

theorem StepSpec.inForward {m m' : Point} (hphase : m.control.upward = false)
    (hphase' : m'.control.upward = false) (hvalid : m'.Valid M cfg)
    (h : m.state.ForwardUpdates M cfg addr m'.state) : StepSpec M cfg addr m m' where
  valid := hvalid
  forward _ := h
  upward hu := by rw [hphase] at hu; cases hu
  entry _ hu := by rw [hphase'] at hu; cases hu

theorem StepSpec.inUpward {m m' : Point} (hphase : m.control.upward = true)
    (hphase' : m'.control.upward = true) (hvalid : m'.Valid M cfg)
    (h : m.state.UpwardUpdates M m'.state) : StepSpec M cfg addr m m' where
  valid := hvalid
  forward hf := by rw [hphase] at hf; cases hf
  upward _ := ⟨hphase', h⟩
  entry hf := by rw [hphase] at hf; cases hf

theorem Valid.queued_of_extends {m : Point} {t : PassState} (hm : m.Valid M cfg)
    (h : m.state.Extends t) : ∀ v ∈ t.worklist, v ∈ t.taintedValues := by
  intro v hv
  rcases h.pushed v hv with hv | hv
  · exact h.taintedValues v (hm.queued v hv)
  · exact hv

theorem mem_pairs {α β : Type} {xs : List α} {ys : List β} {e : α × β} :
    e ∈ xs.flatMap (fun x => ys.map (Prod.mk x)) ↔ e.1 ∈ xs ∧ e.2 ∈ ys := by
  simp only [List.mem_flatMap, List.mem_map]
  constructor
  · rintro ⟨x, hx, y, hy, rfl⟩
    exact ⟨hx, hy⟩
  · rintro ⟨hx, hy⟩
    exact ⟨e.1, hx, e.2, hy, rfl⟩

theorem step_spec {m m' : Point} (hm : m.Valid M cfg) (h : step M cfg addr m = some m') :
    StepSpec M cfg addr m m' := by
  have hpending := hm.pending
  have hsame : m.state.Bookkeeping m.state := ⟨rfl, rfl, rfl, rfl, rfl, rfl, rfl, rfl, rfl⟩
  have hvalid {c : Control} {t : PassState} (hext : m.state.Extends t) (hp : c.Pending M cfg t) :
      Valid M cfg ⟨c, t⟩ :=
    ⟨hm.queued_of_extends hext, hp⟩
  have hpop {v : Value} {rest : List Value} (hwl : m.state.worklist = v :: rest) :
      v ∈ m.state.taintedValues ∧ ∀ w ∈ rest, w ∈ m.state.taintedValues :=
    ⟨hm.queued v (by rw [hwl]; exact List.mem_cons_self),
      fun w hw => hm.queued w (by rw [hwl]; exact List.mem_cons_of_mem v hw)⟩
  cases transition_of_step h with
  | @seedOperand i op rest n found s =>
    obtain ⟨hi, hop⟩ := hpending _ List.mem_cons_self
    have hsteps := PassState.seedOperand_steps hi hop ⟨s, n, found⟩
    have hext := PassState.extends_of_steps (fun _ _ => PassState.SeedStep.extends) hsteps
    exact .inForward rfl rfl
      (hvalid hext fun e he => hpending e (List.mem_cons_of_mem _ he)) (.inl hsteps)
  | seeded =>
    exact .inForward rfl rfl ⟨hm.queued, trivial⟩
      (.none ⟨rfl, rfl, rfl, rfl, rfl, rfl, rfl, rfl, rfl⟩)
  | forwardTurn =>
    exact .inForward rfl rfl ⟨hm.queued, trivial⟩
      (.none ⟨rfl, rfl, rfl, rfl, rfl, rfl, rfl, rfl, rfl⟩)
  | forwardEnd =>
    exact {
      valid := ⟨hm.queued, trivial⟩
      forward := fun _ => .none hsame
      upward := fun hu => by cases hu
      entry := fun _ _ => rfl }
  | forwardPop hwl =>
    obtain ⟨hv, hrest⟩ := hpop hwl
    exact .inForward rfl rfl ⟨hrest, hv, fun u hu => mem_sortOn.mp hu⟩
      (.none ⟨rfl, rfl, rfl, rfl, rfl, rfl, rfl, rfl, rfl⟩)
  | forwardDrained => exact .inForward rfl rfl ⟨hm.queued, fun i hi => hi⟩ (.none hsame)
  | @forwardUser v u rest s =>
    obtain ⟨hv, hrest⟩ := hpending
    have hsteps : Relation.ReflTransGen (PassState.ForwardStep M cfg addr) s _ :=
      PassState.forwardUser_steps hv (hrest u List.mem_cons_self)
    have hext := PassState.extends_of_steps (fun _ _ => PassState.ForwardStep.extends) hsteps
    exact .inForward rfl rfl (hvalid hext ⟨hext.taintedValues v hv,
      fun w hw => hrest w (List.mem_cons_of_mem u hw)⟩) (.inr (.inl hsteps))
  | forwardUsersEnd => exact .inForward rfl rfl ⟨hm.queued, trivial⟩ (.none hsame)
  | @killStore i rest s =>
    have hsteps := PassState.identifyKillStore_steps (hpending i List.mem_cons_self) s
    have hext := PassState.extends_of_steps (fun _ _ => PassState.ScanStep.extends) hsteps
    exact .inForward rfl rfl
      (hvalid hext fun j hj => hpending j (List.mem_cons_of_mem i hj)) (.inr (.inr (.inl hsteps)))
  | killStoresEnd =>
    -- what is scanned is tainted, and the scan goes over the whole module
    refine .inForward rfl rfl ⟨hm.queued, fun e he => ?_⟩ (.none hsame)
    obtain ⟨hp, hi⟩ := mem_pairs.mp he
    exact ⟨(PassState.mem_pointersToScan.mp hp).1, hi⟩
  | @forwardLoad ptrs p i rest changed s =>
    obtain ⟨hp, hi⟩ := hpending _ List.mem_cons_self
    have hsteps := PassState.scanLoad_steps true (r := (s, changed)) hi hp
    have hext := PassState.extends_of_steps (fun _ _ => PassState.ScanStep.extends) hsteps
    refine .inForward rfl rfl (hvalid hext fun e he => ?_) (.inr (.inr (.inl hsteps)))
    exact (hpending e (List.mem_cons_of_mem _ he)).imp_left (hext.taintedPointers _)
  | forwardLoadsEnd =>
    exact .inForward rfl rfl ⟨hm.queued, trivial⟩
      (.none ⟨rfl, rfl, rfl, rfl, rfl, rfl, rfl, rfl, rfl⟩)
  | upwardStart =>
    exact .inUpward rfl rfl ⟨hm.queued, trivial⟩
      (.none ⟨rfl, rfl, rfl, rfl, rfl, rfl, rfl, rfl, rfl⟩)
  | upwardSkip => exact .inUpward rfl rfl ⟨hm.queued, trivial⟩ (.none hsame)
  | upwardTurn =>
    refine .inUpward rfl rfl ⟨hm.queued, fun e he => ?_⟩
      (.none ⟨rfl, rfl, rfl, rfl, rfl, rfl, rfl, rfl, rfl⟩)
    obtain ⟨hf, hi⟩ := mem_pairs.mp he
    exact ⟨mem_sortOn.mp hf, hi⟩
  | upwardEnd => exact .inUpward rfl rfl ⟨hm.queued, trivial⟩ (.none hsame)
  | @returningCall old f i rest s =>
    obtain ⟨hf, hi⟩ := hpending _ List.mem_cons_self
    have hsteps : Relation.ReflTransGen (PassState.UpwardStep M s) s _ :=
      PassState.taintReturningCall_steps hf hi
    have hext := PassState.extends_of_steps (fun _ _ => PassState.UpwardStep.extends) hsteps
    refine .inUpward rfl rfl (hvalid hext fun e he => ?_) (.inl hsteps)
    exact (hpending e (List.mem_cons_of_mem _ he)).imp_left (hext.functionsReturningTaint _)
  | returningCallsEnd =>
    -- the entries that 5b is about to visit are copied from the map
    refine .inUpward rfl rfl ⟨hm.queued, fun e he => ?_⟩ (.none hsame)
    obtain ⟨hentry, hi⟩ := mem_pairs.mp he
    refine ⟨fun n hn => ?_, hi⟩
    have hlookup := DenseMap.mem_entries_iff.mp (mem_sortOn.mp hentry)
    rwa [PassState.TaintsParam, DenseMap.getD, hlookup]
  | paramCall =>
    obtain ⟨hparams, hi⟩ := hpending _ List.mem_cons_self
    have hsteps := PassState.upwardCallSite_steps hparams hi
    have hext := PassState.extends_of_steps (fun _ _ => PassState.UpwardStep.extends) hsteps
    refine .inUpward rfl rfl (hvalid hext fun e he => ?_) (.inl hsteps)
    exact (hpending e (List.mem_cons_of_mem _ he)).imp_left
      fun h n hn => hext.taintsParam _ _ (h n hn)
  | paramCallsEnd => exact .inUpward rfl rfl ⟨hm.queued, trivial⟩ (.none hsame)
  | upwardPop hwl =>
    obtain ⟨hv, hrest⟩ := hpop hwl
    exact .inUpward rfl rfl ⟨hrest, hv, fun u hu => mem_sortOn.mp hu⟩
      (.none ⟨rfl, rfl, rfl, rfl, rfl, rfl, rfl, rfl, rfl⟩)
  | upwardScan =>
    refine .inUpward rfl rfl ⟨hm.queued, fun e he => ?_⟩ (.none hsame)
    obtain ⟨hp, hi⟩ := mem_pairs.mp he
    exact ⟨(PassState.mem_pointersToScan.mp hp).1, hi⟩
  | @upwardTurnEnd old s hempty =>
    -- the comparison of the counts sets a flag at most
    have hcompare : s.Bookkeeping (s.compareSizes old) ∧
        (s.compareSizes old).worklist = s.worklist := by
      unfold PassState.compareSizes
      split
      · exact ⟨⟨rfl, rfl, rfl, rfl, rfl, rfl, rfl, rfl, rfl⟩, rfl⟩
      · exact ⟨hsame, rfl⟩
    refine .inUpward rfl rfl ⟨fun v hv => ?_, trivial⟩ (.none hcompare.1)
    rw [show (⟨.upwardLoop, s.compareSizes old⟩ : Point).state.worklist = [] from
      hcompare.2.trans hempty] at hv
    exact absurd hv List.not_mem_nil
  | @upwardUser old v u rest s =>
    obtain ⟨hv, hrest⟩ := hpending
    have hsteps : Relation.ReflTransGen (PassState.UpwardStep M s) s _ :=
      PassState.upwardUser_steps hv (hrest u List.mem_cons_self)
    have hext := PassState.extends_of_steps (fun _ _ => PassState.UpwardStep.extends) hsteps
    exact .inUpward rfl rfl (hvalid hext ⟨hext.taintedValues v hv,
      fun w hw => hrest w (List.mem_cons_of_mem u hw)⟩) (.inl hsteps)
  | upwardUsersEnd => exact .inUpward rfl rfl ⟨hm.queued, trivial⟩ (.none hsame)
  | @upwardLoad old ptrs p i rest changed s =>
    obtain ⟨hp, hi⟩ := hpending _ List.mem_cons_self
    have hsteps := PassState.scanLoad_steps false (r := (s, changed)) hi hp
    have hext := PassState.extends_of_steps (fun _ _ => PassState.ScanStep.extends) hsteps
    refine .inUpward rfl rfl (hvalid hext fun e he => ?_) (.inr (.inl hsteps))
    exact (hpending e (List.mem_cons_of_mem _ he)).imp_left (hext.taintedPointers _)
  | upwardLoadsEnd =>
    exact .inUpward rfl rfl ⟨hm.queued, trivial⟩
      (.none ⟨rfl, rfl, rfl, rfl, rfl, rfl, rfl, rfl, rfl⟩)

/-- Nothing is tainted or recorded before the seeding loops. -/
theorem initialPoint_state (M : Module) (cfg : Config) : ∃ targets, (initialPoint M cfg).state =
    { ({} : PassState) with functionPointerTargets := targets } := by
  show ∃ targets, PassState.buildFunctionPointerTargets M cfg {} = _
  unfold PassState.buildFunctionPointerTargets
  split
  · refine foldl_invariant (I := fun t : PassState =>
      ∃ targets, t = { ({} : PassState) with functionPointerTargets := targets })
      (fun t i _ ht => ?_) ⟨∅, rfl⟩
    obtain ⟨targets, rfl⟩ := ht
    unfold PassState.functionPointerStore
    split
    · dsimp only
      split <;> exact ⟨_, rfl⟩
    · exact ⟨targets, rfl⟩
  · exact ⟨∅, rfl⟩

theorem valid_initialPoint : (initialPoint M cfg).Valid M cfg := by
  refine ⟨fun v hv => ?_, fun e he => ?_⟩
  · exact ((PassState.extends_buildFunctionPointerTargets M cfg {}).pushed v hv).resolve_left
      List.not_mem_nil
  · obtain ⟨i, hi, hmem⟩ := List.mem_flatMap.mp he
    obtain ⟨op, hop, rfl⟩ := List.mem_map.mp hmem
    exact ⟨hi, hop⟩

theorem valid_of_reaches {m m' : Point} (hm : m.Valid M cfg)
    (h : Reaches (step M cfg addr) m m') : m'.Valid M cfg :=
  h.invariant (fun _ _ hs hst => (step_spec hs hst).valid) hm

theorem valid_of_reachable {m : Point} (h : Reachable M cfg addr m) : m.Valid M cfg :=
  valid_of_reaches valid_initialPoint h

/-- **Invariant rule.**  `F` is kept by the updates of the seeding and the forward phase, gives `U`
where the upward phase begins, and `U` is kept by the updates of that phase. -/
theorem invariant {F U : PassState → Prop} {m m' : Point}
    (hseed : ∀ s t, F s → PassState.SeedStep M cfg s t → F t)
    (hforward : ∀ s t, F s → PassState.ForwardStep M cfg addr s t → F t)
    (hscan : ∀ s t, F s → PassState.ScanStep M s t → F t)
    (hbook : ∀ s t, F s → s.Bookkeeping t → F t)
    (hentry : ∀ s, F s → U s)
    (hupward : ∀ n s t, Reaches (step M cfg addr) m n → U s →
      PassState.UpwardStep M n.state s t → U t)
    (hscan' : ∀ s t, U s → PassState.ScanStep M s t → U t)
    (hbook' : ∀ s t, U s → s.Bookkeeping t → U t)
    (hm : m.Valid M cfg) (hF : m.control.upward = false → F m.state)
    (hU : m.control.upward = true → U m.state) (h : Reaches (step M cfg addr) m m') :
    (m'.control.upward = false → F m'.state) ∧ (m'.control.upward = true → U m'.state) := by
  refine (h.invariant (I := fun n => (Reaches (step M cfg addr) m n ∧ n.Valid M cfg) ∧
    (n.control.upward = false → F n.state) ∧ (n.control.upward = true → U n.state))
    (fun a b ⟨⟨hreach, hv⟩, hF, hU⟩ hab => ?_) ⟨⟨.refl _, hm⟩, hF, hU⟩).2
  -- one step, by the phase it is taken in
  have hspec := step_spec hv hab
  cases hphase : a.control.upward with
  | false =>
    have hb : F b.state := by
      rcases hspec.forward hphase with hs | hs | hs | hs
      · exact steps_invariant hseed (hF hphase) hs
      · exact steps_invariant hforward (hF hphase) hs
      · exact steps_invariant hscan (hF hphase) hs
      · exact hbook _ _ (hF hphase) hs
    exact ⟨⟨hreach.trans (.single hab), hspec.valid⟩, fun _ => hb, fun _ => hentry _ hb⟩
  | true =>
    obtain ⟨hphase', hups⟩ := hspec.upward hphase
    have hb : U b.state := by
      rcases hups with hs | hs | hs
      · exact steps_invariant (fun s t => hupward a s t hreach) (hU hphase) hs
      · exact steps_invariant hscan' (hU hphase) hs
      · exact hbook' _ _ (hU hphase) hs
    -- the upward phase is never left
    refine ⟨⟨hreach.trans (.single hab), hspec.valid⟩, fun hfalse => ?_, fun _ => hb⟩
    rw [hphase'] at hfalse
    cases hfalse

/-- **Growth rule.**  What growth and bookkeeping keep is kept by a run. -/
theorem growth_invariant {I : PassState → Prop} (hext : ∀ s t, I s → s.Extends t → I t)
    (hbook : ∀ s t, I s → s.Bookkeeping t → I t) {m m' : Point} (hm : m.Valid M cfg)
    (hstart : I m.state) (h : Reaches (step M cfg addr) m m') : I m'.state := by
  have hinv := Point.invariant (F := I) (U := I) (fun _ _ hs hst => hext _ _ hs hst.extends)
    (fun _ _ hs hst => hext _ _ hs hst.extends) (fun _ _ hs hst => hext _ _ hs hst.extends) hbook
    (fun _ hs => hs) (fun _ _ _ _ hs hst => hext _ _ hs hst.extends)
    (fun _ _ hs hst => hext _ _ hs hst.extends) hbook hm (fun _ => hstart) (fun _ => hstart) h
  cases hphase : m'.control.upward with
  | false => exact hinv.1 hphase
  | true => exact hinv.2 hphase

/-- Tainted values and killed stores stay. -/
theorem grows_of_reaches {m m' : Point} (hm : m.Valid M cfg)
    (h : Reaches (step M cfg addr) m m') :
    m.state.taintedValues ⊆ m'.state.taintedValues ∧
      m.state.killedStores ⊆ m'.state.killedStores := by
  refine growth_invariant (I := fun s => m.state.taintedValues ⊆ s.taintedValues ∧
    m.state.killedStores ⊆ s.killedStores) (fun s t hs hst => ?_) (fun s t hs hst => ?_) hm
    ⟨DenseSet.Subset.refl _, DenseSet.Subset.refl _⟩ h
  · exact ⟨DenseSet.Subset.trans hs.1 hst.taintedValues, DenseSet.Subset.trans hs.2 hst.killedStores⟩
  · rw [hst.taintedValues, hst.killedStores]
    exact hs

/-- Functions that return taint stay on record. -/
theorem returning_of_reaches {m m' : Point} (hm : m.Valid M cfg)
    (h : Reaches (step M cfg addr) m m') :
    m.state.functionsReturningTaint ⊆ m'.state.functionsReturningTaint := by
  refine growth_invariant (I := fun s => m.state.functionsReturningTaint ⊆ s.functionsReturningTaint)
    (fun s t hs hst => DenseSet.Subset.trans hs hst.functionsReturningTaint) (fun s t hs hst => ?_) hm
    (DenseSet.Subset.refl _) h
  rw [hst.functionsReturningTaint]
  exact hs

theorem upward_of_reaches {m m' : Point} (hm : m.Valid M cfg) (hphase : m.control.upward = true)
    (h : Reaches (step M cfg addr) m m') : m'.control.upward = true :=
  (h.invariant (I := fun m => m.Valid M cfg ∧ m.control.upward = true)
    (fun _ _ ha hab => ⟨(step_spec ha.1 hab).valid, ((step_spec ha.1 hab).upward ha.2).1⟩)
    ⟨hm, hphase⟩).2

/-- A point of the forward phase comes before its end. -/
theorem reaches_end {m : Point} {fuel : Nat} {t : PassState} (hm : Reachable M cfg addr m)
    (hphase : m.control.upward = false) (h : forwardPhase M cfg addr fuel = some t) :
    Reaches (step M cfg addr) m ⟨.upwardEntry, t⟩ := by
  have hend := forwardPhase_reaches h
  rcases Reaches.linear hm hend with hreach | hreach
  · exact hreach
  · have hupward := upward_of_reaches (valid_of_reachable hend) rfl hreach
    rw [hphase] at hupward
    cases hupward

/-- Only the upward mode leads into the upward loops. -/
theorem upwardMode_of_reachable {m : Point} (h : Reachable M cfg addr m)
    (hloop : m.control.inUpwardLoop = true) : cfg.upwardInterprocMode = true := by
  refine Reaches.invariant (I := fun m => m.control.inUpwardLoop = true →
    cfg.upwardInterprocMode = true) (fun a b ha hab hb => ?_) h (fun hfalse => by cases hfalse) hloop
  cases transition_of_step hab with
  | upwardStart hguard => exact (Bool.and_eq_true_iff.mp hguard).1
  | upwardTurn | returningCall | returningCallsEnd | paramCall | paramCallsEnd | upwardPop
  | upwardScan | upwardTurnEnd | upwardUser | upwardUsersEnd | upwardLoad | upwardLoadsEnd =>
    exact ha rfl
  | _ => cases hb

end Point

end LinuxAnalysis
