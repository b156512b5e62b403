import LinuxAnalysis.Pass.Flow
import LinuxAnalysis.Pass.MemoryTaint

/-!
# Kill stores and later taint

A store is put into `KilledStores` while the value it stores is untainted, and stays there.  The
worklist has been drained by then, so only the loads taken by the scans to come bring new taint, and
the value of a killed store is tainted in the end exactly when it is reached from one of them.
-/

open LinuxAnalysis.Lib

namespace LinuxAnalysis

section Condition

variable (M : Module) (cfg : Config) (addr : Value → Nat)

/-- Taint of `v` is passed on to `w` in any number of visits. -/
def Flows : Value → Value → Prop := Relation.ReflTransGen (FlowsTo M cfg addr)

/-- No load taken in a scan flows to the value of a store killed before that scan. -/
def ScansSpareKills : Prop :=
  ∀ ptrs s, Reachable M cfg addr ⟨.forwardLoads ptrs (loadsToScan M ptrs) false, s⟩ →
    ∀ p ∈ ptrs, ∀ i ∈ M.insts, PassState.LoadTaken M true s p i →
      ∀ k ∈ s.killedStores, ∀ value ptr, M.kind k = .store value ptr →
        ¬ Flows M cfg addr (.inst i) value

end Condition

namespace PassState

variable {M : Module} {cfg : Config} {addr : Value → Nat}

/-- No tainted value flows to the value of a killed store. -/
def KillsUnreached (M : Module) (cfg : Config) (addr : Value → Nat) (s : PassState) : Prop :=
  ∀ k ∈ s.killedStores, ∀ value ptr, M.kind k = .store value ptr →
    ∀ v ∈ s.taintedValues, ¬ Flows M cfg addr v value

/-- New taint that no killed store is reached from. -/
theorem KillsUnreached.extend {s t : PassState} (h : s.KillsUnreached M cfg addr)
    (hkills : t.killedStores = s.killedStores)
    (hnew : ∀ v ∈ t.taintedValues, v ∉ s.taintedValues → ∀ k ∈ s.killedStores, ∀ value ptr,
      M.kind k = .store value ptr → ¬ Flows M cfg addr v value) :
    t.KillsUnreached M cfg addr := by
  intro k hk value ptr hkind v hv
  rw [hkills] at hk
  by_cases hold : v ∈ s.taintedValues
  · exact h k hk value ptr hkind v hold
  · exact hnew v hv hold k hk value ptr hkind

theorem KillsUnreached.identifyKillStore {s : PassState} (h : s.KillsUnreached M cfg addr)
    (hclosed : ∀ v ∈ s.taintedValues, ∀ w, FlowsTo M cfg addr v w → w ∈ s.taintedValues)
    (i : InstId) : (s.identifyKillStore M i).KillsUnreached M cfg addr := by
  have hflows {v w : Value} (hv : v ∈ s.taintedValues) (hvw : Flows M cfg addr v w) :
      w ∈ s.taintedValues := by
    induction hvw with
    | refl => exact hv
    | tail _ hstep ih => exact hclosed _ ih _ hstep
  unfold PassState.identifyKillStore
  split
  next value ptr hkind =>
    dsimp only
    split
    next hkill =>
      intro k hk value' ptr' hkind' v hv hvalue
      rcases DenseSet.mem_insert.mp hk with rfl | hk
      · -- the value is untainted when the store is classified
        rw [hkind] at hkind'
        cases hkind'
        exact hkill.2.1 (hflows hv hvalue)
      · exact h k hk value' ptr' hkind' v hv hvalue
    next => exact h
  next => exact h

/-- The effect of one load of a scan. -/
theorem scanLoad_effect (killTracking : Bool) (p : Value) (r : PassState × Bool) (i : InstId) :
    (scanLoad M killTracking p r i).1.killedStores = r.1.killedStores ∧
      (scanLoad M killTracking p r i).1.pointerTaintOrigin = r.1.pointerTaintOrigin ∧
      ∀ v ∈ (scanLoad M killTracking p r i).1.taintedValues, v ∉ r.1.taintedValues →
        v = .inst i ∧ LoadTaken M killTracking r.1 p i := by
  -- a level is set even for a load that is skipped
  have hlevel : (r.1.ensureLevelSet i).killedStores = r.1.killedStores ∧
      (r.1.ensureLevelSet i).pointerTaintOrigin = r.1.pointerTaintOrigin ∧
      (r.1.ensureLevelSet i).taintedValues = r.1.taintedValues := by
    unfold ensureLevelSet
    split
    · exact ⟨rfl, rfl, rfl⟩
    · split <;> exact ⟨rfl, rfl, rfl⟩
  obtain ⟨hkilled, horigin, hvalues⟩ := hlevel
  have hskip (v : Value) (hv : v ∈ (r.1.ensureLevelSet i).taintedValues) : v ∈ r.1.taintedValues := by
    rwa [hvalues] at hv
  -- in the order of the tests: no match, tainted, killed, before the origin
  unfold scanLoad
  split
  · exact ⟨rfl, rfl, fun v hv hnew => absurd hv hnew⟩
  next hmatch =>
    split
    · exact ⟨rfl, rfl, fun v hv hnew => absurd hv hnew⟩
    · split
      · exact ⟨hkilled, horigin, fun v hv hnew => absurd (hskip v hv) hnew⟩
      next hkill =>
        split
        · exact ⟨hkilled, horigin, fun v hv hnew => absurd (hskip v hv) hnew⟩
        next hbefore =>
          refine ⟨hkilled, horigin, fun v hv hnew => ?_⟩
          rcases DenseSet.mem_insert.mp hv with rfl | hv
          · exact ⟨rfl, by simpa using hmatch, by simpa using hkill, hbefore⟩
          · exact absurd (hskip v hv) hnew

theorem loadTaken_congr {s t : PassState} {killTracking : Bool} {p : Value} {i : InstId}
    (hkilled : t.killedStores = s.killedStores)
    (horigin : t.pointerTaintOrigin = s.pointerTaintOrigin) :
    LoadTaken M killTracking t p i ↔ LoadTaken M killTracking s p i := by
  unfold LoadTaken afterKill isLoadBeforeTaintOrigin
  rw [hkilled, horigin]

end PassState

namespace Point

variable {M : Module} {cfg : Config} {addr : Value → Nat}

/-- What the loops know about the kills: none before the first scan; nothing is queued while they are
identified; a scan keeps to the state it started in. -/
def KillContext (M : Module) (cfg : Config) (addr : Value → Nat) (s : PassState) : Control → Prop
  | .seeding .. => ∀ k, k ∉ s.killedStores
  | .killStores _ => s.worklist = []
  | .forwardLoads ptrs rest _ => (∀ e ∈ rest, e.1 ∈ ptrs ∧ e.2 ∈ M.insts) ∧ ∃ s₀,
    Reachable M cfg addr ⟨.forwardLoads ptrs (loadsToScan M ptrs) false, s₀⟩ ∧
      s.killedStores = s₀.killedStores ∧ s.pointerTaintOrigin = s₀.pointerTaintOrigin
  | _ => True

structure KillsKept (M : Module) (cfg : Config) (addr : Value → Nat) (m : Point) : Prop where
  unreached : m.state.KillsUnreached M cfg addr
  context : KillContext M cfg addr m.state m.control

theorem KillsKept.step {m m' : Point} (hspare : ScansSpareKills M cfg addr)
    (hreach : Reachable M cfg addr m) (hphase : m.control.upward = false)
    (h : m.KillsKept M cfg addr) (hstep : LinuxAnalysis.step M cfg addr m = some m') :
    m'.KillsKept M cfg addr := by
  have htargets := initialTargets_of_reachable hreach hphase
  have hpassed := passedOn_of_reachable hreach hphase
  have hpending := (valid_of_reachable hreach).pending
  have hnext := hreach.trans (.single hstep)
  obtain ⟨hunreached, hcontext⟩ := h
  cases transition_of_step hstep with
  | @seedOperand i op rest n found s =>
    have hkills : (seedOperand M cfg i ⟨s, n, found⟩ op).pass.killedStores = s.killedStores :=
      (keepsScans_seedOperand i ⟨s, n, found⟩ op).killedStores
    refine ⟨hunreached.extend hkills fun v _ _ k hk => absurd hk (hcontext k), ?_⟩
    intro k hk
    rw [hkills] at hk
    exact hcontext k hk
  | forwardDrained hempty => exact ⟨hunreached, hempty⟩
  | @forwardUser v u rest s =>
    obtain ⟨hv, hrest⟩ := hpending
    refine ⟨hunreached.extend (PassState.keepsScans_forwardUser v s u).killedStores ?_, trivial⟩
    intro w hw hnew k hk value ptr hkind hflows
    -- what the visit taints lies on the way from `v`
    have hvia := ((PassState.mem_forwardUser htargets).mp hw).resolve_left hnew
    have hto : FlowsTo M cfg addr v w := ⟨u, hrest u List.mem_cons_self, hvia⟩
    exact hunreached k hk value ptr hkind v hv (.head hto hflows)
  | @killStore i rest s =>
    have hempty : s.worklist = [] := hcontext
    refine ⟨hunreached.identifyKillStore (fun v hv w hvw => ?_) i, ?_⟩
    · -- nothing is queued, so tainted values are passed on
      obtain ⟨u, hu, hvia⟩ := hvw
      rcases hpassed v hv with hqueued | hvisited
      · rw [show (⟨.killStores (i :: rest), s⟩ : Point).state.worklist = [] from hempty] at hqueued
        exact absurd hqueued List.not_mem_nil
      · exact (hvisited u hu).resolve_left List.not_mem_nil w hvia
    · show (s.identifyKillStore M i).worklist = []
      unfold PassState.identifyKillStore
      split
      · dsimp only
        split <;> exact hempty
      · exact hempty
  | @killStoresEnd s => exact ⟨hunreached, fun e he => mem_pairs.mp he, s, hnext, rfl, rfl⟩
  | @forwardLoad ptrs p i rest changed s =>
    obtain ⟨hrest, s₀, hstart, hkilled, horigin⟩ := hcontext
    obtain ⟨hkilled', horigin', hnew⟩ := PassState.scanLoad_effect (M := M) true p (s, changed) i
    obtain ⟨hp, hi⟩ := hrest _ List.mem_cons_self
    refine ⟨hunreached.extend hkilled' fun w hw hfresh => ?_,
      fun e he => hrest e (List.mem_cons_of_mem _ he), s₀, hstart,
      hkilled'.trans hkilled, horigin'.trans horigin⟩
    obtain ⟨rfl, htaken⟩ := hnew w hw hfresh
    have htaken₀ := (PassState.loadTaken_congr hkilled horigin).mp htaken
    show ∀ k ∈ s.killedStores, _
    rw [hkilled]
    exact hspare ptrs s₀ hstart p hp i hi htaken₀
  | seeded | forwardTurn | forwardEnd | forwardPop | forwardUsersEnd | forwardLoadsEnd =>
    exact ⟨hunreached, trivial⟩
  | _ => cases hphase

theorem killsKept_of_reachable (hspare : ScansSpareKills M cfg addr) {m : Point}
    (h : Reachable M cfg addr m) (hphase : m.control.upward = false) : m.KillsKept M cfg addr := by
  have hinv := h.invariant (I := fun m => Reachable M cfg addr m ∧
    (m.control.upward = false → m.KillsKept M cfg addr)) (fun m m' hm hstep => ?_) ⟨.refl _, ?_⟩
  · exact hinv.2 hphase
  · refine ⟨hm.1.trans (.single hstep), fun hphase' => ?_⟩
    cases hbefore : m.control.upward with
    | false => exact (hm.2 hbefore).step hspare hm.1 hbefore hstep
    | true =>
      rw [((step_spec (valid_of_reachable hm.1) hstep).upward hbefore).1] at hphase'
      cases hphase'
  · intro _
    obtain ⟨targets, hstate⟩ := initialPoint_state M cfg
    have hnone : ∀ k, k ∉ (initialPoint M cfg).state.killedStores := by
      rw [hstate]
      exact DenseSet.not_mem_empty
    exact ⟨fun k hk => absurd hk (hnone k), hnone⟩

end Point

/-- A load taken in a scan stays tainted, and so does all it flows to. -/
theorem tainted_of_taken {M : Module} {cfg : Config} {addr : Value → Nat} {fuel : Nat}
    {t : PassState} (h : forwardPhase M cfg addr fuel = some t) {ptrs : List Value} {s : PassState}
    (hreach : Reachable M cfg addr ⟨.forwardLoads ptrs (loadsToScan M ptrs) false, s⟩) {p : Value}
    (hp : p ∈ ptrs) {i : InstId} (hi : i ∈ M.insts) (htaken : PassState.LoadTaken M true s p i)
    {value : Value} (hflows : Flows M cfg addr (.inst i) value) :
    value ∈ t.taintedValues ∧ s.killedStores ⊆ t.killedStores := by
  have hscanned := hreach.trans (forwardLoads_reaches ptrs s)
  have hscan : .inst i ∈ (s.scanLoadsFromTaintedPointers M true ptrs).1.taintedValues :=
    ((PassState.scanLoadsFromTaintedPointers_spec true ptrs s).taintedValues _).mpr
      (.inr ⟨i, ⟨hi, p, hp, htaken⟩, rfl⟩)
  have hgrows := Point.grows_of_reaches (Point.valid_of_reachable hscanned)
    (Point.reaches_end hscanned rfl h)
  have hkills := (Point.grows_of_reaches (Point.valid_of_reachable hreach)
    (Point.reaches_end hreach rfl h)).2
  refine ⟨?_, hkills⟩
  induction hflows with
  | refl => exact hgrows.1 _ hscan
  | tail _ hstep ih => exact forwardPhase_flowsTo h ih hstep

/-- **Kill set consistency.**  When the forward loop exits, the values of the killed stores are
untainted if and only if no scan took a load that flows to the value of a store killed by then. -/
theorem forwardPhase_kills_iff (M : Module) (cfg : Config) (addr : Value → Nat) (fuel : Nat)
    (t : PassState) (h : forwardPhase M cfg addr fuel = some t) :
    (∀ k ∈ t.killedStores, ∀ value ptr, M.kind k = .store value ptr → value ∉ t.taintedValues) ↔
      ScansSpareKills M cfg addr := by
  constructor
  · intro hkills ptrs s hreach p hp i hi htaken k hk value ptr hkind hflows
    obtain ⟨hvalue, hsub⟩ := tainted_of_taken h hreach hp hi htaken hflows
    exact hkills k (hsub k hk) value ptr hkind hvalue
  · intro hspare k hk value ptr hkind hvalue
    have hkept := Point.killsKept_of_reachable hspare (forwardLoop_reaches h).1 rfl
    exact hkept.unreached k hk value ptr hkind value hvalue .refl

/-- The store of a constant is killed, and no scan reaches the constant. -/
theorem forwardPhase_kills_iff_retaint :
    (∃ t, forwardPhase retaintModule recursiveConfig Value.slot 5 = some t ∧
      ⟨0, 0, 3⟩ ∈ t.killedStores) ∧
    ScansSpareKills retaintModule recursiveConfig Value.slot := by
  have h : (forwardPhase retaintModule recursiveConfig Value.slot 5).map (fun t =>
      (t.killedStores.elems, decide (.constant 0 ∈ t.taintedValues))) =
      some ([⟨0, 0, 3⟩], false) := by decide
  obtain ⟨t, ht, hval⟩ := Option.map_eq_some_iff.mp h
  obtain ⟨hkilled, hvalue⟩ := Prod.mk.inj hval
  have hmem (k : InstId) : k ∈ t.killedStores ↔ k = ⟨0, 0, 3⟩ := by
    rw [DenseSet.mem_def, hkilled, List.mem_singleton]
  refine ⟨⟨t, ht, (hmem _).mpr rfl⟩, ?_⟩
  apply (forwardPhase_kills_iff retaintModule recursiveConfig Value.slot 5 t ht).mp
  intro k hk value ptr hkind
  obtain rfl := (hmem k).mp hk
  cases hkind
  exact of_decide_eq_false hvalue

/-- `f` writes what it has read back to the variable that holds the constant. -/
def writeBackModule : Module :=
  .ofFunctions [{
    name := "f".toList
    argIsPointerTy := []
    blocks := [[
      { kind := .alloca false (.constantInt 32 1) },
      { kind := .other "add".toList [.constantInt 32 5, .constant 0] [] },
      { kind := .store (.inst ⟨0, 0, 1⟩) (.inst ⟨0, 0, 0⟩) },
      { kind := .load (.inst ⟨0, 0, 0⟩) },
      { kind := .store (.inst ⟨0, 0, 3⟩) (.inst ⟨0, 0, 0⟩) },
      { kind := .ret none }]] }] id

/-- The second store is killed for its value, the load, which the scan of the same turn taints. -/
theorem forwardPhase_keeps_stale_kill :
    ¬ ∀ (M : Module) (cfg : Config) (addr : Value → Nat) (fuel : Nat) (t : PassState),
      forwardPhase M cfg addr fuel = some t →
      ∀ k ∈ t.killedStores, ∀ value ptr, M.kind k = .store value ptr → value ∉ t.taintedValues := by
  intro hall
  have h : (forwardPhase writeBackModule recursiveConfig Value.slot 5).map (fun t =>
      (decide (⟨0, 0, 4⟩ ∈ t.killedStores), decide (.inst ⟨0, 0, 3⟩ ∈ t.taintedValues))) =
      some (true, true) := by decide
  obtain ⟨t, ht, hval⟩ := Option.map_eq_some_iff.mp h
  simp only [Prod.mk.injEq, decide_eq_true_eq] at hval
  exact hall writeBackModule recursiveConfig Value.slot 5 t ht ⟨0, 0, 4⟩ hval.1 (.inst ⟨0, 0, 3⟩)
    (.inst ⟨0, 0, 0⟩) rfl hval.2

end LinuxAnalysis
