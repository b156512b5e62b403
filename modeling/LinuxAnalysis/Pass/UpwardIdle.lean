import LinuxAnalysis.Pass.MemoryTaint
import LinuxAnalysis.Pass.Termination

/-!
# Upward mode without callers

Where no call targets a function on record, the upward phase does nothing but scan every tainted
pointer once more, this time without kill stores.
-/

open LinuxAnalysis.Lib

namespace LinuxAnalysis

/-- The configuration with upward tracking on or off. -/
def Config.withUpward (cfg : Config) (mode : Bool) : Config := { cfg with upwardInterprocMode := mode }

namespace PassState

/-- No call targets a function that returns taint or taints a pointer parameter. -/
def NoCallers (M : Module) (s : PassState) : Prop :=
  ∀ i ∈ M.insts, ∀ f, M.calledFunction i = some f →
    f ∉ s.functionsReturningTaint ∧ f ∉ s.functionsTaintingPointerParams

/-- The phase is entered. -/
def HasRecords (s : PassState) : Prop :=
  (∃ f, f ∈ s.functionsReturningTaint) ∨ ∃ f, f ∈ s.functionsTaintingPointerParams

/-- A load of a tainted pointer is untainted for nothing but a kill store before it. -/
def HidesLoad (M : Module) (s : PassState) : Prop :=
  ∃ p ∈ s.taintedPointers, ∃ i ∈ M.insts, loadMatches M p i = true ∧ .inst i ∉ s.taintedValues ∧
    s.afterKill M i p = true ∧ ¬ s.isLoadBeforeTaintOrigin M i p = true

variable {M : Module} {addr : Value → Nat}

theorem hasRecords_iff {cfg : Config} {s : PassState} :
    (cfg.upwardInterprocMode = true ∧ s.HasRecords) ↔
      (cfg.upwardInterprocMode && (!s.functionsReturningTaint.isEmpty ||
        !s.functionsTaintingPointerParams.entries.isEmpty)) = true := by
  have hreturning : (!s.functionsReturningTaint.isEmpty) = true ↔
      ∃ f, f ∈ s.functionsReturningTaint := by
    rw [Bool.not_eq_true', ← Bool.not_eq_true, DenseSet.isEmpty_iff, not_forall_not]
  have hparams : (!s.functionsTaintingPointerParams.entries.isEmpty) = true ↔
      ∃ f, f ∈ s.functionsTaintingPointerParams := by
    rw [Bool.not_eq_true', ← Bool.not_eq_true, List.isEmpty_iff]
    constructor
    · intro hne
      obtain ⟨e, he⟩ := List.exists_mem_of_ne_nil _ hne
      exact ⟨e.1, AList.lookup_isSome.mp (by rw [DenseMap.mem_entries_iff.mp he]; rfl)⟩
    · rintro ⟨f, hf⟩ hnil
      obtain ⟨b, hb⟩ := Option.isSome_iff_exists.mp (AList.lookup_isSome.mpr hf)
      have hmem := DenseMap.mem_entries_iff.mpr hb
      rw [hnil] at hmem
      cases hmem
  rw [Bool.and_eq_true, Bool.or_eq_true, hreturning, hparams]
  exact Iff.rfl

/-- What stays as it was at the start of the phase. -/
structure Idle (s t : PassState) : Prop where
  values : t.taintedValues = s.taintedValues
  pointers : t.taintedPointers = s.taintedPointers
  origin : t.pointerTaintOrigin = s.pointerTaintOrigin
  returning : t.functionsReturningTaint = s.functionsReturningTaint
  params : t.functionsTaintingPointerParams = s.functionsTaintingPointerParams
  worklist : t.worklist = s.worklist

theorem Idle.refl (s : PassState) : s.Idle s := ⟨rfl, rfl, rfl, rfl, rfl, rfl⟩

theorem Idle.trans {s t u : PassState} (h₁ : s.Idle t) (h₂ : t.Idle u) : s.Idle u :=
  ⟨h₂.values.trans h₁.values, h₂.pointers.trans h₁.pointers, h₂.origin.trans h₁.origin,
    h₂.returning.trans h₁.returning, h₂.params.trans h₁.params, h₂.worklist.trans h₁.worklist⟩

theorem Idle.noCallers {s t : PassState} (h : s.Idle t) (hs : s.NoCallers M) : t.NoCallers M := by
  intro i hi f hcall
  rw [h.returning, h.params]
  exact hs i hi f hcall

theorem upwardReturns_idle {s : PassState} (hs : s.NoCallers M) : s.upwardReturns M addr = s := by
  refine foldl_invariant (I := fun t : PassState => t = s) (fun t f hf ht => ?_) rfl
  refine foldl_invariant (I := fun t : PassState => t = s) (fun t i hi ht => ?_) ht
  subst ht
  rw [taintReturningCall, if_neg fun hcall => (hs i hi f hcall).1 (mem_sortOn.mp hf)]

theorem upwardParams_idle {s : PassState} (hs : s.NoCallers M) : s.upwardParams M addr = s := by
  refine foldl_invariant (I := fun t : PassState => t = s) (fun t e he ht => ?_) rfl
  refine foldl_invariant (I := fun t : PassState => t = s) (fun t i hi ht => ?_) ht
  subst ht
  have hmem : e.1 ∈ t.functionsTaintingPointerParams :=
    AList.lookup_isSome.mp (by rw [DenseMap.mem_entries_iff.mp (mem_sortOn.mp he)]; rfl)
  unfold upwardCallSite
  split
  · rw [if_neg fun hcall => (hs i hi e.1 hcall).2 hmem]
  · rfl

/-- Every load the scan could take is tainted. -/
def Exhausted (M : Module) (s : PassState) : Prop :=
  ∀ p ∈ s.taintedPointers, ∀ i ∈ M.insts, loadMatches M p i = true →
    .inst i ∈ s.taintedValues ∨ s.isLoadBeforeTaintOrigin M i p = true

theorem idle_ensureLevelSet (i : InstId) (s : PassState) : s.Idle (s.ensureLevelSet i) := by
  unfold ensureLevelSet
  split
  · exact .refl s
  · split <;> exact ⟨rfl, rfl, rfl, rfl, rfl, rfl⟩

theorem upwardScan_idle {s : PassState} {ptrs : List Value} (hs : s.Exhausted M)
    (hptrs : ∀ p ∈ ptrs, p ∈ s.taintedPointers) : s.Idle (s.upwardScan M ptrs) := by
  have hscan : s.Idle (s.scanLoadsFromTaintedPointers M false ptrs).1 := by
    refine foldl_invariant (I := fun r : PassState × Bool => s.Idle r.1) (fun r p hp hr => ?_)
      (.refl s)
    refine foldl_invariant (I := fun r : PassState × Bool => s.Idle r.1) (fun r i hi hr => ?_) hr
    have hlevel := hr.trans (idle_ensureLevelSet i r.1)
    unfold scanLoad
    split
    · exact hr
    next hmatch =>
      split
      · exact hr
      next hload =>
        split
        · exact hlevel
        · split
          · exact hlevel
          next horigin =>
            -- such a load is tainted already
            rw [Bool.not_eq_true', Bool.not_eq_false] at hmatch
            rcases hs p (hptrs p hp) i hi hmatch with htainted | hbefore
            · rw [hr.values] at hload
              exact absurd htainted hload
            · rw [isLoadBeforeTaintOrigin, hr.origin] at horigin
              exact absurd hbefore horigin
  exact ⟨hscan.values, hscan.pointers, hscan.origin, hscan.returning, hscan.params, hscan.worklist⟩

theorem Idle.exhausted {s t : PassState} (h : s.Idle t) (hs : s.Exhausted M) : t.Exhausted M := by
  intro p hp i hi hmatch
  rw [h.pointers] at hp
  rw [h.values, isLoadBeforeTaintOrigin, h.origin]
  exact hs p hp i hi hmatch

theorem upwardDrain_idle {fuel : Nat} {s t : PassState} (hs : s.worklist = [])
    (h : s.upwardDrain M addr fuel = some t) : t = s := by
  cases fuel with
  | zero => cases h
  | succ n =>
    rw [upwardDrain, whileLoop_succ, hs] at h
    cases h
    rfl

theorem upwardRound_idle {fuel : Nat} {s t : PassState} (hwl : s.worklist = [])
    (hcallers : s.NoCallers M) (hs : s.Exhausted M) (h : s.upwardRound M addr fuel = some t) :
    s.Idle t := by
  obtain ⟨u, hu, rfl⟩ := Option.map_eq_some_iff.mp h
  have hcallers' : NoCallers M { s with discoveredNewFunctions := false } := hcallers
  rw [upwardReturns_idle hcallers', upwardParams_idle hcallers'] at hu
  have hstart : s.Idle { s with discoveredNewFunctions := false } := ⟨rfl, rfl, rfl, rfl, rfl, rfl⟩
  have hsat : s.Idle u := by
    refine loop_invariant (I := s.Idle) (Q := s.Idle) ?_ ?_ hstart hu
    · intro x y hx hxy
      obtain ⟨z, hz, hzy⟩ := Option.map_eq_some_iff.mp hxy
      rw [upwardDrain_idle (hx.worklist.trans hwl) hz] at hzy
      dsimp only at hzy
      split at hzy
      · cases hzy
      · cases hzy
        exact hx.trans (upwardScan_idle (hx.exhausted hs) fun p hp => (mem_pointersToScan.mp hp).1)
    · intro x y hx hxy
      obtain ⟨z, hz, hzy⟩ := Option.map_eq_some_iff.mp hxy
      rw [upwardDrain_idle (hx.worklist.trans hwl) hz] at hzy
      dsimp only at hzy
      split at hzy
      · cases hzy
        exact hx
      · cases hzy
  dsimp only
  split
  · exact hsat.trans ⟨rfl, rfl, rfl, rfl, rfl, rfl⟩
  · exact hsat

theorem upwardLoop_idle {fuel : Nat} {s t : PassState} (hwl : s.worklist = [])
    (hcallers : s.NoCallers M) (hs : s.Exhausted M) (h : s.upwardLoop M addr fuel = some t) :
    s.Idle t := by
  have hstart : s.Idle { s with discoveredNewFunctions := true } := ⟨rfl, rfl, rfl, rfl, rfl, rfl⟩
  refine (whileLoop_invariant (I := s.Idle) (fun u w hu _ huw => ?_) hstart h).1
  exact hu.trans (upwardRound_idle (hu.worklist.trans hwl) (hu.noCallers hcallers)
    (hu.exhausted hs) huw)

/-! ## The first scan takes the hidden loads -/

/-- The loads of the pointers scanned in this phase, as far as they were tainted at its start. -/
structure Rescanning (M : Module) (s t : PassState) : Prop where
  ready : t.Ready M
  grows : s.Grows t
  taken : ∀ p ∈ t.upwardScannedPointers, p ∈ s.taintedPointers → ∀ i ∈ M.insts,
    loadMatches M p i = true →
    .inst i ∈ t.taintedValues ∨ s.isLoadBeforeTaintOrigin M i p = true

theorem Rescanning.grow {s t u : PassState} (h : s.Rescanning M t) (hu : u.Ready M)
    (hgrows : t.Grows u) (hscanned : u.upwardScannedPointers = t.upwardScannedPointers) :
    s.Rescanning M u := by
  refine ⟨hu, h.grows.trans hgrows, fun p hp hold i hi hmatch => ?_⟩
  rw [hscanned] at hp
  exact (h.taken p hp hold i hi hmatch).imp_left (hgrows.values _)

theorem Rescanning.scan {s t : PassState} (h : s.Rescanning M t)
    (hptrs : (t.pointersToScan addr t.upwardScannedPointers).isEmpty = false) :
    s.Rescanning M (t.upwardScan M (t.pointersToScan addr t.upwardScannedPointers)) := by
  obtain ⟨hready, hgrows, _, _⟩ := upwardScan_ready addr h.ready hptrs
  refine ⟨hready, h.grows.trans hgrows, fun p hp hold i hi hmatch => ?_⟩
  have hspec := scanLoadsFromTaintedPointers_spec (M := M) false
    (t.pointersToScan addr t.upwardScannedPointers) t
  have hkept := (scanLoads_proceeds (M := M) false (s := t)
    (t.pointersToScan addr t.upwardScannedPointers)
    fun q hq => (mem_pointersToScan.mp hq).1).1.advances.upwardScanned
  have hp' : p ∈ t.pointersToScan addr t.upwardScannedPointers ∨ p ∈ t.upwardScannedPointers := by
    have hmem := mem_foldl_insert.mp hp
    rwa [hkept] at hmem
  by_cases hbefore : s.isLoadBeforeTaintOrigin M i p = true
  · exact .inr hbefore
  · rcases hp' with hnow | hearlier
    · refine .inl ((hspec.taintedValues _).mpr (.inr ⟨i, ⟨hi, p, hnow, hmatch, ?_, ?_⟩, rfl⟩))
      · exact fun hkill => Bool.false_ne_true hkill.1
      · rwa [isLoadBeforeTaintOrigin, h.grows.origin p hold]
    · exact ((h.taken p hearlier hold i hi hmatch).imp_left (hgrows.values _))

theorem upwardSaturate_rescans {fuel : Nat} {s t u : PassState} (ht : s.Rescanning M t)
    (h : t.upwardSaturate M addr fuel = some u) :
    s.Rescanning M u ∧ ∀ p ∈ u.taintedPointers, p ∈ u.upwardScannedPointers := by
  refine loop_invariant (I := s.Rescanning M)
    (Q := fun u => s.Rescanning M u ∧ ∀ p ∈ u.taintedPointers, p ∈ u.upwardScannedPointers) ?_ ?_
    ht h
  -- a round with pointers left scans them
  · intro x y hx hxy
    obtain ⟨z, hz, hzy⟩ := Option.map_eq_some_iff.mp hxy
    obtain ⟨hadv, hready⟩ := drain_spec (fun _ => upwardPop_spec) hx.ready hz
    have hdrained := hx.grow hready hadv.grows hadv.upwardScanned
    dsimp only at hzy
    split at hzy
    · cases hzy
    next hptrs =>
      cases hzy
      exact hdrained.scan (by simpa using hptrs)
  · intro x y hx hxy
    obtain ⟨z, hz, hzy⟩ := Option.map_eq_some_iff.mp hxy
    obtain ⟨hadv, hready⟩ := drain_spec (fun _ => upwardPop_spec) hx.ready hz
    have hdrained := hx.grow hready hadv.grows hadv.upwardScanned
    dsimp only at hzy
    split at hzy
    next hptrs =>
      cases hzy
      refine ⟨hdrained, fun p hp => ?_⟩
      -- nothing is left to scan, so every tainted pointer was scanned
      by_contra hnew
      have hmem : p ∈ pointersToScan addr _ _ := mem_pointersToScan.mpr ⟨hp, hnew⟩
      rw [List.isEmpty_iff.mp hptrs] at hmem
      cases hmem
    · cases hzy

theorem upwardRound_values {fuel : Nat} {s t : PassState}
    (h : s.upwardRound M addr fuel = some t) : s.taintedValues ⊆ t.taintedValues := by
  obtain ⟨u, hu, rfl⟩ := Option.map_eq_some_iff.mp h
  have hall := ((discovers_upwardReturns (M := M) { s with discoveredNewFunctions := false }).trans
    (discovers_upwardParams _)).trans (discovers_upwardSaturate hu)
  split <;> exact hall.taintedValues

/-- A run of the phase taints every load of a pointer tainted at its start, but for those before the
origin. -/
theorem upwardLoop_rescans {fuel : Nat} {s t : PassState} (hs : s.Ready M)
    (hscanned : s.upwardScannedPointers = ∅) (h : s.upwardLoop M addr fuel = some t) :
    ∀ p ∈ s.taintedPointers, ∀ i ∈ M.insts, loadMatches M p i = true →
      .inst i ∈ t.taintedValues ∨ s.isLoadBeforeTaintOrigin M i p = true := by
  let Q := fun u : PassState => ∀ p ∈ s.taintedPointers, ∀ i ∈ M.insts, loadMatches M p i = true →
    .inst i ∈ u.taintedValues ∨ s.isLoadBeforeTaintOrigin M i p = true
  -- the first round scans every pointer, since none was scanned upward before
  have hfirst (u : PassState)
      (hu : upwardRound M addr fuel { s with discoveredNewFunctions := true } = some u) : Q u := by
    obtain ⟨w, hw, rfl⟩ := Option.map_eq_some_iff.mp hu
    let old : PassState := { s with discoveredNewFunctions := false }
    have hcalls := (upwardReturns_proceeds addr old).trans
      (upwardParams_proceeds (M := M) addr (old.upwardReturns M addr))
    have hready : old.Ready M := ⟨hs.within.congr rfl rfl rfl rfl, hs.queued⟩
    have hstart : old.Rescanning M ((old.upwardReturns M addr).upwardParams M addr) := by
      refine ⟨hcalls.ready hready, hcalls.advances.grows, fun p hp => ?_⟩
      rw [hcalls.advances.upwardScanned] at hp
      rw [show old.upwardScannedPointers = ∅ from hscanned] at hp
      exact absurd hp (DenseSet.not_mem_empty p)
    obtain ⟨hrescan, hall⟩ := upwardSaturate_rescans hstart hw
    have htaken (p : Value) (hp : p ∈ s.taintedPointers) (i : InstId) (hi : i ∈ M.insts)
        (hmatch : loadMatches M p i = true) :=
      hrescan.taken p (hall p (hrescan.grows.pointers p hp)) hp i hi hmatch
    dsimp only
    split <;> exact htaken
  -- later rounds only add
  obtain ⟨hinv, hcond⟩ := whileLoop_invariant
    (I := fun u => u = { s with discoveredNewFunctions := true } ∨ Q u)
    (fun u w hu _ huw => .inr (by
      rcases hu with rfl | hu
      · exact hfirst w huw
      · exact fun p hp i hi hmatch => (hu p hp i hi hmatch).imp_left (upwardRound_values huw _)))
    (.inl rfl) h
  rcases hinv with rfl | ht
  · cases hcond
  · exact ht

/-! ## What the forward phase leaves to the scan -/

theorem upwardScanned_seedStep {cfg : Config} {s t : PassState} (h : SeedStep M cfg s t) :
    t.upwardScannedPointers = s.upwardScannedPointers := by
  cases h with
  | source _ _ => rfl
  | returned _ _ _ => rfl
  | parameterStore _ _ _ _ =>
    unfold recordParameterStore recordFieldAccess
    split <;> rfl
  | pointer _ _ _ =>
    unfold taintPointer
    split <;> rfl
  | parameter _ _ _ _ _ _ =>
    unfold taintParameter
    split <;> rfl

theorem upwardScanned_forwardScan (s : PassState) :
    (s.forwardScan M addr).upwardScannedPointers = s.upwardScannedPointers := by
  have hscan := (scanLoads_proceeds (M := M) true (s := s.identifyKillStores M)
    ((s.identifyKillStores M).pointersToScan addr (s.identifyKillStores M).scannedPointers)
    fun p hp => (mem_pointersToScan.mp hp).1).1
  exact hscan.advances.upwardScanned.trans (identifyKillStores_proceeds s).advances.upwardScanned

end PassState

theorem forwardPhase_upwardScanned {M : Module} {cfg : Config} {addr : Value → Nat} {fuel : Nat}
    {s : PassState} (h : forwardPhase M cfg addr fuel = some s) : s.upwardScannedPointers = ∅ := by
  have hinitial : (PassState.buildFunctionPointerTargets M cfg {}).upwardScannedPointers = ∅ := by
    obtain ⟨targets, hstate⟩ := Point.initialPoint_state M cfg
    exact congrArg PassState.upwardScannedPointers hstate
  have hseeded : (seedWorklist M cfg).upwardScannedPointers = ∅ := by
    refine steps_invariant (I := fun s : PassState => s.upwardScannedPointers = ∅)
      (fun s t hs hst => ?_) hinitial (PassState.seedWorklist_steps M cfg)
    exact (PassState.upwardScanned_seedStep hst).trans hs
  have hstart : Reachable M cfg addr ⟨.forwardLoop, { seedWorklist M cfg with changed := true }⟩ :=
    seedWorklist_reaches
  refine (whileLoop_invariant (I := fun s => s.Ready M ∧ s.upwardScannedPointers = ∅)
    (fun s t hs _ hst => ?_) ⟨PassState.ready_of_reachable hstart, hseeded⟩ h).1.2
  obtain ⟨u, hu, rfl⟩ := Option.map_eq_some_iff.mp hst
  have hreset : PassState.Ready M { s with changed := false } :=
    ⟨hs.1.within.congr rfl rfl rfl rfl, hs.1.queued⟩
  obtain ⟨hadv, hready⟩ := PassState.drain_spec (fun _ => PassState.forwardPop_spec) hreset hu
  refine ⟨(PassState.forwardScan_ready addr hready).1, ?_⟩
  exact (PassState.upwardScanned_forwardScan u).trans (hadv.upwardScanned.trans hs.2)

/-- **Upward mode without callers.**  The run with upward tracking and the run without it return, and
when no call targets a function on record they end with the same sets exactly when there is no such
function, or no load of a tainted pointer was left out for a kill store alone. -/
theorem upward_adds_nothing_iff (M : Module) (cfg : Config) (addr : Value → Nat) :
    ∃ s t t', Returns (forwardPhase M cfg addr) s ∧
      Returns (run M (cfg.withUpward true) addr) t ∧
      Returns (run M (cfg.withUpward false) addr) t' ∧
      (s.NoCallers M →
        (((∀ v, v ∈ t.taintedValues ↔ v ∈ t'.taintedValues) ∧
          ∀ p, p ∈ t.taintedPointers ↔ p ∈ t'.taintedPointers) ↔
        ¬ s.HasRecords ∨ ¬ s.HidesLoad M)) := by
  obtain ⟨s, hs, hready⟩ := forwardPhase_returns M cfg addr
  obtain ⟨t, ht⟩ := PassState.upwardPhase_returns (cfg.withUpward true) addr hready
  have hon : Returns (run M (cfg.withUpward true) addr) t := hs.bind ht
  have hoff : Returns (run M (cfg.withUpward false) addr) s := hs.bind (.pure s)
  refine ⟨s, t, s, hs, hon, hoff, fun hcallers => ?_⟩
  obtain ⟨n, hn⟩ := hs.eq_some
  obtain ⟨k, hk⟩ := ht.eq_some
  -- a load is left over exactly when a kill hides it
  have hexhausted : s.Exhausted M ↔ ¬ s.HidesLoad M := by
    constructor
    · rintro h ⟨p, hp, i, hi, hmatch, hnew, _, hbefore⟩
      rcases h p hp i hi hmatch with hold | hb
      · exact hnew hold
      · exact hbefore hb
    · intro h p hp i hi hmatch
      by_contra hleft
      rw [not_or] at hleft
      rcases forwardPhase_loads_decided hn p hp i hi hmatch with ht | hkill | hb
      · exact hleft.1 ht
      · exact h ⟨p, hp, i, hi, hmatch, hleft.1, hkill, hleft.2⟩
      · exact hleft.2 hb
  -- without records the upward phase is not entered
  by_cases hrecords : s.HasRecords
  · have henter : s.upwardLoop M addr k = some t := by
      have hguard : ((cfg.withUpward true).upwardInterprocMode && (!s.functionsReturningTaint.isEmpty ||
          !s.functionsTaintingPointerParams.entries.isEmpty)) = true := by
        rw [← PassState.hasRecords_iff]
        exact ⟨rfl, hrecords⟩
      rwa [PassState.upwardPhase, if_pos hguard] at hk
    constructor
    · rintro ⟨hvalues, _⟩
      refine .inr (hexhausted.mp fun p hp i hi hmatch => ?_)
      have htaken := PassState.upwardLoop_rescans hready (forwardPhase_upwardScanned hn) henter
        p hp i hi hmatch
      exact htaken.imp_left (hvalues _).mp
    · intro h
      have hidle := PassState.upwardLoop_idle (forwardPhase_processed hn).1 hcallers
        (hexhausted.mpr (h.resolve_left fun hno => hno hrecords)) henter
      rw [hidle.values, hidle.pointers]
      exact ⟨fun _ => Iff.rfl, fun _ => Iff.rfl⟩
  · have hsame : t = s := by
      have hguard : ¬ ((cfg.withUpward true).upwardInterprocMode && (!s.functionsReturningTaint.isEmpty ||
          !s.functionsTaintingPointerParams.entries.isEmpty)) = true := by
        rw [← PassState.hasRecords_iff]
        exact fun h => hrecords h.2
      rw [PassState.upwardPhase, if_neg hguard] at hk
      cases hk
      rfl
    rw [hsame]
    exact ⟨fun _ => .inl hrecords, fun _ => ⟨fun _ => Iff.rfl, fun _ => Iff.rfl⟩⟩

/-- `f` stores the tainted sum to a local variable, overwrites it and reads it, and returns the sum. -/
def hiddenLoadModule : Module :=
  .ofFunctions [{
    name := "f".toList
    argIsPointerTy := []
    blocks := [[
      { kind := .alloca false (.constantInt 32 1) },
      { kind := .other "add".toList [.constantInt 32 5, .constant 0] [] },
      { kind := .store (.inst ⟨0, 0, 1⟩) (.inst ⟨0, 0, 0⟩) },
      { kind := .store (.constant 0) (.inst ⟨0, 0, 0⟩) },
      { kind := .load (.inst ⟨0, 0, 0⟩) },
      { kind := .ret (some (.inst ⟨0, 0, 1⟩)) }]] }] id

/-- No call is in the module, and the upward scan taints the load that the kill store had hidden. -/
theorem upward_takes_hidden_load :
    ¬ ∀ (M : Module) (cfg : Config) (addr : Value → Nat) (fuel : Nat) (s t t' : PassState),
      forwardPhase M cfg addr fuel = some s → s.NoCallers M →
      run M (cfg.withUpward true) addr fuel = some t →
      run M (cfg.withUpward false) addr fuel = some t' →
      (∀ v, v ∈ t.taintedValues ↔ v ∈ t'.taintedValues) ∧
        ∀ p, p ∈ t.taintedPointers ↔ p ∈ t'.taintedPointers := by
  intro hall
  have hforward : (forwardPhase hiddenLoadModule recursiveConfig Value.slot 6).isSome = true := by
    decide
  have hon : (run hiddenLoadModule (recursiveConfig.withUpward true) Value.slot 6).map
      (fun t => decide (.inst ⟨0, 0, 4⟩ ∈ t.taintedValues)) = some true := by decide
  have hoff : (run hiddenLoadModule (recursiveConfig.withUpward false) Value.slot 6).map
      (fun t => decide (.inst ⟨0, 0, 4⟩ ∈ t.taintedValues)) = some false := by decide
  obtain ⟨s, hs⟩ := Option.isSome_iff_exists.mp hforward
  obtain ⟨t, ht, htval⟩ := Option.map_eq_some_iff.mp hon
  obtain ⟨t', ht', htval'⟩ := Option.map_eq_some_iff.mp hoff
  have hcallers : s.NoCallers hiddenLoadModule := by
    have hnone : ∀ i ∈ hiddenLoadModule.insts, hiddenLoadModule.calledFunction i = none := by decide
    intro i hi f hcall
    rw [hnone i hi] at hcall
    cases hcall
  have hsame := (hall hiddenLoadModule recursiveConfig Value.slot 6 s t t' hs hcallers ht ht').1
    (.inst ⟨0, 0, 4⟩)
  exact of_decide_eq_false htval' (hsame.mp (of_decide_eq_true htval))

end LinuxAnalysis
