import LinuxAnalysis.Pass.ScanSpec

/-!
# Taint through memory along control flow

A tainted store reaches a load when some control-flow path leads from one to the other and no other
store to the pointer lies on it.  The forward loop scans every tainted pointer once, and what the
scan decided about a load stays decided: origins are never replaced and kills are never taken back.
-/

open LinuxAnalysis.Lib

namespace LinuxAnalysis

/-! ## Control flow -/

/-- Control may pass from instruction `i` to instruction `j`. -/
def Module.Flow (M : Module) (i j : InstId) : Prop :=
  i ∈ M.insts ∧ j ∈ M.insts ∧ j.func = i.func ∧
    ((j.block = i.block ∧ j.idx = i.idx + 1) ∨ (j.block ∈ (M.kind i).successors ∧ j.idx = 0))

/-- A path from `store` on which no other store to `ptr` occurs before its end. -/
inductive KillFree (M : Module) (ptr : Value) (store : InstId) : InstId → Prop where
  | edge {j : InstId} : M.Flow store j → KillFree M ptr store j
  | step {j k : InstId} : KillFree M ptr store j →
      (j ≠ store → M.storePointer j ≠ some ptr) → M.Flow j k → KillFree M ptr store k

theorem KillFree.mem_insts {M : Module} {ptr : Value} {store j : InstId}
    (h : KillFree M ptr store j) : j ∈ M.insts := by
  cases h with
  | edge hflow => exact hflow.2.1
  | step _ _ hflow => exact hflow.2.1

/-- A store to `ptr` that stands before the end of the path in its block stands at or before the
start, which is then in that block too. -/
theorem KillFree.precedes {M : Module} {ptr : Value} {store j kill : InstId}
    (h : KillFree M ptr store j) (hkill : M.storePointer kill = some ptr)
    (hpre : kill.precedes j) (hne : kill ≠ j) : kill.precedes store ∧ store.precedes j := by
  induction h with
  | @edge j hflow =>
    have hlt := hpre.idx_lt hne
    obtain ⟨hf, hb, _⟩ := hpre
    obtain ⟨_, _, hfunc, ⟨hblock, hidx⟩ | ⟨_, hidx⟩⟩ := hflow
    · exact ⟨⟨hf.trans hfunc, hb.trans hblock, by omega⟩, hfunc.symm, hblock.symm, by omega⟩
    · omega
  | @step j k hpath hfree hflow ih =>
    have hlt := hpre.idx_lt hne
    obtain ⟨hf, hb, _⟩ := hpre
    obtain ⟨_, _, hfunc, ⟨hblock, hidx⟩ | ⟨_, hidx⟩⟩ := hflow
    · have hstore (h : store.precedes j) : store.precedes k :=
        ⟨h.1.trans hfunc.symm, h.2.1.trans hblock.symm, by have := h.2.2; omega⟩
      by_cases hkj : kill = j
      · -- the path passes through the kill, so the kill is the store it started from
        subst hkj
        have hself : kill = store := by
          by_contra hne
          exact hfree hne hkill
        subst hself
        exact ⟨⟨rfl, rfl, Nat.le_refl _⟩, hstore ⟨rfl, rfl, Nat.le_refl _⟩⟩
      · have hrec := ih ⟨hf.trans hfunc, hb.trans hblock, by omega⟩ hkj
        exact ⟨hrec.1, hstore hrec.2⟩
    · omega

namespace PassState

variable {M : Module} {cfg : Config} {addr : Value → Nat}

/-! ## Scanned pointers -/

/-- What is known of a load of a scanned pointer: it is tainted, or comes after a kill in its block,
or before the origin in the origin's block. -/
def LoadDecided (M : Module) (s : PassState) (ptr : Value) (load : InstId) : Prop :=
  .inst load ∈ s.taintedValues ∨ s.afterKill M load ptr = true ∨
    s.isLoadBeforeTaintOrigin M load ptr = true

theorem LoadDecided.mono {s t : PassState} {ptr : Value} {load : InstId} (hst : s.Extends t)
    (hptr : ptr ∈ s.taintedPointers) (h : LoadDecided M s ptr load) :
    LoadDecided M t ptr load := by
  rcases h with h | h | h
  · exact .inl (hst.taintedValues _ h)
  · obtain ⟨kill, hkill, hrest⟩ := afterKill_iff.mp h
    exact .inr (.inl (afterKill_iff.mpr ⟨kill, hst.killedStores _ hkill, hrest⟩))
  · refine .inr (.inr ?_)
    rwa [isLoadBeforeTaintOrigin, hst.origin ptr hptr]

/-- Scanned pointers are tainted and the scan has decided all their loads. -/
def ScannedDecided (M : Module) (s : PassState) : Prop :=
  ∀ p ∈ s.scannedPointers, p ∈ s.taintedPointers ∧
    ∀ i ∈ M.insts, loadMatches M p i = true → LoadDecided M s p i

theorem ScannedDecided.mono {s t : PassState} (hst : s.Extends t)
    (hscanned : t.scannedPointers = s.scannedPointers) (h : ScannedDecided M s) :
    ScannedDecided M t := by
  intro p hp
  rw [hscanned] at hp
  obtain ⟨hptr, hall⟩ := h p hp
  exact ⟨hst.taintedPointers p hptr, fun i hi hm => (hall i hi hm).mono hst hptr⟩

/-- A turn ends with every tainted pointer scanned. -/
theorem forwardScan_scanned {s : PassState} (h : ScannedDecided M s) :
    ScannedDecided M (s.forwardScan M addr) ∧
      ∀ p ∈ (s.forwardScan M addr).taintedPointers, p ∈ (s.forwardScan M addr).scannedPointers := by
  have hscan : Rescanned M s (s.forwardScan M addr) := forwardScan_spec s
  have hext := extends_forwardScan M addr s
  refine ⟨fun p hp => ?_, fun p hp => ?_⟩
  · by_cases hold : p ∈ s.scannedPointers
    · obtain ⟨hptr, hall⟩ := h p hold
      exact ⟨hext.taintedPointers p hptr, fun i hi hm => (hall i hi hm).mono hext hptr⟩
    · have hptr := ((hscan.scannedPointers p).mp hp).resolve_left hold
      refine ⟨hext.taintedPointers p hptr, fun i hi hm => ?_⟩
      by_cases hk : (s.forwardScan M addr).afterKill M i p = true
      · exact .inr (.inl hk)
      · by_cases hb : (s.forwardScan M addr).isLoadBeforeTaintOrigin M i p = true
        · exact .inr (.inr hb)
        · exact .inl ((hscan.taintedValues _).mpr
            (.inr ⟨i, p, rfl, hi, hptr, hold, hm, hk, hb⟩))
  · rw [hscan.taintedPointers] at hp
    exact (hscan.scannedPointers p).mpr (.inr hp)

theorem scannedDecided_forwardDrain {fuel : Nat} {s t : PassState} (hs : ScannedDecided M s)
    (h : s.forwardDrain M cfg addr fuel = some t) : ScannedDecided M t := by
  refine (whileLoop_invariant (I := ScannedDecided M) (fun s t hs _ hst => ?_) hs h).1
  cases hst
  unfold forwardPop
  split
  next => exact hs
  next v rest _ =>
    have hpop : ScannedDecided M { s with worklist := rest } := hs
    refine foldl_invariant (I := ScannedDecided M) (fun t u _ ht => ?_) hpop
    exact ht.mono (extends_forwardUser M cfg addr v t u)
      (keepsScans_forwardUser v t u).scannedPointers

theorem forwardRound_scanned {fuel : Nat} {s t : PassState} (hs : ScannedDecided M s)
    (h : s.forwardRound M cfg addr fuel = some t) :
    ScannedDecided M t ∧ ∀ p ∈ t.taintedPointers, p ∈ t.scannedPointers := by
  obtain ⟨u, hu, rfl⟩ := Option.map_eq_some_iff.mp h
  exact forwardScan_scanned (scannedDecided_forwardDrain (s := { s with changed := false }) hs hu)

end PassState

/-- When the forward loop exits, every load of a tainted pointer has been decided. -/
theorem forwardPhase_loads_decided {M : Module} {cfg : Config} {addr : Value → Nat} {fuel : Nat}
    {s : PassState} (h : forwardPhase M cfg addr fuel = some s) :
    ∀ p ∈ s.taintedPointers, ∀ i ∈ M.insts, PassState.loadMatches M p i = true →
      PassState.LoadDecided M s p i := by
  have hseed : PassState.ScannedDecided M { seedWorklist M cfg with changed := true } := by
    intro p hp
    rw [show PassState.scannedPointers { seedWorklist M cfg with changed := true } = ∅ from
      (keepsScans_seedWorklist M cfg).scannedPointers] at hp
    exact absurd hp (DenseSet.not_mem_empty p)
  obtain ⟨⟨hscan, hall⟩, hcond⟩ := whileLoop_invariant
    (I := fun s => PassState.ScannedDecided M s ∧
      (s.changed = true ∨ ∀ p ∈ s.taintedPointers, p ∈ s.scannedPointers))
    (fun s t hs _ hst => (PassState.forwardRound_scanned hs.1 hst).imp_right .inr)
    ⟨hseed, .inl rfl⟩ h
  intro p hp
  exact (hscan p (hall.resolve_left (by rw [hcond]; decide) p hp)).2

/-- **Memory taint.**  A load that a tainted store reaches along a path without another store to the
pointer is tainted, except where the same-block tests of the scan say otherwise. -/
theorem forwardPhase_store_reaches_load (M : Module) (cfg : Config) (addr : Value → Nat)
    (fuel : Nat) (s : PassState) (h : forwardPhase M cfg addr fuel = some s) (store load : InstId)
    (value ptr q : Value) (hstore : M.kind store = .store value ptr)
    (hvalue : value ∈ s.taintedValues) (hmem : store ∈ M.insts)
    (hglobal : (M.stripPointerCasts ptr).isGlobalVariable = false)
    (hparam : M.getPointerParameterOrigin ptr = none) (hload : M.kind load = .load q)
    (hq : M.stripPointerCasts q = M.stripPointerCasts ptr)
    (hpath : KillFree M (M.stripPointerCasts ptr) store load) :
    .inst load ∈ s.taintedValues ∨
      (∃ origin, s.pointerTaintOrigin.lookup (M.stripPointerCasts ptr) = some origin ∧
        load.precedes origin) ∨
      ∃ kill ∈ s.killedStores, M.storePointer kill = some (M.stripPointerCasts ptr) ∧
        kill.precedes store ∧ store.precedes load := by
  have hrec := (forwardPhase_processed h).2 value hvalue store (Module.mem_users.mpr ⟨hmem, by
    rw [Module.operands, hstore]; exact List.mem_cons_self⟩)
  have htainted := hrec.pointer ptr hstore hglobal hparam
  have hmatch : PassState.loadMatches M (M.stripPointerCasts ptr) load = true := by
    simp only [PassState.loadMatches, hload, hq, beq_self_eq_true, Bool.true_or]
  rcases forwardPhase_loads_decided h _ htainted load hpath.mem_insts hmatch with ht | hk | hb
  · exact .inl ht
  · obtain ⟨kill, hkill, hptr, _, _, hpre⟩ := PassState.afterKill_iff.mp hk
    refine .inr (.inr ⟨kill, hkill, hptr, hpath.precedes hptr hpre ?_⟩)
    intro heq
    rw [heq, Module.storePointer, hload] at hptr
    cases hptr
  · exact .inr (.inl (PassState.precedes_of_isLoadBeforeTaintOrigin hb))

/-- A loop that reads a local variable, stores the tainted sum to it and reads it again. -/
def loopModule : Module :=
  .ofFunctions [{
    name := "f".toList
    argIsPointerTy := []
    blocks := [
      [{ kind := .alloca false (.constantInt 32 1) },
        { kind := .other "br".toList [] [1] }],
      [{ kind := .load (.inst ⟨0, 0, 0⟩) },
        { kind := .other "add".toList [.constantInt 32 5, .constant 0] [] },
        { kind := .store (.inst ⟨0, 1, 1⟩) (.inst ⟨0, 0, 0⟩) },
        { kind := .load (.inst ⟨0, 0, 0⟩) },
        { kind := .other "br".toList [] [1] }]] }] id

theorem forwardPhase_loopModule :
    ∃ s, forwardPhase loopModule recursiveConfig Value.slot 5 = some s ∧
      .inst ⟨0, 1, 1⟩ ∈ s.taintedValues ∧ .inst ⟨0, 1, 0⟩ ∉ s.taintedValues ∧
      s.pointerTaintOrigin.lookup (.inst ⟨0, 0, 0⟩) = some ⟨0, 1, 2⟩ ∧
      s.killedStores.elems = [] := by
  have h : (forwardPhase loopModule recursiveConfig Value.slot 5).map (fun s =>
      (decide (.inst ⟨0, 1, 1⟩ ∈ s.taintedValues), decide (.inst ⟨0, 1, 0⟩ ∈ s.taintedValues),
        s.pointerTaintOrigin.lookup (.inst ⟨0, 0, 0⟩), s.killedStores.elems)) =
      some (true, false, some ⟨0, 1, 2⟩, []) := by decide
  obtain ⟨s, hs, hval⟩ := Option.map_eq_some_iff.mp h
  simp only [Prod.mk.injEq, decide_eq_true_eq, decide_eq_false_iff_not] at hval
  exact ⟨s, hs, hval⟩

theorem forwardPhase_store_reaches_load_loopModule :
    ∃ s, forwardPhase loopModule recursiveConfig Value.slot 5 = some s ∧
      .inst ⟨0, 1, 3⟩ ∈ s.taintedValues := by
  obtain ⟨s, hs, ht, _, horigin, hkills⟩ := forwardPhase_loopModule
  refine ⟨s, hs, ?_⟩
  have hpath : KillFree loopModule (.inst ⟨0, 0, 0⟩) ⟨0, 1, 2⟩ ⟨0, 1, 3⟩ :=
    .edge ⟨by decide, by decide, rfl, .inl ⟨rfl, rfl⟩⟩
  rcases forwardPhase_store_reaches_load loopModule recursiveConfig _ 5 s hs ⟨0, 1, 2⟩ ⟨0, 1, 3⟩
    (.inst ⟨0, 1, 1⟩) (.inst ⟨0, 0, 0⟩) (.inst ⟨0, 0, 0⟩) rfl ht (by decide) rfl (by decide) rfl rfl
    hpath with h | ⟨origin, ho, hpre⟩ | ⟨kill, hk, _⟩
  · exact h
  · cases horigin.symm.trans ho
    exact absurd hpre (by decide)
  · rw [DenseSet.mem_def, hkills] at hk
    cases hk

/-- The store reaches the load at the head of the loop over the back edge; the load comes before the
origin in their block and is skipped. -/
theorem forwardPhase_misses_backEdge :
    ¬ ∀ (M : Module) (cfg : Config) (addr : Value → Nat) (fuel : Nat) (s : PassState),
      cfg.interprocMode = false → cfg.indirectCallMode = false →
      forwardPhase M cfg addr fuel = some s →
      ∀ store ∈ M.insts, ∀ value ptr, M.kind store = .store value ptr → value ∈ s.taintedValues →
      (M.stripPointerCasts ptr).isGlobalVariable = false →
      M.getPointerParameterOrigin ptr = none →
      ∀ load q, M.kind load = .load q → M.stripPointerCasts q = M.stripPointerCasts ptr →
      KillFree M (M.stripPointerCasts ptr) store load → .inst load ∈ s.taintedValues := by
  intro hall
  obtain ⟨s, hs, ht, hmiss, _⟩ := forwardPhase_loopModule
  have hpath : KillFree loopModule (.inst ⟨0, 0, 0⟩) ⟨0, 1, 2⟩ ⟨0, 1, 0⟩ := by
    have h₁ : KillFree loopModule (.inst ⟨0, 0, 0⟩) ⟨0, 1, 2⟩ ⟨0, 1, 3⟩ :=
      .edge ⟨by decide, by decide, rfl, .inl ⟨rfl, rfl⟩⟩
    have h₂ : KillFree loopModule (.inst ⟨0, 0, 0⟩) ⟨0, 1, 2⟩ ⟨0, 1, 4⟩ :=
      h₁.step (fun _ => by decide) ⟨by decide, by decide, rfl, .inl ⟨rfl, rfl⟩⟩
    exact h₂.step (fun _ => by decide) ⟨by decide, by decide, rfl, .inr ⟨by decide, rfl⟩⟩
  exact hmiss (hall loopModule recursiveConfig _ 5 s rfl rfl hs ⟨0, 1, 2⟩ (by decide) _ _ rfl ht rfl
    (by decide) ⟨0, 1, 0⟩ _ rfl rfl hpath)

/-- The pointer is tainted, overwritten and tainted again before the load. -/
def retaintModule : Module :=
  .ofFunctions [{
    name := "f".toList
    argIsPointerTy := []
    blocks := [[
      { kind := .alloca false (.constantInt 32 1) },
      { kind := .other "add".toList [.constantInt 32 5, .constant 0] [] },
      { kind := .store (.inst ⟨0, 0, 1⟩) (.inst ⟨0, 0, 0⟩) },
      { kind := .store (.constant 0) (.inst ⟨0, 0, 0⟩) },
      { kind := .store (.inst ⟨0, 0, 1⟩) (.inst ⟨0, 0, 0⟩) },
      { kind := .load (.inst ⟨0, 0, 0⟩) },
      { kind := .ret none }]] }] id

/-- The last store leads straight to the load, yet the kill before it hides the load: the exception
for kills is needed too. -/
theorem forwardPhase_misses_retaint :
    KillFree retaintModule (.inst ⟨0, 0, 0⟩) ⟨0, 0, 4⟩ ⟨0, 0, 5⟩ ∧
    (forwardPhase retaintModule recursiveConfig Value.slot 5).map (fun s =>
      (decide (.inst ⟨0, 0, 1⟩ ∈ s.taintedValues), decide (.inst ⟨0, 0, 5⟩ ∈ s.taintedValues),
        s.killedStores.elems)) = some (true, false, [⟨0, 0, 3⟩]) :=
  ⟨.edge ⟨by decide, by decide, rfl, .inl ⟨rfl, rfl⟩⟩, by decide⟩

end LinuxAnalysis
