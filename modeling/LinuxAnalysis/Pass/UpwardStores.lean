import LinuxAnalysis.Pass.LevelCoverage
import LinuxAnalysis.Pass.UpwardWorklist

/-!
# Stores in the upward phase

The upward worklist looks at a store as a destination only when it taints it.  A store tainted
through its pointer operand first is skipped when the value operand comes up, so what the forward
worklist would record there is left out.
-/

open LinuxAnalysis.Lib

namespace LinuxAnalysis

namespace PassState

variable {M : Module} {cfg : Config} {addr : Value → Nat}

/-- A store of `v`, if `i` is one, has its destination on record. -/
def StoreRecorded (M : Module) (v : Value) (i : InstId) (s : PassState) : Prop :=
  ∀ ptr, M.kind i = .store v ptr → M.stripPointerCasts ptr ∈ s.taintedPointers ∧
    ∀ a, M.getPointerParameterOrigin ptr = some a → s.TaintsParam i.func a.no

theorem StoreRecorded.mono {v : Value} {i : InstId} {s t : PassState}
    (hs : StoreRecorded M v i s) (h : s.Extends t) : StoreRecorded M v i t := by
  intro ptr hkind
  obtain ⟨hptr, hparam⟩ := hs ptr hkind
  exact ⟨h.taintedPointers _ hptr, fun a ha => h.taintsParam _ _ (hparam a ha)⟩

theorem storeRecorded_processStoreForTaint (v : Value) (i : InstId) (s : PassState) :
    StoreRecorded M v i (s.processStoreForTaint M i v) := by
  intro ptr hkind
  have hptr : M.stripPointerCasts ptr ∈
      (s.taintPointer (M.stripPointerCasts ptr) i).taintedPointers :=
    mem_taintPointer.mpr (.inl rfl)
  simp only [processStoreForTaint, hkind, ne_eq, not_true_eq_false, if_false]
  split
  next a horigin =>
    have hfields := extends_recordFieldAccess i.func a.no (M.extractStructFieldIndices ptr)
      ((s.taintPointer (M.stripPointerCasts ptr) i).discoverTaintingPointerParam i.func a.no)
    refine ⟨hfields.taintedPointers _ hptr, fun b hb => ?_⟩
    rw [horigin] at hb
    cases hb
    exact hfields.taintsParam _ _ (taintsParam_addTaintingPointerParam.mpr (.inl ⟨rfl, rfl⟩))
  next hnone =>
    refine ⟨hptr, fun b hb => ?_⟩
    rw [hnone] at hb
    cases hb

theorem extends_upwardReturn (v : Value) (user : InstId) (s : PassState) :
    s.Extends (s.upwardReturn M v user) := by
  unfold upwardReturn
  split
  · split
    · exact (extends_addFunctionReturningTaint _ s).trans (extends_discovered _ _)
    · exact .refl s
  · exact .refl s

/-- A visit that taints the store records its destination. -/
theorem storeRecorded_upwardUser {v : Value} {i : InstId} {s : PassState}
    (h : .inst i ∉ s.taintedValues) : StoreRecorded M v i (s.upwardUser M v i) := by
  rw [upwardUser, if_neg h]
  exact (storeRecorded_processStoreForTaint v i _).mono (extends_upwardReturn v i _)

end PassState

/-- The user at which the upward worklist is. -/
def Control.upwardVisit : Control → Option InstId
  | .upwardUsers _ _ (u :: _) => some u
  | _ => none

/-- Whenever the upward worklist visits a store of the value it took, the store is untainted or its
destination is on record. -/
def UpwardVisitsRecord (M : Module) (cfg : Config) (addr : Value → Nat) : Prop :=
  ∀ old v u rest s, Reachable M cfg addr ⟨.upwardUsers old v (u :: rest), s⟩ →
    .inst u ∈ s.taintedValues → PassState.StoreRecorded M v u s

namespace Point

variable {M : Module} {cfg : Config} {addr : Value → Nat}

/-- Every value tainted since `before` is queued or the stores of it visited so far are recorded. -/
structure StoresSettled (M : Module) (before : DenseSet Value) (m : Point) : Prop where
  stores : ∀ v ∈ m.state.taintedValues, v ∈ before ∨ v ∈ m.state.worklist ∨
    ∀ u ∈ M.users v, u ∈ m.control.upwardUnvisited v ∨ PassState.StoreRecorded M v u m.state
  empty : m.control.betweenTurns = true → m.state.worklist = []

theorem StoresSettled.step {before : DenseSet Value} {m m' : Point}
    (hvisits : UpwardVisitsRecord M cfg addr) (hreach : Reachable M cfg addr m)
    (hphase : m.control.upward = true) (h : m.StoresSettled M before)
    (hstep : LinuxAnalysis.step M cfg addr m = some m') : m'.StoresSettled M before := by
  have hdone : m.DoneSince M before (PassState.StoreRecorded M) := ⟨h.stores, h.empty⟩
  have hnext := hdone.step (fun v u s t hext hrecorded => hrecorded.mono hext)
    (fun v u s t hbook hrecorded ptr hkind => ?_) (fun old v u rest s hvisit => ?_) hreach hphase
    hstep
  · exact ⟨hnext.users, hnext.empty⟩
  · obtain ⟨hptr, hparam⟩ := hrecorded ptr hkind
    refine ⟨hbook.taintedPointers ▸ hptr, fun a ha => ?_⟩
    rw [PassState.TaintsParam, hbook.functionsTaintingPointerParams]
    exact hparam a ha
  · have hupdates := PassState.extends_of_steps (fun _ _ => PassState.UpwardStep.extends)
      (PassState.upwardUser_steps (M := M) (valid_of_reachable hvisit).pending.1
        ((valid_of_reachable hvisit).pending.2 u List.mem_cons_self))
    by_cases htainted : .inst u ∈ s.taintedValues
    · exact (hvisits old v u rest s hvisit htainted).mono hupdates
    · exact PassState.storeRecorded_upwardUser htainted

end Point

/-- **Upward store closure.**  When no visit of the upward worklist to a store of the value it took
finds the store tainted with its destination missing, the stores of all values tainted in the upward
phase have their destinations on record at the end. -/
theorem run_upward_stores (M : Module) (cfg : Config) (addr : Value → Nat) (fuel : Nat)
    (s t : PassState) (hs : forwardPhase M cfg addr fuel = some s)
    (ht : run M cfg addr fuel = some t) (hvisits : UpwardVisitsRecord M cfg addr) :
    ∀ i ∈ M.insts, ∀ value ptr, M.kind i = .store value ptr → value ∉ s.taintedValues →
      value ∈ t.taintedValues → M.stripPointerCasts ptr ∈ t.taintedPointers ∧
        ∀ a, M.getPointerParameterOrigin ptr = some a → t.TaintsParam i.func a.no := by
  have hentry := forwardPhase_reaches hs
  have hstart : (⟨.upwardEntry, s⟩ : Point).StoresSettled M s.taintedValues :=
    ⟨fun v hv => .inl hv, fun _ => (forwardPhase_processed hs).1⟩
  have hinv := (Point.reaches_finished hentry ht).invariant
    (I := fun m => Reachable M cfg addr m ∧ m.control.upward = true ∧
      m.StoresSettled M s.taintedValues) (fun m m' hm hstep => ?_) ⟨hentry, rfl, hstart⟩
  · obtain ⟨_, _, hsettled⟩ := hinv
    intro i hi value ptr hkind hnew htainted
    have huser : i ∈ M.users value := by
      rw [Module.mem_users, Module.operands, hkind]
      exact ⟨hi, List.mem_cons_self⟩
    rcases hsettled.stores value htainted with hbefore | hqueued | hvisited
    · exact absurd hbefore hnew
    · rw [hsettled.empty rfl] at hqueued
      exact absurd hqueued List.not_mem_nil
    · exact (hvisited i huser).resolve_left List.not_mem_nil ptr hkind
  · have hspec := Point.step_spec (Point.valid_of_reachable hm.1) hstep
    exact ⟨hm.1.trans (.single hstep), (hspec.upward hm.2.1).1,
      hm.2.2.step hvisits hm.1 hm.2.1 hstep⟩

/-- The caller stores what it was returned through a global variable. -/
theorem run_upward_stores_sharedGlobal :
    ∃ t, run sharedGlobalModule recursiveConfig Value.slot 6 = some t ∧
      .globalVariable 0 ∈ t.taintedPointers := by
  have hends : ((forwardPhase sharedGlobalModule recursiveConfig Value.slot 6).map fun s =>
      decide (.inst ⟨1, 0, 0⟩ ∉ s.taintedValues)) = some true ∧
      ((run sharedGlobalModule recursiveConfig Value.slot 6).map fun t =>
        decide (.inst ⟨1, 0, 0⟩ ∈ t.taintedValues)) = some true := by decide
  obtain ⟨s, hs, hnew⟩ := Option.map_eq_some_iff.mp hends.1
  obtain ⟨t, ht, htainted⟩ := Option.map_eq_some_iff.mp hends.2
  have hcheck : Reaches.checkAll (step sharedGlobalModule recursiveConfig Value.slot)
      (fun m => m.control.upwardVisit.all fun u => decide (.inst u ∉ m.state.taintedValues)) 80
      (initialPoint sharedGlobalModule recursiveConfig) = true := by decide
  have hvisits : UpwardVisitsRecord sharedGlobalModule recursiveConfig Value.slot := by
    intro old v u rest s hreach htainted
    have hu := Reaches.of_checkAll hcheck hreach
    exact absurd htainted (of_decide_eq_true hu)
  exact ⟨t, ht, (run_upward_stores _ _ _ 6 s t hs ht hvisits ⟨1, 0, 1⟩ (by decide)
    (.inst ⟨1, 0, 0⟩) (.globalVariable 0) rfl (of_decide_eq_true hnew)
    (of_decide_eq_true htainted)).1⟩

/-- The caller stores a number computed from the pointer it was returned through that pointer: the
store uses the pointer before the number is taken from the worklist. -/
def storeThroughModule : Module :=
  .ofFunctions [
    { name := "f".toList
      argIsPointerTy := []
      blocks := [[
        { kind := .getElementPtr 8 (.globalVariable 0) [.constantInt 64 5]
          resultIsPointerTy := true },
        { kind := .ret (some (.inst ⟨0, 0, 0⟩)) }]] },
    { name := "g".toList
      argIsPointerTy := []
      blocks := [[
        { kind := .call (.function 0) true [] [], resultIsPointerTy := true },
        { kind := .other "ptrtoint".toList [.inst ⟨1, 0, 0⟩] [] },
        { kind := .store (.inst ⟨1, 0, 1⟩) (.inst ⟨1, 0, 0⟩) },
        { kind := .ret none }]] }] id

def storeThroughConfig : Config :=
  { recursiveConfig with targetOpcode := "getelementptr".toList }

theorem run_not_upward_stores :
    ¬ ∀ (M : Module) (cfg : Config) (addr : Value → Nat) (fuel : Nat) (s t : PassState),
      cfg.upwardInterprocMode = true → forwardPhase M cfg addr fuel = some s →
      run M cfg addr fuel = some t → ∀ i ∈ M.insts, ∀ value ptr, M.kind i = .store value ptr →
      value ∉ s.taintedValues → value ∈ t.taintedValues →
      M.stripPointerCasts ptr ∈ t.taintedPointers ∧
        ∀ a, M.getPointerParameterOrigin ptr = some a → t.TaintsParam i.func a.no := by
  intro hall
  have hends : ((forwardPhase storeThroughModule storeThroughConfig Value.slot 6).map fun s =>
      decide (.inst ⟨1, 0, 1⟩ ∉ s.taintedValues)) = some true ∧
      ((run storeThroughModule storeThroughConfig Value.slot 6).map fun t =>
        decide (.inst ⟨1, 0, 1⟩ ∈ t.taintedValues ∧ .inst ⟨1, 0, 0⟩ ∉ t.taintedPointers)) =
        some true := by decide
  obtain ⟨s, hs, hnew⟩ := Option.map_eq_some_iff.mp hends.1
  obtain ⟨t, ht, hval⟩ := Option.map_eq_some_iff.mp hends.2
  obtain ⟨htainted, hmissing⟩ := of_decide_eq_true hval
  exact hmissing (hall storeThroughModule storeThroughConfig _ 6 s t rfl hs ht ⟨1, 0, 2⟩ (by decide)
    (.inst ⟨1, 0, 1⟩) (.inst ⟨1, 0, 0⟩) rfl (of_decide_eq_true hnew) htainted).1

end LinuxAnalysis
