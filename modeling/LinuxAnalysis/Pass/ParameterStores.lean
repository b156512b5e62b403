import LinuxAnalysis.IR.OriginSearch
import LinuxAnalysis.Pass.UpwardStores

/-!
# Stores through pointer parameters

The three places that look at a store as a destination, and what they put on record: the one
parameter that `getPointerParameterOrigin` answers with, although several may be reached from the
pointer operand.
-/

open LinuxAnalysis.Lib

namespace LinuxAnalysis

/-- The next step from a point looks at a store through `ptr` as a destination: a seed store, a store
of the value taken from the forward worklist, or one that the upward worklist taints. -/
inductive ProcessesStore (M : Module) (cfg : Config) : Point → InstId → Value → Prop where
  | seed {i op rest n found s v ptr} : .inst i ∉ s.taintedValues →
      .inst i ∈ (seedOperand M cfg i ⟨s, n, found⟩ op).pass.taintedValues →
      M.kind i = .store v ptr →
      ProcessesStore M cfg ⟨.seeding ((i, op) :: rest) n found, s⟩ i ptr
  | forward {v u rest s ptr} : M.kind u = .store v ptr →
      ProcessesStore M cfg ⟨.forwardUsers v (u :: rest), s⟩ u ptr
  | upward {old v u rest s ptr} : M.kind u = .store v ptr → .inst u ∉ s.taintedValues →
      ProcessesStore M cfg ⟨.upwardUsers old v (u :: rest), s⟩ u ptr

namespace Module

variable {M : Module}

/-- No step of the search leads from a global variable. -/
theorem not_originReaches_of_isGlobalVariable {v : Value} {a : ArgId}
    (hglobal : (M.stripPointerCasts v).isGlobalVariable = true) : ¬ M.OriginReaches v a := by
  rintro ⟨w, hvw, hat⟩
  rcases Relation.ReflTransGen.cases_head hvw with rfl | ⟨x, hstep, _⟩
  · cases hat with
    | param hstrip | stored hstrip => rw [hstrip] at hglobal; cases hglobal
  · cases hstep with
    | phi hstrip | base hstrip | load hstrip | stored hstrip => rw [hstrip] at hglobal; cases hglobal

theorem isGlobalVariable_of_origin {v : Value} {a : ArgId}
    (h : M.getPointerParameterOrigin v = some a) :
    (M.stripPointerCasts v).isGlobalVariable = false := by
  by_contra hglobal
  rw [Bool.not_eq_false] at hglobal
  exact not_originReaches_of_isGlobalVariable hglobal ((getPointerParameterOrigin_spec v).1 a h)

end Module

namespace PassState

variable {M : Module} {cfg : Config} {addr : Value → Nat}

/-- An operand is passed over, or its instruction is taken as a seed. -/
theorem seedOperand_pass (M : Module) (cfg : Config) (i : InstId) (s : SeedState) (op : Value) :
    (seedOperand M cfg i s op).pass = s.pass ∨
      (seedOperand M cfg i s op).pass = s.pass.seedInst M cfg i op := by
  unfold seedOperand
  split
  · exact .inl rfl
  · split
    · split
      · dsimp only
        split
        · exact .inl rfl
        · exact .inr rfl
      · exact .inl rfl
    · exact .inl rfl

/-- What a selected seed store does to the state. -/
theorem seedOperand_store {i : InstId} {op value ptr : Value} {s : SeedState}
    (hnew : .inst i ∉ s.pass.taintedValues)
    (hselected : .inst i ∈ (seedOperand M cfg i s op).pass.taintedValues)
    (hkind : M.kind i = .store value ptr) {a : ArgId}
    (horigin : M.getPointerParameterOrigin ptr = some a) :
    ∃ u : PassState, u.functionParamFieldAccess = s.pass.functionParamFieldAccess ∧
      (seedOperand M cfg i s op).pass = u.recordParameterStore M i a ptr := by
  have hglobal := Module.isGlobalVariable_of_origin horigin
  rcases seedOperand_pass M cfg i s op with hsame | hseed
  · rw [hsame] at hselected
    exact absurd hselected hnew
  · rw [hseed, seedInst, if_neg hnew]
    simp only [seedCall, seedStore, seedReturn, hkind, hglobal, Bool.false_eq_true, if_false, horigin]
    exact ⟨((s.pass.taintValue (.inst i)).setFunctionLevel i.func 0).setValueLevel (.inst i) 0,
      rfl, rfl⟩

/-- A forward visit to a store of `v` through a parameter only records the parameter. -/
theorem forwardUser_store {v ptr : Value} {u : InstId} {s : PassState} {a : ArgId}
    (hkind : M.kind u = .store v ptr) (horigin : M.getPointerParameterOrigin ptr = some a) :
    s.forwardUser M cfg addr v u = s.addTaintingPointerParam u.func a.no := by
  have hglobal := Module.isGlobalVariable_of_origin horigin
  simp only [forwardUser, forwardCall, hkind, if_true, hglobal, Bool.false_eq_true, if_false, horigin]

end PassState

namespace Point

variable {M : Module} {cfg : Config} {addr : Value → Nat}

/-- The step records the parameter that the search answers with. -/
theorem step_of_processesStore (addr : Value → Nat) {m : Point} {store : InstId} {ptr : Value}
    {a : ArgId} (h : ProcessesStore M cfg m store ptr)
    (horigin : M.getPointerParameterOrigin ptr = some a) :
    ∃ m', step M cfg addr m = some m' ∧ m'.state.TaintsParam store.func a.no := by
  have hadded {s : PassState} : (s.addTaintingPointerParam store.func a.no).TaintsParam store.func a.no :=
    PassState.taintsParam_addTaintingPointerParam.mpr (.inl ⟨rfl, rfl⟩)
  cases h with
  | @seed i op rest n found s value ptr hnew hselected hkind =>
    refine ⟨_, rfl, ?_⟩
    obtain ⟨u, _, heq⟩ := PassState.seedOperand_store (s := ⟨s, n, found⟩) hnew hselected hkind horigin
    show (seedOperand M cfg store ⟨s, n, found⟩ op).pass.TaintsParam store.func a.no
    rw [heq]
    exact (PassState.extends_recordFieldAccess _ _ _ _).taintsParam _ _ hadded
  | @forward v u rest s ptr hkind =>
    refine ⟨_, rfl, ?_⟩
    show (s.forwardUser M cfg addr v store).TaintsParam store.func a.no
    rw [PassState.forwardUser_store hkind horigin]
    exact hadded
  | upward hkind hnew =>
    exact ⟨_, rfl, (PassState.storeRecorded_upwardUser hnew _ hkind).2 a horigin⟩

end Point

/-- **Written parameters.**  When pointer parameters are reached from the pointer operand of a store
looked at as a destination, one of them is recorded for good: the one the search answers with. -/
theorem run_records_origin (M : Module) (cfg : Config) (addr : Value → Nat) (fuel : Nat)
    (t : PassState) (h : run M cfg addr fuel = some t) (m : Point) (hm : Reachable M cfg addr m)
    (store : InstId) (ptr : Value) (hstore : ProcessesStore M cfg m store ptr)
    (hreached : ∃ a, M.OriginReaches ptr a) :
    ∃ a, M.getPointerParameterOrigin ptr = some a ∧ M.OriginReaches ptr a ∧
      t.TaintsParam store.func a.no := by
  obtain ⟨hsound, hcomplete⟩ := Module.getPointerParameterOrigin_spec (M := M) ptr
  cases horigin : M.getPointerParameterOrigin ptr with
  | none =>
    obtain ⟨a, ha⟩ := hreached
    exact absurd ha (hcomplete horigin a)
  | some a =>
    obtain ⟨m', hstep, hparam⟩ := Point.step_of_processesStore addr hstore horigin
    have hm' : Reachable M cfg addr m' := hm.trans (.single hstep)
    exact ⟨a, rfl, hsound a horigin,
      Point.taintsParam_of_reaches hm' (Point.reaches_finished hm' h) hparam⟩

/-- The pointer written to is one of two parameters. -/
def mergedModule : Module :=
  .ofFunctions [{
    name := "g".toList
    argIsPointerTy := [true, true]
    blocks := [
      [{ kind := .other "br".toList [.constant 0] [1, 2] }],
      [{ kind := .other "br".toList [] [3] }],
      [{ kind := .other "br".toList [] [3] }],
      [{ kind := .phi [.arg ⟨0, 0⟩, .arg ⟨0, 1⟩], resultIsPointerTy := true },
        { kind := .store (.constantInt 32 5) (.inst ⟨0, 3, 0⟩) },
        { kind := .ret none }]] }] id

theorem mergedModule_reaches : mergedModule.OriginReaches (.inst ⟨0, 3, 0⟩) ⟨0, 1⟩ :=
  ⟨.arg ⟨0, 1⟩, .single (.phi rfl rfl (by decide)), .param rfl rfl⟩

theorem mergedModule_processes :
    ProcessesStore mergedModule passThroughConfig (initialPoint mergedModule passThroughConfig)
      ⟨0, 3, 1⟩ (.inst ⟨0, 3, 0⟩) :=
  .seed (v := .constantInt 32 5) (by decide) (by decide) rfl

theorem run_mergedModule :
    ∃ t, run mergedModule passThroughConfig Value.slot 6 = some t ∧ ¬ t.TaintsParam 0 1 := by
  have h : (run mergedModule passThroughConfig Value.slot 6).map
      (fun t => decide (t.TaintsParam 0 1)) = some false := by decide
  obtain ⟨t, ht, hval⟩ := Option.map_eq_some_iff.mp h
  exact ⟨t, ht, of_decide_eq_false hval⟩

theorem run_records_origin_mergedModule :
    ∃ t a, run mergedModule passThroughConfig Value.slot 6 = some t ∧
      mergedModule.OriginReaches (.inst ⟨0, 3, 0⟩) a ∧ t.TaintsParam 0 a.no := by
  obtain ⟨t, ht, _⟩ := run_mergedModule
  obtain ⟨a, _, hreaches, hparam⟩ := run_records_origin mergedModule passThroughConfig _ 6 t ht _
    (.refl _) _ _ mergedModule_processes ⟨_, mergedModule_reaches⟩
  exact ⟨t, a, ht, hreaches, hparam⟩

/-- The second incoming value of the PHI is not recorded. -/
theorem run_misses_second_parameter :
    ¬ ∀ (M : Module) (cfg : Config) (addr : Value → Nat) (fuel : Nat) (t : PassState),
      run M cfg addr fuel = some t → ∀ m, Reachable M cfg addr m → ∀ store ptr,
      ProcessesStore M cfg m store ptr → ∀ a : ArgId, a.func = store.func →
      M.OriginReaches ptr a → t.TaintsParam store.func a.no := by
  intro hall
  obtain ⟨t, ht, hmissing⟩ := run_mergedModule
  exact hmissing (hall mergedModule passThroughConfig _ 6 t ht _ (.refl _) _ _ mergedModule_processes
    ⟨0, 1⟩ rfl mergedModule_reaches)

end LinuxAnalysis
