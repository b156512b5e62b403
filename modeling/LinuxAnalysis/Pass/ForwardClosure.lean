import LinuxAnalysis.Pass.SpanCoverage

/-!
# Def-use closure of the forward phase

A value in `TaintedValues` is on the worklist or each of its uses is on record.  Visiting the users
of the popped value records them, growth keeps them recorded, and the loop exits with an empty
worklist.
-/

open LinuxAnalysis.Lib

namespace LinuxAnalysis

namespace PassState

variable {M : Module} {cfg : Config} {addr : Value → Nat}

/-- What the state holds about user `u` of the tainted value `v` once it has been visited. -/
structure UseRecorded (M : Module) (s : PassState) (v : Value) (u : InstId) : Prop where
  user : .inst u ∈ s.taintedValues ∨
    (M.kind u = .ret (some v) ∧ u.func ∈ s.functionsReturningTaint) ∨
    (∃ ptr, M.kind u = .store v ptr ∧ (M.stripPointerCasts ptr).isGlobalVariable = true) ∨
    (∃ ptr a, M.kind u = .store v ptr ∧ M.getPointerParameterOrigin ptr = some a ∧
      s.TaintsParam u.func a.no)
  pointer : ∀ ptr, M.kind u = .store v ptr → (M.stripPointerCasts ptr).isGlobalVariable = false →
    M.getPointerParameterOrigin ptr = none → M.stripPointerCasts ptr ∈ s.taintedPointers

theorem UseRecorded.mono {s t : PassState} {v : Value} {u : InstId} (hst : s.Extends t)
    (h : UseRecorded M s v u) : UseRecorded M t v u where
  user := by
    rcases h.user with hu | ⟨hr, hf⟩ | hg | ⟨ptr, a, hs, ho, hp⟩
    · exact .inl (hst.taintedValues _ hu)
    · exact .inr (.inl ⟨hr, hst.functionsReturningTaint _ hf⟩)
    · exact .inr (.inr (.inl hg))
    · exact .inr (.inr (.inr ⟨ptr, a, hs, ho, hst.taintsParam _ _ hp⟩))
  pointer ptr hs hg ho := hst.taintedPointers _ (h.pointer ptr hs hg ho)

theorem mem_propagate (v : Value) (user : InstId) (s : PassState) :
    .inst user ∈ (s.propagate v user).taintedValues := by
  unfold propagate
  split
  next h => exact h
  next => exact DenseSet.mem_insert.mpr (.inl rfl)

/-- A use that is not a store of the value is recorded as soon as the user is tainted. -/
theorem UseRecorded.of_propagate {s : PassState} {v : Value} {u : InstId}
    (hstore : ∀ ptr, M.kind u ≠ .store v ptr) : UseRecorded M (s.propagate v u) v u where
  user := .inl (mem_propagate v u s)
  pointer ptr hs := absurd hs (hstore ptr)

theorem mem_forwardLocalStore (store : InstId) (ptr : Value) (s : PassState) :
    ptr ∈ (s.forwardLocalStore store ptr).taintedPointers := by
  unfold forwardLocalStore
  split
  next h => exact h
  next => exact mem_taintPointer.mpr (.inl rfl)

theorem forwardUser_records (v : Value) (s : PassState) (u : InstId) :
    UseRecorded M (s.forwardUser M cfg addr v u) v u := by
  unfold forwardUser
  dsimp only
  split
  · rename_i value hkind
    split
    · rename_i hv
      subst hv
      -- the visit ends here without tainting the return itself
      exact ⟨.inr (.inl ⟨hkind, DenseSet.mem_insert.mpr (.inl rfl)⟩), fun ptr h => by
        rw [hkind] at h; cases h⟩
    · exact .of_propagate fun ptr h => by rw [hkind] at h; cases h
  · rename_i value ptr hkind
    split
    · rename_i hv
      subst hv
      have hptr (p : Value) (h : M.kind u = .store value p) : p = ptr := by
        rw [hkind] at h
        exact (InstKind.store.inj h).2.symm
      split
      · rename_i hglobal
        refine ⟨.inr (.inr (.inl ⟨ptr, hkind, hglobal⟩)), fun p h hg => ?_⟩
        rw [hptr p h, hglobal] at hg
        cases hg
      · split
        · rename_i a horigin
          refine ⟨.inr (.inr (.inr ⟨ptr, a, hkind, horigin, ?_⟩)), fun p h _ ho => ?_⟩
          · exact taintsParam_addTaintingPointerParam.mpr (.inl ⟨rfl, rfl⟩)
          · rw [hptr p h, horigin] at ho
            cases ho
        · refine ⟨.inl (mem_propagate _ _ _), fun p h _ _ => ?_⟩
          rw [hptr p h]
          exact (extends_propagate _ _ _).taintedPointers _ (mem_forwardLocalStore u _ _)
    · rename_i hv
      refine .of_propagate fun p h => ?_
      rw [hkind] at h
      exact hv (InstKind.store.inj h).1
  · rename_i hret hstore
    exact .of_propagate fun ptr h => hstore _ _ h

/-! ## The worklist -/

/-- Every tainted value is queued or has all its uses on record. -/
def Processed (M : Module) (s : PassState) : Prop :=
  ∀ v ∈ s.taintedValues, v ∈ s.worklist ∨ ∀ u ∈ M.users v, UseRecorded M s v u

theorem Processed.mono {s t : PassState} (hst : s.Extends t) (h : Processed M s) :
    Processed M t := by
  intro v hv
  rcases hst.queued v hv with hv | hv
  · exact (h v hv).imp (hst.worklist v) fun hu u hm => (hu u hm).mono hst
  · exact .inl hv

theorem processed_forwardPop {s : PassState} (h : Processed M s) :
    Processed M (s.forwardPop M cfg addr) := by
  unfold forwardPop
  split
  next => exact h
  next v rest hwl =>
    have hext : PassState.Extends { s with worklist := rest }
        ((M.getSortedUsers addr v).foldl (forwardUser M cfg addr v) { s with worklist := rest }) :=
      extends_foldl (fun t u _ => extends_forwardUser M cfg addr v t u) _
    have hvisit := foldl_visits (P := fun u t => UseRecorded M t v u) (M.getSortedUsers addr v)
      (fun t u _ => forwardUser_records v t u)
      (fun t u _ w hw => hw.mono (extends_forwardUser M cfg addr v t u)) { s with worklist := rest }
    intro w hw
    rcases hext.queued w hw with hw | hw
    · rcases h w hw with hq | hu
      · rw [hwl, List.mem_cons] at hq
        rcases hq with rfl | hq
        · exact .inr fun u hu => hvisit u (mem_sortOn.mpr hu)
        · exact .inl (hext.worklist w hq)
      · exact .inr fun u hm => (show UseRecorded M { s with worklist := rest } w u from
          ⟨(hu u hm).user, (hu u hm).pointer⟩).mono hext
    · exact .inl hw

theorem forwardDrain_spec {fuel : Nat} {s t : PassState} (hs : Processed M s)
    (h : s.forwardDrain M cfg addr fuel = some t) : Processed M t ∧ t.worklist = [] := by
  obtain ⟨ht, hcond⟩ := whileLoop_invariant (I := Processed M)
    (fun s t hs _ hst => by cases hst; exact processed_forwardPop hs) hs h
  exact ⟨ht, by simpa using hcond⟩

/-- What the outer loop keeps: uses are on record, and work is left only when `changed` says so. -/
theorem forwardRound_spec {fuel : Nat} {s t : PassState} (hs : Processed M s)
    (h : s.forwardRound M cfg addr fuel = some t) :
    Processed M t ∧ (t.changed = true ∨ t.worklist = []) := by
  obtain ⟨u, hu, rfl⟩ := Option.map_eq_some_iff.mp h
  have hs' : Processed M { s with changed := false } := hs.mono (extends_changed s false)
  obtain ⟨hproc, hempty⟩ := forwardDrain_spec hs' hu
  refine ⟨hproc.mono (extends_forwardScan M addr u), ?_⟩
  exact (forwardScan_worklist M addr u).imp_right fun he => he.trans hempty

end PassState

theorem processed_seedWorklist (M : Module) (cfg : Config) :
    PassState.Processed M (seedWorklist M cfg) :=
  PassState.Processed.mono (extends_seedWorklist M cfg) fun v hv => absurd hv (by simp)

/-- When the forward loop exits, nothing is queued and every use is on record. -/
theorem forwardPhase_processed {M : Module} {cfg : Config} {addr : Value → Nat} {fuel : Nat}
    {s : PassState} (h : forwardPhase M cfg addr fuel = some s) :
    s.worklist = [] ∧ ∀ v ∈ s.taintedValues, ∀ u ∈ M.users v, PassState.UseRecorded M s v u := by
  have hseed := (processed_seedWorklist M cfg).mono (PassState.extends_changed _ true)
  obtain ⟨⟨hproc, hwork⟩, hcond⟩ := whileLoop_invariant
    (I := fun s => PassState.Processed M s ∧ (s.changed = true ∨ s.worklist = []))
    (fun s t hs _ hst => PassState.forwardRound_spec hs.1 hst) ⟨hseed, .inl rfl⟩ h
  have hempty : s.worklist = [] := hwork.resolve_left (by rw [hcond]; decide)
  refine ⟨hempty, fun v hv => (hproc v hv).resolve_left ?_⟩
  rw [hempty]
  exact List.not_mem_nil

/-- **Def-use closure of the forward phase.** -/
theorem forwardPhase_defUse_closed (M : Module) (cfg : Config) (addr : Value → Nat) (fuel : Nat)
    (s : PassState) (h : forwardPhase M cfg addr fuel = some s) :
    s.worklist = [] ∧ ∀ v ∈ s.taintedValues, ∀ u ∈ M.insts, v ∈ M.operands u →
      (.inst u ∈ s.taintedValues ∨
        (M.kind u = .ret (some v) ∧ u.func ∈ s.functionsReturningTaint) ∨
        (∃ ptr, M.kind u = .store v ptr ∧ (M.stripPointerCasts ptr).isGlobalVariable = true) ∨
        (∃ ptr a, M.kind u = .store v ptr ∧ M.getPointerParameterOrigin ptr = some a ∧
          s.TaintsParam u.func a.no)) ∧
      ∀ ptr, M.kind u = .store v ptr → (M.stripPointerCasts ptr).isGlobalVariable = false →
        M.getPointerParameterOrigin ptr = none → M.stripPointerCasts ptr ∈ s.taintedPointers := by
  obtain ⟨hempty, hall⟩ := forwardPhase_processed h
  refine ⟨hempty, fun v hv u hu hop => ?_⟩
  have hrec := hall v hv u (Module.mem_users.mpr ⟨hu, hop⟩)
  exact ⟨hrec.user, hrec.pointer⟩

/-- The sum that the recursive function returns is the tainted value whose use is recorded. -/
theorem forwardPhase_defUse_closed_recursiveModule :
    ∃ s, forwardPhase recursiveModule recursiveConfig Value.slot 5 = some s ∧
      s.worklist = [] ∧ 0 ∈ s.functionsReturningTaint := by
  have h : (forwardPhase recursiveModule recursiveConfig Value.slot 5).map (fun s =>
      (decide (.inst ⟨0, 0, 0⟩ ∈ s.taintedValues), decide (.inst ⟨0, 0, 2⟩ ∈ s.taintedValues))) =
      some (true, false) := by decide
  obtain ⟨s, hs, hval⟩ := Option.map_eq_some_iff.mp h
  simp only [Prod.mk.injEq, decide_eq_true_eq, decide_eq_false_iff_not] at hval
  obtain ⟨hempty, hall⟩ := forwardPhase_defUse_closed recursiveModule recursiveConfig _ 5 s hs
  have hret := (hall (.inst ⟨0, 0, 0⟩) hval.1 ⟨0, 0, 2⟩ (by decide) (by decide)).1
  have hkind : recursiveModule.kind ⟨0, 0, 2⟩ = .ret (some (.inst ⟨0, 0, 0⟩)) := rfl
  rw [hkind] at hret
  rcases hret with hu | ⟨_, hf⟩ | ⟨ptr, hk, _⟩ | ⟨ptr, _, hk, _⟩
  · exact absurd hu hval.2
  · exact ⟨s, hs, hempty, hf⟩
  · cases hk
  · cases hk

end LinuxAnalysis
