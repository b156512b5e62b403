import LinuxAnalysis.Pass.ParameterStores

/-!
# Field records

A store through a pointer parameter is recorded together with the struct fields on the way to it,
except in the forward worklist, which records the parameter alone.  The upward phase reads an empty
record as every field, so a record that is not empty has to name the fields of all stores.
-/

open LinuxAnalysis.Lib

namespace LinuxAnalysis

section Runs

variable (M : Module) (cfg : Config) (addr : Value → Nat)

/-- The points of the run, each with the stores looked at as destinations on the way to it. -/
inductive RunWith : (InstId → Value → Prop) → Point → Prop where
  | start : RunWith (fun _ _ => False) (initialPoint M cfg)
  | step {H m m'} : RunWith H m → LinuxAnalysis.step M cfg addr m = some m' →
      RunWith (fun store ptr => H store ptr ∨ ProcessesStore M cfg m store ptr) m'

variable {M cfg addr}

theorem RunWith.reachable {H : InstId → Value → Prop} {m : Point} (h : RunWith M cfg addr H m) :
    Reachable M cfg addr m := by
  induction h with
  | start => exact .refl _
  | step _ hstep ih => exact ih.trans (.single hstep)

theorem exists_runWith {m : Point} (h : Reachable M cfg addr m) :
    ∃ H, RunWith M cfg addr H m := by
  refine h.invariant (I := fun m => ∃ H, RunWith M cfg addr H m) (fun a b ha hab => ?_) ⟨_, .start⟩
  obtain ⟨H, hH⟩ := ha
  exact ⟨_, hH.step hab⟩

end Runs

namespace PassState

variable {M : Module} {cfg : Config} {addr : Value → Nat}

/-- A record that is not empty names the fields of all stores in `H` through the parameter. -/
def FieldsComplete (M : Module) (H : InstId → Value → Prop) (s : PassState) : Prop :=
  ∀ store ptr a, H store ptr → M.getPointerParameterOrigin ptr = some a →
    s.accessedFields store.func a.no ≠ [] →
    ∀ idx ∈ M.extractStructFieldIndices ptr, idx ∈ s.accessedFields store.func a.no

/-! ## What writes the records -/

theorem accessedFields_congr {s t : PassState}
    (h : t.functionParamFieldAccess = s.functionParamFieldAccess) (f n : Nat) :
    t.accessedFields f n = s.accessedFields f n := by
  unfold accessedFields
  rw [h]

theorem mem_mergeFields {fields existing : List Int} {idx : Int} :
    idx ∈ fields.foldl (fun ex idx => if idx ∈ ex then ex else ex ++ [idx]) existing ↔
      idx ∈ existing ∨ idx ∈ fields := by
  induction fields generalizing existing with
  | nil => simp
  | cons x fields ih =>
    rw [List.foldl_cons, ih, List.mem_cons]
    by_cases hx : x ∈ existing
    · rw [if_pos hx]
      constructor
      · exact fun h => h.imp_right .inr
      · rintro (h | rfl | h)
        · exact .inl h
        · exact .inl hx
        · exact .inr h
    · rw [if_neg hx, List.mem_append, List.mem_singleton]
      exact or_assoc

theorem mem_accessedFields_recordFieldAccess {f n g k : Nat} {fields : List Int} {s : PassState}
    {idx : Int} : idx ∈ (s.recordFieldAccess f n fields).accessedFields g k ↔
      idx ∈ s.accessedFields g k ∨ g = f ∧ k = n ∧ idx ∈ fields := by
  unfold recordFieldAccess
  split
  next hempty =>
    rw [List.isEmpty_iff] at hempty
    simp [hempty]
  next =>
    simp only [accessedFields, DenseMap.getD_insert]
    by_cases hg : g = f
    · subst hg
      rw [if_pos rfl, DenseMap.getD_insert]
      by_cases hk : k = n
      · subst hk
        rw [if_pos rfl, mem_mergeFields]
        simp
      · rw [if_neg hk]
        simp [hk]
    · rw [if_neg hg]
      simp [hg]

theorem fields_taintParameter (a : ArgId) (level : Int) (s : PassState) :
    (s.taintParameter a level).functionParamFieldAccess = s.functionParamFieldAccess := by
  unfold taintParameter
  split <;> rfl

theorem ForwardStep.fields {s t : PassState} (h : ForwardStep M cfg addr s t) :
    t.functionParamFieldAccess = s.functionParamFieldAccess := by
  cases h with
  | callLevel _ _ _ _ => rfl
  | parameter _ _ _ _ _ _ => exact fields_taintParameter _ _ s
  | returned _ _ _ => rfl
  | parameterStore _ _ _ _ => rfl
  | pointer _ _ _ _ => exact fields_taintPointer _ _ s
  | use _ _ _ => rfl

theorem ScanStep.fields {s t : PassState} (h : ScanStep M s t) :
    t.functionParamFieldAccess = s.functionParamFieldAccess := by
  have hensure (i : InstId) :
      (s.ensureLevelSet i).functionParamFieldAccess = s.functionParamFieldAccess := by
    unfold ensureLevelSet
    split
    · rfl
    · split <;> rfl
  cases h with
  | kill _ _ => rfl
  | level _ _ _ _ => exact hensure _
  | load _ _ _ _ => exact hensure _

theorem fields_of_steps {R : PassState → PassState → Prop}
    (hR : ∀ s t, R s t → t.functionParamFieldAccess = s.functionParamFieldAccess)
    {s t : PassState} (h : Relation.ReflTransGen R s t) :
    t.functionParamFieldAccess = s.functionParamFieldAccess := by
  induction h with
  | refl => rfl
  | tail _ hstep ih => exact (hR _ _ hstep).trans ih

/-- A selected seed writes the records only as a store through a parameter. -/
theorem fields_seedOperand {i : InstId} {op : Value} {s : SeedState}
    (h : ∀ value ptr a, .inst i ∉ s.pass.taintedValues →
      .inst i ∈ (seedOperand M cfg i s op).pass.taintedValues → M.kind i = .store value ptr →
      M.getPointerParameterOrigin ptr ≠ some a) :
    (seedOperand M cfg i s op).pass.functionParamFieldAccess = s.pass.functionParamFieldAccess := by
  -- only the store to a parameter writes the record, and the hypothesis excludes it
  have hseed (ci : Value) (hnew : .inst i ∉ s.pass.taintedValues)
      (hstore : ∀ value ptr a, M.kind i = .store value ptr →
        M.getPointerParameterOrigin ptr ≠ some a) :
      (s.pass.seedInst M cfg i ci).functionParamFieldAccess = s.pass.functionParamFieldAccess := by
    have hcall (t : PassState) :
        (t.seedCall M cfg i ci).functionParamFieldAccess = t.functionParamFieldAccess := by
      unfold seedCall
      split
      · refine fields_foldl (fun u n => ?_) t
        unfold seedCallArgument
        split
        · exact fields_taintParameter _ _ u
        · rfl
      · rfl
    have hreturn (t : PassState) :
        (t.seedReturn M i ci).functionParamFieldAccess = t.functionParamFieldAccess := by
      unfold seedReturn
      split
      · split <;> rfl
      · rfl
    have hlocal (t : PassState) :
        (t.seedStore M i).functionParamFieldAccess = t.functionParamFieldAccess := by
      unfold seedStore
      split
      next value ptr hkind =>
        split
        · rfl
        · split
          next a horigin => exact absurd horigin (hstore value ptr a hkind)
          next => exact fields_taintPointer _ _ t
      next => rfl
    rw [seedInst, if_neg hnew]
    exact (hcall _).trans ((hlocal _).trans (hreturn _))
  rcases seedOperand_pass M cfg i s op with hsame | hpass
  · rw [hsame]
  · by_cases hnew : .inst i ∈ s.pass.taintedValues
    · rw [hpass, seedInst, if_pos hnew]
    · rw [hpass]
      refine hseed op hnew fun value ptr a hkind => h value ptr a hnew ?_ hkind
      rw [hpass, seedInst, if_neg hnew]
      -- the seed taints the instruction itself before its other effects
      apply (extends_seedCall M cfg i op _).taintedValues
      apply (extends_seedStore M i _).taintedValues
      apply (extends_seedReturn M i op _).taintedValues
      exact DenseSet.mem_insert.mpr (.inl rfl)

theorem fields_taintReturningCall (f : Nat) (s : PassState) (i : InstId) :
    (s.taintReturningCall M f i).functionParamFieldAccess = s.functionParamFieldAccess := by
  unfold taintReturningCall
  split
  · split
    · rfl
    · exact fields_initFunctionLevel _ _ _
  · rfl

theorem fields_upwardCallSite (f : Nat) (params : DenseSet Nat) (s : PassState) (i : InstId) :
    (s.upwardCallSite M f params i).functionParamFieldAccess = s.functionParamFieldAccess := by
  unfold upwardCallSite
  split
  · split
    · exact fields_foldl (fun t n => fields_upwardArgument i f _ t n) s
    · rfl
  · rfl

/-- A visit of the upward worklist writes the records only as a store through a parameter. -/
theorem fields_upwardUser {v : Value} {i : InstId} {s : PassState}
    (h : ∀ ptr a, .inst i ∉ s.taintedValues → M.kind i = .store v ptr →
      M.getPointerParameterOrigin ptr ≠ some a) :
    (s.upwardUser M v i).functionParamFieldAccess = s.functionParamFieldAccess := by
  have hreturn (t : PassState) :
      (t.upwardReturn M v i).functionParamFieldAccess = t.functionParamFieldAccess := by
    unfold upwardReturn
    split
    · split <;> rfl
    · rfl
  unfold upwardUser
  split
  · rfl
  next hnew =>
    refine (hreturn _).trans ?_
    unfold processStoreForTaint
    split
    next value ptr hkind =>
      split
      · rfl
      next hvalue =>
        rw [not_not] at hvalue
        subst hvalue
        dsimp only
        split
        next a horigin => exact absurd horigin (h ptr a hnew hkind)
        next => exact fields_taintPointer _ _ _
    next => rfl

theorem upwardUser_store {v ptr : Value} {i : InstId} {s : PassState} {a : ArgId}
    (hnew : .inst i ∉ s.taintedValues) (hkind : M.kind i = .store v ptr)
    (horigin : M.getPointerParameterOrigin ptr = some a) :
    ∃ u : PassState, u.functionParamFieldAccess = s.functionParamFieldAccess ∧
      s.upwardUser M v i =
        u.recordFieldAccess i.func a.no (M.extractStructFieldIndices ptr) := by
  refine ⟨(((s.setValueLevel (.inst i) (s.getLevel v)).taintValue (.inst i)).taintPointer
    (M.stripPointerCasts ptr) i).discoverTaintingPointerParam i.func a.no, ?_, ?_⟩
  · exact fields_taintPointer (M.stripPointerCasts ptr) i
      ((s.setValueLevel (.inst i) (s.getLevel v)).taintValue (.inst i))
  · rw [upwardUser, if_neg hnew]
    simp only [processStoreForTaint, upwardReturn, hkind, ne_eq, not_true_eq_false, if_false, horigin]

end PassState

namespace Control

/-- The forward worklist is at one of the users of a value. -/
def visitsForward : Control → Bool
  | forwardUsers _ (_ :: _) => true
  | _ => false

def seeds : Control → Bool
  | seeding .. => true
  | _ => false

/-- The value and the user of it at which the forward worklist is. -/
def forwardVisit : Control → Option (Value × InstId)
  | forwardUsers v (u :: _) => some (v, u)
  | _ => none

theorem eq_of_forwardVisit {c : Control} {v : Value} {u : InstId}
    (h : c.forwardVisit = some (v, u)) : ∃ rest, c = forwardUsers v (u :: rest) := by
  unfold forwardVisit at h
  split at h
  · cases h
    exact ⟨_, rfl⟩
  · cases h

end Control

namespace Point

variable {M : Module} {cfg : Config} {addr : Value → Nat}

/-- A step looks at one store at most. -/
theorem processesStore_unique {m : Point} {store store' : InstId} {ptr ptr' : Value}
    (h : ProcessesStore M cfg m store ptr) (h' : ProcessesStore M cfg m store' ptr') :
    store' = store ∧ ptr' = ptr := by
  cases h with
  | seed _ _ hkind =>
    cases h' with
    | seed _ _ hkind' =>
      cases hkind.symm.trans hkind'
      exact ⟨rfl, rfl⟩
  | forward hkind =>
    cases h' with
    | forward hkind' =>
      cases hkind.symm.trans hkind'
      exact ⟨rfl, rfl⟩
  | upward hkind _ =>
    cases h' with
    | upward hkind' _ =>
      cases hkind.symm.trans hkind'
      exact ⟨rfl, rfl⟩

/-- What a step does to the records: a store through a parameter adds its fields, unless it is a visit
of the forward worklist. -/
theorem fields_of_step {m m' : Point} (hm : Reachable M cfg addr m)
    (h : step M cfg addr m = some m') :
    (m'.state.functionParamFieldAccess = m.state.functionParamFieldAccess ∧
      ∀ store ptr a, ProcessesStore M cfg m store ptr → M.getPointerParameterOrigin ptr = some a →
        m.control.visitsForward = true) ∨
    ∃ store ptr a, ProcessesStore M cfg m store ptr ∧ M.getPointerParameterOrigin ptr = some a ∧
      m.control.visitsForward = false ∧ ∃ u : PassState,
        u.functionParamFieldAccess = m.state.functionParamFieldAccess ∧
        m'.state.functionParamFieldAccess = (u.recordFieldAccess store.func a.no
          (M.extractStructFieldIndices ptr)).functionParamFieldAccess := by
  have hvisit := step_visit (valid_of_reachable hm) h
  obtain ⟨control', t⟩ := m'
  dsimp only at hvisit
  cases hvisit with
  | @seed i op rest n found s hi hop =>
    -- a seeded store writes the record only through a parameter pointer
    by_cases hstore : ∃ ptr a, ProcessesStore M cfg ⟨.seeding ((i, op) :: rest) n found, s⟩ i ptr ∧
        M.getPointerParameterOrigin ptr = some a
    · obtain ⟨ptr, a, hprocesses, horigin⟩ := hstore
      refine .inr ⟨i, ptr, a, hprocesses, horigin, rfl, ?_⟩
      cases hprocesses with
      | seed hnew hselected hkind =>
        obtain ⟨u, hu, heq⟩ := PassState.seedOperand_store (s := ⟨s, n, found⟩) hnew hselected hkind
          horigin
        exact ⟨u.addTaintingPointerParam i.func a.no, hu, by rw [heq]; rfl⟩
    · refine .inl ⟨PassState.fields_seedOperand (s := ⟨s, n, found⟩)
        fun value ptr a hnew hselected hkind horigin => ?_, fun store ptr a hprocesses horigin => ?_⟩
      · exact hstore ⟨ptr, a, .seed hnew hselected hkind, horigin⟩
      · cases hprocesses with
        | seed hnew hselected hkind =>
          exact absurd ⟨ptr, a, .seed hnew hselected hkind, horigin⟩ hstore
  -- the forward phase taints parameters without a record of their fields
  | forwardUser hv hu =>
    refine .inl ⟨?_, fun _ _ _ _ _ => rfl⟩
    exact PassState.fields_of_steps (fun _ _ => PassState.ForwardStep.fields)
      (PassState.forwardUser_steps hv hu)
  | kill hi =>
    refine .inl ⟨?_, fun _ _ _ hprocesses _ => by cases hprocesses⟩
    exact PassState.fields_of_steps (fun _ _ => PassState.ScanStep.fields)
      (PassState.identifyKillStore_steps hi _)
  | @forwardLoad ptrs p i rest changed s hp hi =>
    refine .inl ⟨?_, fun _ _ _ hprocesses _ => by cases hprocesses⟩
    exact PassState.fields_of_steps (fun _ _ => PassState.ScanStep.fields)
      (PassState.scanLoad_steps true (r := (s, changed)) hi hp)
  | returningCall _ _ =>
    exact .inl ⟨PassState.fields_taintReturningCall _ _ _,
      fun _ _ _ hprocesses _ => by cases hprocesses⟩
  | paramCall _ _ =>
    exact .inl ⟨PassState.fields_upwardCallSite _ _ _ _,
      fun _ _ _ hprocesses _ => by cases hprocesses⟩
  | @upwardUser old v u rest s _ _ =>
    -- the upward phase is the other place that writes it
    by_cases hstore : ∃ ptr a, .inst u ∉ s.taintedValues ∧ M.kind u = .store v ptr ∧
        M.getPointerParameterOrigin ptr = some a
    · obtain ⟨ptr, a, hnew, hkind, horigin⟩ := hstore
      obtain ⟨w, hw, heq⟩ := PassState.upwardUser_store hnew hkind horigin
      exact .inr ⟨u, ptr, a, .upward hkind hnew, horigin, rfl, w, hw, by rw [heq]⟩
    · refine .inl ⟨PassState.fields_upwardUser fun ptr a hnew hkind horigin => ?_,
        fun store ptr a hprocesses horigin => ?_⟩
      · exact hstore ⟨ptr, a, hnew, hkind, horigin⟩
      · cases hprocesses with
        | upward hkind hnew => exact absurd ⟨ptr, a, hnew, hkind, horigin⟩ hstore
  | @upwardLoad old ptrs p i rest changed s hp hi =>
    refine .inl ⟨?_, fun _ _ _ hprocesses _ => by cases hprocesses⟩
    exact PassState.fields_of_steps (fun _ _ => PassState.ScanStep.fields)
      (PassState.scanLoad_steps false (r := (s, changed)) hi hp)
  | choice hidle _ hfields =>
    refine .inl ⟨hfields, fun store ptr a hprocesses _ => ?_⟩
    cases hprocesses <;> cases hidle

/-- The records after a step that adds fields. -/
theorem mem_accessedFields_of_step {store : InstId} {ptr : Value} {a : ArgId} {s t u : PassState}
    (hu : u.functionParamFieldAccess = s.functionParamFieldAccess)
    (ht : t.functionParamFieldAccess = (u.recordFieldAccess store.func a.no
      (M.extractStructFieldIndices ptr)).functionParamFieldAccess) {f n : Nat} {idx : Int} :
    idx ∈ t.accessedFields f n ↔ idx ∈ s.accessedFields f n ∨
      f = store.func ∧ n = a.no ∧ idx ∈ M.extractStructFieldIndices ptr := by
  rw [PassState.accessedFields_congr ht, PassState.mem_accessedFields_recordFieldAccess,
    PassState.accessedFields_congr hu]

/-- The steps that could leave a record incomplete do not: a visit of the forward worklist to a store
through a parameter with a record finds its fields there, and a visit of the upward worklist that
begins a record has the fields of all earlier stores through the parameter. -/
structure FieldsKept (M : Module) (cfg : Config) (H : InstId → Value → Prop) (m : Point) : Prop where
  forward : m.control.visitsForward = true → ∀ store ptr a, ProcessesStore M cfg m store ptr →
    M.getPointerParameterOrigin ptr = some a → m.state.accessedFields store.func a.no ≠ [] →
    ∀ idx ∈ M.extractStructFieldIndices ptr, idx ∈ m.state.accessedFields store.func a.no
  upward : m.control.upward = true → ∀ store ptr a, ProcessesStore M cfg m store ptr →
    M.getPointerParameterOrigin ptr = some a → m.state.accessedFields store.func a.no = [] →
    M.extractStructFieldIndices ptr ≠ [] → ∀ store' ptr' a', H store' ptr' →
    M.getPointerParameterOrigin ptr' = some a' → store'.func = store.func → a'.no = a.no →
    ∀ idx ∈ M.extractStructFieldIndices ptr', idx ∈ M.extractStructFieldIndices ptr

/-- Complete records; while seeding, the fields of every store are there. -/
structure FieldsRecorded (M : Module) (H : InstId → Value → Prop) (m : Point) : Prop where
  complete : m.state.FieldsComplete M H
  seeding : m.control.seeds = true → ∀ store ptr a, H store ptr →
    M.getPointerParameterOrigin ptr = some a → ∀ idx ∈ M.extractStructFieldIndices ptr,
      idx ∈ m.state.accessedFields store.func a.no

theorem FieldsRecorded.step {H : InstId → Value → Prop} {m m' : Point}
    (hm : Reachable M cfg addr m) (hkept : FieldsKept M cfg H m) (h : FieldsRecorded M H m)
    (hstep : LinuxAnalysis.step M cfg addr m = some m') :
    FieldsRecorded M (fun store ptr => H store ptr ∨ ProcessesStore M cfg m store ptr) m' := by
  -- a seeding point comes after a seeding point
  have hseeds (hs : m'.control.seeds = true) : m.control.seeds = true := by
    obtain ⟨control', t⟩ := m'
    cases control' with
    | seeding rest n found =>
      obtain ⟨i, op, n', found', s, rfl, _⟩ := step_to_seeding hstep
      rfl
    | _ => cases hs
  rcases fields_of_step hm hstep with ⟨hsame, honly⟩ |
    ⟨store, ptr, a, hprocesses, horigin, hbackward, u, hu, ht⟩
  · -- nothing is written
    have hrec := PassState.accessedFields_congr hsame
    refine ⟨fun st pt b hold hb hne idx hidx => ?_, fun hs st pt b hold hb idx hidx => ?_⟩
    · rw [hrec] at hne ⊢
      rcases hold with hold | hnow
      · exact h.complete st pt b hold hb hne idx hidx
      · exact hkept.forward (honly st pt b hnow hb) st pt b hnow hb hne idx hidx
    · rw [hrec]
      rcases hold with hold | hnow
      · exact h.seeding (hseeds hs) st pt b hold hb idx hidx
      · -- a forward visit is no seeding
        have hforward := honly st pt b hnow hb
        have hseeding := hseeds hs
        cases hnow with
        | seed => cases hforward
        | forward => cases hseeding
        | upward => cases hseeding
  -- the step adds the fields of one store to one record
  · have hmem {f n : Nat} {idx : Int} :
        idx ∈ m'.state.accessedFields f n ↔ idx ∈ m.state.accessedFields f n ∨
          f = store.func ∧ n = a.no ∧ idx ∈ M.extractStructFieldIndices ptr :=
      mem_accessedFields_of_step hu ht
    have hnew {st : InstId} {pt : Value} {b : ArgId} {idx : Int}
        (hnow : ProcessesStore M cfg m st pt) (hb : M.getPointerParameterOrigin pt = some b)
        (hidx : idx ∈ M.extractStructFieldIndices pt) :
        idx ∈ m'.state.accessedFields st.func b.no := by
      obtain ⟨rfl, rfl⟩ := processesStore_unique hprocesses hnow
      rw [horigin] at hb
      cases hb
      exact hmem.mpr (.inr ⟨rfl, rfl, hidx⟩)
    refine ⟨fun st pt b hold hb hne idx hidx => ?_, fun hs st pt b hold hb idx hidx => ?_⟩
    · rcases hold with hold | hnow
      · by_cases hrec : m.state.accessedFields st.func b.no = []
        · -- the step begins the record
          obtain ⟨x, hx⟩ := List.exists_mem_of_ne_nil _ hne
          rw [hmem, hrec] at hx
          obtain ⟨hfunc, hno, hfields⟩ := hx.resolve_left List.not_mem_nil
          cases hphase : m.control.upward with
          | true =>
            rw [hfunc, hno] at hrec
            exact hmem.mpr (.inr ⟨hfunc, hno, hkept.upward hphase store ptr a hprocesses horigin hrec
              (List.ne_nil_of_mem hfields) st pt b hold hb hfunc hno idx hidx⟩)
          | false =>
            have hseeding : m.control.seeds = true := by
              cases hprocesses with
              | seed => rfl
              | forward => cases hbackward
              | upward => cases hphase
            exact hmem.mpr (.inl (h.seeding hseeding st pt b hold hb idx hidx))
        · exact hmem.mpr (.inl (h.complete st pt b hold hb hrec idx hidx))
      · exact hnew hnow hb hidx
    · rcases hold with hold | hnow
      · exact hmem.mpr (.inl (h.seeding (hseeds hs) st pt b hold hb idx hidx))
      · exact hnew hnow hb hidx

/-- A step of a looked-at store exists. -/
theorem exists_step_of_processesStore (addr : Value → Nat) {m : Point} {store : InstId} {ptr : Value}
    (h : ProcessesStore M cfg m store ptr) : ∃ m', step M cfg addr m = some m' := by
  cases h with
  | seed | forward | upward => exact ⟨_, rfl⟩

theorem FieldsKept.of_complete {H : InstId → Value → Prop} {m : Point}
    (hrun : RunWith M cfg addr H m)
    (hall : ∀ H m, RunWith M cfg addr H m → m.state.FieldsComplete M H) : FieldsKept M cfg H m := by
  refine ⟨fun hforward store ptr a hprocesses horigin hne idx hidx => ?_,
    fun hphase store ptr a hprocesses horigin hempty hfields st pt b hold hb hfunc hno idx hidx => ?_⟩
  -- completeness one step later says what this step has to keep
  · obtain ⟨m', hstep⟩ := exists_step_of_processesStore addr hprocesses
    have hcomplete := hall _ m' (hrun.step hstep) store ptr a (.inr hprocesses) horigin
    rcases fields_of_step hrun.reachable hstep with ⟨hsame, _⟩ | ⟨_, _, _, _, _, hbackward, _⟩
    · rw [PassState.accessedFields_congr hsame] at hcomplete
      exact hcomplete hne idx hidx
    · rw [hforward] at hbackward
      cases hbackward
  · obtain ⟨m', hstep⟩ := exists_step_of_processesStore addr hprocesses
    have hcomplete := hall _ m' (hrun.step hstep) st pt b (.inl hold) hb
    rcases fields_of_step hrun.reachable hstep with ⟨_, honly⟩ |
      ⟨store', ptr', a', hprocesses', horigin', _, u, hu, ht⟩
    · -- an upward visit is no forward visit
      have hforward := honly store ptr a hprocesses horigin
      cases hprocesses with
      | seed => cases hforward
      | forward => cases hphase
      | upward => cases hforward
    · obtain ⟨rfl, rfl⟩ := processesStore_unique hprocesses hprocesses'
      rw [horigin] at horigin'
      cases horigin'
      -- the record was empty, so it now holds the fields of this store and no others
      have hmem {x : Int} : x ∈ m'.state.accessedFields st.func b.no ↔
          x ∈ M.extractStructFieldIndices ptr' := by
        rw [mem_accessedFields_of_step hu ht, hfunc, hno, hempty]
        simp
      obtain ⟨x, hx⟩ := List.exists_mem_of_ne_nil _ hfields
      exact hmem.mp (hcomplete (List.ne_nil_of_mem (hmem.mpr hx)) idx hidx)

end Point

/-- **Field records.**  In every state of a run the records that are not empty name the fields of all
stores through their parameter looked at so far, exactly when every step of the run that could break
this keeps to the condition. -/
theorem fieldsComplete_iff (M : Module) (cfg : Config) (addr : Value → Nat) :
    (∀ H m, RunWith M cfg addr H m → m.state.FieldsComplete M H) ↔
      ∀ H m, RunWith M cfg addr H m → Point.FieldsKept M cfg H m := by
  constructor
  · intro hall H m hrun
    exact .of_complete hrun hall
  · intro hkept H m hrun
    have hrecorded : Point.FieldsRecorded M H m := by
      induction hrun with
      | start => exact ⟨fun _ _ _ h => h.elim, fun _ _ _ _ h => h.elim⟩
      | step hrun hstep ih => exact ih.step hrun.reachable (hkept _ _ hrun) hstep
    exact hrecorded.complete

/-- A constant is stored to the first field of a struct parameter and a sum to its second field. -/
def twoFieldsModule : Module :=
  .ofFunctions [{
    name := "g".toList
    argIsPointerTy := [true]
    blocks := [[
      { kind := .getElementPtr 1 (.arg ⟨0, 0⟩) [.constantInt 32 0, .constantInt 32 0]
        resultIsPointerTy := true },
      { kind := .getElementPtr 1 (.arg ⟨0, 0⟩) [.constantInt 32 0, .constantInt 32 1]
        resultIsPointerTy := true },
      { kind := .other "add".toList [.constantInt 32 5, .constant 0] [] },
      { kind := .store (.constantInt 32 5) (.inst ⟨0, 0, 0⟩) },
      { kind := .store (.inst ⟨0, 0, 2⟩) (.inst ⟨0, 0, 1⟩) },
      { kind := .ret none }]] }] id

def allOccurrencesConfig : Config :=
  { passThroughConfig with targetOpcode := [], occurrenceIndex := 0 }

/-- The forward worklist records the second store without its field, and the record of the first one
stays. -/
theorem not_fieldsComplete : ¬ ∀ (M : Module) (cfg : Config) (addr : Value → Nat) H m,
    RunWith M cfg addr H m → m.state.FieldsComplete M H := by
  intro hall
  have h : (Reaches.iterate (step twoFieldsModule allOccurrencesConfig Value.slot) 17
      (initialPoint twoFieldsModule allOccurrencesConfig)).map (fun m =>
        (m.control.forwardVisit, m.state.accessedFields 0 0)) =
      some (some (.inst ⟨0, 0, 2⟩, ⟨0, 0, 4⟩), [0]) := by decide
  obtain ⟨⟨control, s⟩, hm, hval⟩ := Option.map_eq_some_iff.mp h
  obtain ⟨hvisit, hfields⟩ := Prod.mk.inj hval
  obtain ⟨rest, rfl⟩ := Control.eq_of_forwardVisit hvisit
  obtain ⟨H, hrun⟩ := exists_runWith (Reaches.of_iterate hm)
  have hkept := Point.FieldsKept.of_complete hrun (hall _ _ _)
  have hfield := hkept.forward rfl ⟨0, 0, 4⟩ (.inst ⟨0, 0, 1⟩) ⟨0, 0⟩ (.forward rfl) (by decide)
    (by rw [hfields]; decide) 1 (by decide)
  rw [hfields] at hfield
  exact absurd hfield (by decide)

end LinuxAnalysis
