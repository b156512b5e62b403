import LinuxAnalysis.Pass.Flow
import LinuxAnalysis.Pass.LevelCoverage

/-!
# Levels on the way down

A value reached from the seeds is at their level, less one for each parameter entered on the way.
While nothing tainted is stored, every value that the forward phase taints is reached so at the level
it is given; where each value is reached at one level only, the order of the visits has no say in it.
-/

open LinuxAnalysis.Lib

namespace LinuxAnalysis

section Relation

variable (M : Module) (cfg : Config) (addr : Value → Nat)

/-- `v` is reached from the seeds at this level. -/
inductive Carries : Value → Int → Prop where
  | seed {v level} : v ∈ (seedWorklist M cfg).taintedValues →
      (seedWorklist M cfg).valueLevel.lookup v = some level → Carries v level
  | use {v u level} : Carries v level → u ∈ M.users v → FlowsVia M cfg addr v u (.inst u) →
      .inst u ∉ (seedWorklist M cfg).taintedValues → Carries (.inst u) level
  | parameter {v u a level} : Carries v level → u ∈ M.users v → EntersParameter M cfg addr v u a →
      .arg a ∉ (seedWorklist M cfg).taintedValues → Carries (.arg a) (level - 1)

/-- No store of a value reached from the seeds. -/
def NotStored : Prop :=
  ∀ v level, Carries M cfg addr v level → ∀ i ∈ M.insts, ∀ ptr, M.kind i ≠ .store v ptr

/-- A value reached from the seeds is returned by `f`. -/
def CarriesReturn (f : Nat) : Prop :=
  ∃ v level, Carries M cfg addr v level ∧ ∃ u ∈ M.users v, M.kind u = .ret (some v) ∧ u.func = f

end Relation

namespace PassState

variable {M : Module} {cfg : Config} {addr : Value → Nat}

/-! ## Taking levels -/

/-- `t` is `s` after values were tainted at levels of `V`. -/
structure Spreads (V : Value → Int → Prop) (s t : PassState) : Prop where
  values : s.taintedValues ⊆ t.taintedValues
  kept : ∀ v ∈ s.taintedValues, t.valueLevel.lookup v = s.valueLevel.lookup v
  taken : ∀ v ∈ t.taintedValues, v ∉ s.taintedValues →
    ∃ level, V v level ∧ t.valueLevel.lookup v = some level

variable {V : Value → Int → Prop}

theorem Spreads.refl (s : PassState) : Spreads V s s where
  values := DenseSet.Subset.refl _
  kept _ _ := rfl
  taken _ hv hnew := absurd hv hnew

theorem Spreads.trans {s t u : PassState} (h₁ : Spreads V s t) (h₂ : Spreads V t u) :
    Spreads V s u where
  values := DenseSet.Subset.trans h₁.values h₂.values
  kept v hv := (h₂.kept v (h₁.values v hv)).trans (h₁.kept v hv)
  taken v hv hnew := by
    by_cases hmid : v ∈ t.taintedValues
    · obtain ⟨level, hlevel, hlookup⟩ := h₁.taken v hmid hnew
      exact ⟨level, hlevel, (h₂.kept v hmid).trans hlookup⟩
    · exact h₂.taken v hv hmid

theorem Spreads.of_same {s t : PassState} (h : s.SameLevels t) : Spreads V s t where
  values := by rw [h.values]
  kept v _ := by rw [h.valueLevel]
  taken v hv hnew := by
    rw [h.values] at hv
    exact absurd hv hnew

/-- A value tainted at a level of `V`. -/
theorem Spreads.of_sets {s t : PassState} {v : Value} {level : Int} (h : s.SetsLevel t v level)
    (hV : V v level) : Spreads V s t where
  values := h.kept
  kept w hw := h.lookup_ne fun he => h.fresh (he ▸ hw)
  taken w hw hnew := by
    obtain rfl := (h.values w hw).resolve_left hnew
    exact ⟨level, hV, h.lookup_self⟩

/-! ## Entering functions -/

/-- The levels that `t` has taken on from `s` in the forward phase.  A function has the level of one
of the parameters entered, or none was entered and its level is what it was. -/
structure Descends (V : Value → Int → Prop) (s t : PassState) : Prop extends Spreads V s t where
  functions : ∀ f, (∀ a, a.func = f → .arg a ∈ t.taintedValues → .arg a ∈ s.taintedValues) ∧
      t.functionLevel.lookup f = s.functionLevel.lookup f ∨
    ∃ a, a.func = f ∧ .arg a ∈ t.taintedValues ∧ .arg a ∉ s.taintedValues ∧
      t.functionLevel.lookup f = t.valueLevel.lookup (.arg a)

theorem Descends.refl (s : PassState) : Descends V s s where
  toSpreads := .refl s
  functions _ := .inl ⟨fun _ _ h => h, rfl⟩

theorem Descends.trans {s t u : PassState} (h₁ : Descends V s t) (h₂ : Descends V t u) :
    Descends V s u := by
  refine ⟨h₁.toSpreads.trans h₂.toSpreads, fun f => ?_⟩
  rcases h₂.functions f with ⟨hnone, hsame⟩ | ⟨a, hfunc, ha, hnew, hlevel⟩
  · rcases h₁.functions f with ⟨hnone', hsame'⟩ | ⟨a, hfunc, ha, hnew, hlevel⟩
    · exact .inl ⟨fun a hfunc ha => hnone' a hfunc (hnone a hfunc ha), hsame.trans hsame'⟩
    · exact .inr ⟨a, hfunc, h₂.values _ ha, hnew, (hsame.trans hlevel).trans (h₂.kept _ ha).symm⟩
  · exact .inr ⟨a, hfunc, ha, fun h => hnew (h₁.values _ h), hlevel⟩

/-- No parameter is entered and no function given a level. -/
theorem Spreads.descends {s t : PassState} (h : Spreads V s t)
    (hargs : ∀ a, .arg a ∈ t.taintedValues → .arg a ∈ s.taintedValues)
    (hlevels : t.functionLevel = s.functionLevel) : Descends V s t where
  toSpreads := h
  functions f := .inl ⟨fun a _ => hargs a, by rw [hlevels]⟩

theorem descends_of_same {s t : PassState} (h : s.SameLevels t) : Descends V s t :=
  (Spreads.of_same h).descends (fun _ ha => h.values ▸ ha) h.functionLevel

theorem descends_taintParameter {a : ArgId} {level : Int} {s : PassState}
    (hV : .arg a ∉ s.taintedValues → V (.arg a) (level - 1)) :
    Descends V s (s.taintParameter a level) := by
  unfold taintParameter
  split
  next => exact .refl s
  next hnew =>
    have hset : s.SetsLevel { ((s.setValueLevel (.arg a) (level - 1)).setFunctionLevel a.func
        (level - 1)).taintValue (.arg a) with changed := true } (.arg a) (level - 1) :=
      ⟨hnew, DenseSet.subset_insert _ _, fun w hw => (DenseSet.mem_insert.mp hw).symm, rfl,
        .inr ⟨a.func, rfl⟩⟩
    refine ⟨.of_sets hset (hV hnew), fun f => ?_⟩
    by_cases hf : f = a.func
    · subst hf
      exact .inr ⟨a, rfl, DenseSet.mem_insert.mpr (.inl rfl), hnew,
        (AList.lookup_insert _).trans hset.lookup_self.symm⟩
    · refine .inl ⟨fun b hb hmem => ?_, AList.lookup_insert_ne hf⟩
      rcases DenseSet.mem_insert.mp hmem with he | hold
      · cases he
        exact absurd hb.symm hf
      · exact hold

/-! ## A visit of the forward worklist -/

theorem getLevel_of_lookup {s : PassState} {v : Value} {level : Int}
    (h : s.valueLevel.lookup v = some level) : s.getLevel v = level := by
  unfold getLevel
  rw [h]

section ForwardUser

variable {v : Value} {u : InstId} {s : PassState} {level : Int}

theorem descends_enterCallees (hv : v ∈ s.taintedValues)
    (hlevel : s.valueLevel.lookup v = some level) {n : Nat} {callees : List Nat}
    (hV : ∀ callee ∈ callees, HasParameter M callee n → .arg ⟨callee, n⟩ ∉ s.taintedValues →
      V (.arg ⟨callee, n⟩) (level - 1)) {t : PassState} (ht : Descends V s t) :
    Descends V s (callees.foldl (enterCallee M v n) t) := by
  refine foldl_invariant (fun t callee hcallee ht => ?_) ht
  unfold enterCallee
  split
  next hguard =>
    simp only [Bool.and_eq_true, Bool.not_eq_true', decide_eq_true_eq] at hguard
    rw [getLevel_of_lookup ((ht.kept v hv).trans hlevel)]
    refine ht.trans (descends_taintParameter fun hnew => ?_)
    exact hV callee hcallee hguard fun h => hnew (ht.values _ h)
  next => exact ht

theorem descends_forwardCall (hv : v ∈ s.taintedValues)
    (hlevel : s.valueLevel.lookup v = some level)
    (hleveled : .inst u ∈ s.taintedValues → .inst u ∈ s.valueLevel ∨ ∃ ptr, M.kind u = .load ptr)
    (htargets : s.InitialTargets M cfg)
    (hV : ∀ a, EntersParameter M cfg addr v u a → .arg a ∉ s.taintedValues →
      V (.arg a) (level - 1)) :
    Descends V s (s.forwardCall M cfg addr v u) := by
  unfold forwardCall
  split
  next called same args bundles hkind =>
    split
    next => exact .refl s
    next n hn =>
      split
      next callee hcallee =>
        split
        next => exact .refl s
        next =>
          have hcall : Descends V s
              (if .inst u ∈ s.valueLevel then s else s.setValueLevel (.inst u) (s.getLevel v)) := by
            split
            next => exact .refl s
            next hnone =>
              -- a tainted call has its level already
              have hkept (w : Value) (hw : w ∈ s.taintedValues) :
                  (s.setValueLevel (.inst u) (s.getLevel v)).valueLevel.lookup w =
                    s.valueLevel.lookup w :=
                AList.lookup_insert_ne fun he => by
                  rcases hleveled (he ▸ hw) with hlevel | ⟨ptr, hload⟩
                  · exact hnone hlevel
                  · rw [hkind] at hload
                    cases hload
              exact Spreads.descends ⟨DenseSet.Subset.refl _, hkept, fun w hw hnew => absurd hw hnew⟩
                (fun _ h => h) rfl
          dsimp only
          split
          next hmode =>
            show Descends V s ([callee].foldl (enterCallee M v n) _)
            refine descends_enterCallees hv hlevel (fun c hc hparam => ?_) hcall
            rw [List.mem_singleton.mp hc] at hparam ⊢
            exact hV _ ⟨hmode, hparam, called, same, args, bundles, hkind, hn, .inl hcallee⟩
          next => exact hcall
      next hnone =>
        split
        next hmode =>
          rw [Bool.and_eq_true] at hmode
          refine descends_enterCallees hv hlevel (fun c hc hparam => ?_) (.refl s)
          rw [show s.indirectTargets M addr called = callTargets M cfg addr called from
            indirectTargets_congr htargets] at hc
          exact hV _ ⟨hmode.2, hparam, called, same, args, bundles, hkind, hn,
            .inr ⟨hnone, hmode.1, hc⟩⟩
        next => exact .refl s
  next => exact .refl s

theorem descends_propagate (hv : v ∈ s.taintedValues)
    (hlevel : s.valueLevel.lookup v = some level)
    (hV : .inst u ∉ s.taintedValues → V (.inst u) level) {t : PassState} (ht : Descends V s t) :
    Descends V s (t.propagate v u) := by
  unfold propagate
  split
  next => exact ht
  next hnew =>
    rw [getLevel_of_lookup ((ht.kept v hv).trans hlevel)]
    refine ht.trans (Spreads.descends (.of_sets (setsLevel_use hnew)
      (hV fun h => hnew (ht.values _ h))) (fun a ha => ?_) rfl)
    exact (DenseSet.mem_insert.mp ha).resolve_left fun h => by cases h

theorem sameLevels_forwardLocalStore (store : InstId) (ptr : Value) (s : PassState) :
    s.SameLevels (s.forwardLocalStore store ptr) := by
  unfold forwardLocalStore taintPointer
  split <;> exact ⟨rfl, rfl, rfl⟩

/-- **One visit.**  The user and the parameters entered take the level of the value visited, the
parameters one less. -/
theorem descends_forwardUser (hv : v ∈ s.taintedValues)
    (hlevel : s.valueLevel.lookup v = some level)
    (hleveled : .inst u ∈ s.taintedValues → .inst u ∈ s.valueLevel ∨ ∃ ptr, M.kind u = .load ptr)
    (htargets : s.InitialTargets M cfg)
    (huse : FlowsVia M cfg addr v u (.inst u) → .inst u ∉ s.taintedValues → V (.inst u) level)
    (hparam : ∀ a, EntersParameter M cfg addr v u a → .arg a ∉ s.taintedValues →
      V (.arg a) (level - 1)) :
    Descends V s (s.forwardUser M cfg addr v u) := by
  have hcall : Descends V s (s.forwardCall M cfg addr v u) :=
    descends_forwardCall hv hlevel hleveled htargets hparam
  have hpass (hret : M.kind u ≠ .ret (some v))
      (hstore : ∀ ptr, M.kind u = .store v ptr → LocalPointer M ptr) {t : PassState}
      (ht : Descends V s t) : Descends V s (t.propagate v u) :=
    descends_propagate hv hlevel (huse (.inl ⟨rfl, hret, hstore⟩)) ht
  unfold forwardUser
  dsimp only
  split
  -- a return hands its value to the callers and passes nothing on
  next value hkind =>
    split
    next => exact hcall.trans (descends_of_same ⟨rfl, rfl, rfl⟩)
    next hvalue =>
      refine hpass (fun hret => hvalue ?_) (fun ptr h => ?_) hcall
      · rw [hkind] at hret
        cases hret
        rfl
      · rw [hkind] at h
        cases h
  next value ptr hkind =>
    have hnoret : M.kind u ≠ .ret (some v) := by
      rw [hkind]
      exact fun h => by cases h
    split
    next hvalue =>
      subst hvalue
      split
      next => exact hcall
      next hglobal =>
        split
        next a horigin => exact hcall.trans (descends_of_same ⟨rfl, rfl, rfl⟩)
        next horigin =>
          refine hpass hnoret (fun ptr' h => ?_)
            (hcall.trans (descends_of_same (sameLevels_forwardLocalStore _ _ _)))
          rw [hkind] at h
          cases h
          exact ⟨by simpa using hglobal, horigin⟩
    -- a store into the visited value as its pointer is an ordinary use
    next hvalue =>
      refine hpass hnoret (fun ptr' h => ?_) hcall
      rw [hkind] at h
      exact absurd (InstKind.store.inj h).1 hvalue
  next hret hstore => exact hpass (hret v) (fun ptr h => absurd h (hstore v ptr)) hcall

end ForwardUser

/-! ## What a visit puts on record -/

/-- The pointers and parameters on record, the functions that return taint and the table of function
pointers are the same. -/
structure SameRecords (s t : PassState) : Prop where
  pointers : t.taintedPointers = s.taintedPointers
  params : t.functionsTaintingPointerParams = s.functionsTaintingPointerParams
  returning : t.functionsReturningTaint = s.functionsReturningTaint
  targets : t.functionPointerTargets = s.functionPointerTargets

theorem SameRecords.refl (s : PassState) : s.SameRecords s := ⟨rfl, rfl, rfl, rfl⟩

theorem SameRecords.trans {s t u : PassState} (h₁ : s.SameRecords t) (h₂ : t.SameRecords u) :
    s.SameRecords u :=
  ⟨h₂.pointers.trans h₁.pointers, h₂.params.trans h₁.params, h₂.returning.trans h₁.returning,
    h₂.targets.trans h₁.targets⟩

theorem sameRecords_enterCallee (v : Value) (n : Nat) (s : PassState) (callee : Nat) :
    s.SameRecords (s.enterCallee M v n callee) := by
  unfold enterCallee
  split
  · unfold taintParameter
    split <;> exact ⟨rfl, rfl, rfl, rfl⟩
  · exact .refl s

theorem sameRecords_forwardCall (v : Value) (u : InstId) (s : PassState) :
    s.SameRecords (s.forwardCall M cfg addr v u) := by
  unfold forwardCall
  split
  · split
    · exact .refl s
    · split
      · split
        · exact .refl s
        · have hlevel : s.SameRecords (if .inst u ∈ s.valueLevel then s
              else s.setValueLevel (.inst u) (s.getLevel v)) := by
            split
            · exact .refl s
            · exact ⟨rfl, rfl, rfl, rfl⟩
          dsimp only
          split
          · exact hlevel.trans (sameRecords_enterCallee _ _ _ _)
          · exact hlevel
      · split
        · exact foldl_rel SameRecords.refl (fun _ _ _ => SameRecords.trans)
            (fun t callee _ => sameRecords_enterCallee _ _ t callee) s
        · exact .refl s
  · exact .refl s

theorem sameRecords_propagate (v : Value) (u : InstId) (s : PassState) :
    s.SameRecords (s.propagate v u) := by
  unfold propagate
  split <;> exact ⟨rfl, rfl, rfl, rfl⟩

/-- A visit that finds no store of its value records nothing but a return of it. -/
theorem forwardUser_returns {v : Value} {u : InstId} (hstore : ∀ ptr, M.kind u ≠ .store v ptr)
    (s : PassState) : s.SameRecords (s.forwardUser M cfg addr v u) ∨
      M.kind u = .ret (some v) ∧
        (s.addFunctionReturningTaint u.func).SameRecords (s.forwardUser M cfg addr v u) := by
  have hcall : s.SameRecords (s.forwardCall M cfg addr v u) := sameRecords_forwardCall v u s
  have hpass := hcall.trans (sameRecords_propagate v u _)
  unfold forwardUser
  dsimp only
  split
  next value hkind =>
    split
    next hvalue =>
      subst hvalue
      refine .inr ⟨hkind, hcall.pointers, hcall.params, ?_, hcall.targets⟩
      show (s.forwardCall M cfg addr value u).functionsReturningTaint.insert u.func =
        s.functionsReturningTaint.insert u.func
      rw [hcall.returning]
    next => exact .inl hpass
  next value ptr hkind =>
    split
    next hvalue =>
      subst hvalue
      exact absurd hkind (hstore ptr)
    next => exact .inl hpass
  next => exact .inl hpass

/-! ## The seeds -/

/-- A store is among the seeds, or they leave nothing on record about memory. -/
theorem seed_memory (hseeds : ∀ i ∈ M.insts, ∀ value ptr, M.kind i = .store value ptr →
    .inst i ∉ (seedWorklist M cfg).taintedValues) :
    (∀ p, p ∉ (seedWorklist M cfg).taintedPointers) ∧
      (seedWorklist M cfg).functionsTaintingPointerParams = ∅ := by
  let I := fun s : PassState =>
    (∃ i ∈ M.insts, ∃ value ptr, M.kind i = .store value ptr ∧ .inst i ∈ s.taintedValues) ∨
      (∀ p, p ∉ s.taintedPointers) ∧ s.functionsTaintingPointerParams = ∅
  -- once a store is a seed the property holds for good; before that memory is untouched
  have hstep (s t : PassState) (hs : I s) (h : SeedStep M cfg s t) : I t := by
    rcases hs with ⟨i, hi, value, ptr, hkind, hmem⟩ | ⟨hpointers, hparams⟩
    · exact .inl ⟨i, hi, value, ptr, hkind, h.extends.taintedValues _ hmem⟩
    · have hstore {i : InstId} {ci value ptr : Value} (hseed : IsSeed M cfg i ci)
          (hi : .inst i ∈ s.taintedValues) (hkind : M.kind i = .store value ptr) : I t :=
        .inl ⟨i, Module.mem_insts_of_mem_operands hseed.operand, value, ptr, hkind,
          h.extends.taintedValues _ hi⟩
      cases h with
      | source _ _ => exact .inr ⟨hpointers, hparams⟩
      | returned _ _ _ => exact .inr ⟨hpointers, hparams⟩
      | parameterStore hseed hi hkind _ => exact hstore hseed hi hkind
      | pointer hseed hi hkind => exact hstore hseed hi hkind
      | parameter _ _ _ _ _ hnew =>
        rw [taintParameter, if_neg hnew]
        exact .inr ⟨hpointers, hparams⟩
  have hstart : I (buildFunctionPointerTargets M cfg {}) := by
    obtain ⟨targets, hstate⟩ := Point.initialPoint_state M cfg
    refine .inr ?_
    rw [show buildFunctionPointerTargets M cfg {} = (initialPoint M cfg).state from rfl, hstate]
    exact ⟨DenseSet.not_mem_empty, rfl⟩
  -- no store is a seed at the end, so the second alternative holds
  rcases steps_invariant hstep hstart (seedWorklist_steps M cfg) with
    ⟨i, hi, value, ptr, hkind, hmem⟩ | hnone
  · exact absurd hmem (hseeds i hi value ptr hkind)
  · exact hnone

theorem seed_targets : (seedWorklist M cfg).InitialTargets M cfg :=
  steps_invariant (I := InitialTargets M cfg) (fun _ _ hs hst => hst.targets.trans hs) rfl
    (seedWorklist_steps M cfg)

theorem seed_leveled {v : Value} (hv : v ∈ (seedWorklist M cfg).taintedValues) :
    v ∈ (seedWorklist M cfg).valueLevel := by
  have hcovers := coversNew_of_steps (fun _ _ => SeedStep.coversNew) (seedWorklist_steps M cfg)
  refine (hcovers.values v hv).resolve_left fun h => ?_
  obtain ⟨targets, hstate⟩ := Point.initialPoint_state M cfg
  rw [show buildFunctionPointerTargets M cfg {} = (initialPoint M cfg).state from rfl, hstate] at h
  exact DenseSet.not_mem_empty v h

/-! ## The forward phase -/

/-- A state of the forward phase when nothing tainted is stored. -/
structure Downward (M : Module) (cfg : Config) (addr : Value → Nat) (s : PassState) : Prop where
  descends : Descends (Carries M cfg addr) (seedWorklist M cfg) s
  returning : ∀ f ∈ s.functionsReturningTaint,
    f ∈ (seedWorklist M cfg).functionsReturningTaint ∨ CarriesReturn M cfg addr f
  pointers : ∀ p, p ∉ s.taintedPointers
  params : s.functionsTaintingPointerParams = ∅
  queued : ∀ v ∈ s.worklist, v ∈ s.taintedValues
  targets : s.InitialTargets M cfg

/-- Each tainted value has the level of a way from the seeds to it. -/
theorem Downward.carries {s : PassState} (hs : s.Downward M cfg addr) {v : Value}
    (hv : v ∈ s.taintedValues) :
    ∃ level, Carries M cfg addr v level ∧ s.valueLevel.lookup v = some level := by
  by_cases hseed : v ∈ (seedWorklist M cfg).taintedValues
  · obtain ⟨level, hlevel⟩ := Option.isSome_iff_exists.mp (AList.lookup_isSome.mpr (seed_leveled hseed))
    exact ⟨level, .seed hseed hlevel, (hs.descends.kept v hseed).trans hlevel⟩
  · exact hs.descends.taken v hv hseed

theorem Downward.same {s t : PassState} (hs : s.Downward M cfg addr) (hlevels : s.SameLevels t)
    (hrecords : s.SameRecords t) (hqueued : ∀ v ∈ t.worklist, v ∈ t.taintedValues) :
    t.Downward M cfg addr where
  descends := hs.descends.trans (descends_of_same hlevels)
  returning f hf := hs.returning f (hrecords.returning ▸ hf)
  pointers p := hrecords.pointers ▸ hs.pointers p
  params := hrecords.params.trans hs.params
  queued := hqueued
  targets := hrecords.targets.trans hs.targets

theorem Downward.forwardUser {s : PassState} (hs : s.Downward M cfg addr)
    (hstores : NotStored M cfg addr) {v : Value} (hv : v ∈ s.taintedValues) {u : InstId}
    (hu : u ∈ M.users v) : (s.forwardUser M cfg addr v u).Downward M cfg addr := by
  obtain ⟨level, hcarries, hlevel⟩ := hs.carries hv
  have hstore := hstores v level hcarries u (Module.mem_users.mp hu).1
  have hext := extends_forwardUser M cfg addr v s u
  have hleveled (hw : .inst u ∈ s.taintedValues) :
      .inst u ∈ s.valueLevel ∨ ∃ ptr, M.kind u = .load ptr := by
    obtain ⟨l, _, hl⟩ := hs.carries hw
    exact .inl (AList.lookup_isSome.mp (by rw [hl]; rfl))
  have hdescends : Descends (Carries M cfg addr) s (s.forwardUser M cfg addr v u) :=
    descends_forwardUser hv hlevel hleveled hs.targets
      (fun hvia hnew => .use hcarries hu hvia fun h => hnew (hs.descends.values _ h))
      (fun a henter hnew => .parameter hcarries hu henter fun h => hnew (hs.descends.values _ h))
  have hqueued (w : Value) (hw : w ∈ (s.forwardUser M cfg addr v u).worklist) :
      w ∈ (s.forwardUser M cfg addr v u).taintedValues :=
    (hext.pushed w hw).elim (fun h => hext.taintedValues w (hs.queued w h)) id
  have hrecords : s.SameRecords (s.forwardUser M cfg addr v u) ∨ M.kind u = .ret (some v) ∧
      (s.addFunctionReturningTaint u.func).SameRecords (s.forwardUser M cfg addr v u) :=
    forwardUser_returns hstore s
  rcases hrecords with hsame | ⟨hkind, hsame⟩
  · exact ⟨hs.descends.trans hdescends, fun f hf => hs.returning f (hsame.returning ▸ hf),
      fun p => hsame.pointers ▸ hs.pointers p, hsame.params.trans hs.params, hqueued,
      hsame.targets.trans hs.targets⟩
  · refine ⟨hs.descends.trans hdescends, fun f hf => ?_, fun p => hsame.pointers ▸ hs.pointers p,
      hsame.params.trans hs.params, hqueued, hsame.targets.trans hs.targets⟩
    rw [hsame.returning] at hf
    rcases DenseSet.mem_insert.mp hf with rfl | hf
    · exact .inr ⟨v, level, hcarries, u, hu, hkind, rfl⟩
    · exact hs.returning f hf

theorem Downward.forwardPop {s : PassState} (hs : s.Downward M cfg addr)
    (hstores : NotStored M cfg addr) : (s.forwardPop M cfg addr).Downward M cfg addr := by
  unfold PassState.forwardPop
  split
  next => exact hs
  next v rest hwl =>
    have hv : v ∈ s.taintedValues := hs.queued v (by rw [hwl]; exact List.mem_cons_self)
    have hpopped : PassState.Downward M cfg addr { s with worklist := rest } :=
      hs.same ⟨rfl, rfl, rfl⟩ ⟨rfl, rfl, rfl, rfl⟩
        fun w hw => hs.queued w (by rw [hwl]; exact List.mem_cons_of_mem v hw)
    refine (foldl_invariant (I := fun t : PassState => t.Downward M cfg addr ∧ v ∈ t.taintedValues)
      (fun t u hu ht => ?_) ⟨hpopped, hv⟩).1
    exact ⟨ht.1.forwardUser hstores ht.2 (mem_sortOn.mp hu),
      (extends_forwardUser M cfg addr v t u).taintedValues v ht.2⟩

theorem pointersToScan_of_no_pointers {s : PassState} (h : ∀ p, p ∉ s.taintedPointers)
    (scanned : DenseSet Value) : s.pointersToScan addr scanned = [] := by
  have helems : s.taintedPointers.elems = [] := List.eq_nil_iff_forall_not_mem.mpr h
  rw [pointersToScan, helems]
  rfl

/-- Without tainted pointers a scan does nothing. -/
theorem forwardScan_of_no_pointers {s : PassState} (h : ∀ p, p ∉ s.taintedPointers) :
    s.forwardScan M addr = s := by
  have hkills : s.identifyKillStores M = s := by
    refine foldl_invariant (I := fun t => t = s) (fun t i _ ht => ?_) rfl
    subst ht
    unfold identifyKillStore
    split
    next value ptr hkind => exact if_neg fun hguard => h _ hguard.1
    next => rfl
  unfold forwardScan
  dsimp only
  rw [hkills, pointersToScan_of_no_pointers h]
  show { s with changed := s.changed || false } = s
  rw [Bool.or_false]

theorem Downward.forwardRound {s t : PassState} (hs : s.Downward M cfg addr)
    (hstores : NotStored M cfg addr) {fuel : Nat}
    (h : s.forwardRound M cfg addr fuel = some t) : t.Downward M cfg addr := by
  obtain ⟨u, hu, rfl⟩ := Option.map_eq_some_iff.mp h
  have hstart : PassState.Downward M cfg addr { s with changed := false } :=
    hs.same ⟨rfl, rfl, rfl⟩ ⟨rfl, rfl, rfl, rfl⟩ hs.queued
  have hdrained := (whileLoop_invariant (I := Downward M cfg addr)
    (fun a b ha _ hab => by cases hab; exact ha.forwardPop hstores) hstart hu).1
  rw [forwardScan_of_no_pointers hdrained.pointers]
  exact hdrained

end PassState

section ForwardPhase

variable {M : Module} {cfg : Config} {addr : Value → Nat} {fuel : Nat} {s : PassState}

/-- What is on record when seeding is done is on record when the forward loop exits. -/
theorem seeds_subset_forwardPhase (h : forwardPhase M cfg addr fuel = some s) :
    (seedWorklist M cfg).taintedValues ⊆ s.taintedValues ∧
      (seedWorklist M cfg).functionsReturningTaint ⊆ s.functionsReturningTaint := by
  have hseeded : Reachable M cfg addr ⟨.forwardLoop, { seedWorklist M cfg with changed := true }⟩ :=
    seedWorklist_reaches
  have hvalid := Point.valid_of_reachable hseeded
  have hend := Point.reaches_end hseeded rfl h
  exact ⟨(Point.grows_of_reaches hvalid hend).1, Point.returning_of_reaches hvalid hend⟩

theorem forwardPhase_downward (h : forwardPhase M cfg addr fuel = some s)
    (hseeds : ∀ i ∈ M.insts, ∀ value ptr, M.kind i = .store value ptr →
      .inst i ∉ (seedWorklist M cfg).taintedValues) (hstores : NotStored M cfg addr) :
    s.Downward M cfg addr := by
  obtain ⟨hpointers, hparams⟩ := PassState.seed_memory hseeds
  have hstart : PassState.Downward M cfg addr { seedWorklist M cfg with changed := true } :=
    ⟨PassState.descends_of_same ⟨rfl, rfl, rfl⟩, fun _ hf => .inl hf, hpointers, hparams,
      fun v hv => ((extends_seedWorklist M cfg).pushed v hv).resolve_left List.not_mem_nil,
      PassState.seed_targets⟩
  exact (whileLoop_invariant (fun a b ha _ hab => ha.forwardRound hstores hab) hstart h).1

/-- All that is reached from the seeds is tainted when the forward loop exits. -/
theorem mem_forwardPhase_of_carries (h : forwardPhase M cfg addr fuel = some s) {v : Value}
    {level : Int} (hv : Carries M cfg addr v level) : v ∈ s.taintedValues := by
  induction hv with
  | seed hv _ => exact (seeds_subset_forwardPhase h).1 _ hv
  | use _ hu hvia _ ih => exact forwardPhase_flowsTo h ih ⟨_, hu, hvia⟩
  | parameter _ hu henter _ ih => exact forwardPhase_flowsTo h ih ⟨_, hu, .inr ⟨_, rfl, henter⟩⟩

end ForwardPhase

end LinuxAnalysis
