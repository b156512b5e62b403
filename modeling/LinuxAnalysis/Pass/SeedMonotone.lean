import LinuxAnalysis.Pass.AddressOrder
import LinuxAnalysis.Pass.Invariant
import LinuxAnalysis.Pass.Occurrence

/-!
# One occurrence and all occurrences

The seeds of one occurrence are among the seeds of all of them, and uses pass every seed on alike.
What an additional seed can take away is a load: its store may become the recorded origin of a
pointer, or put the pointer under a kill, and the scan then skips a load that the run for the one
occurrence takes.
-/

open LinuxAnalysis.Lib

namespace LinuxAnalysis

/-- The configuration that tracks all occurrences. -/
def Config.allOccurrences (cfg : Config) : Config := { cfg with occurrenceIndex := 0 }

/-! ## Seeds -/

/-- Instruction `i` stores to the local variable behind `p`. -/
def SeedsPointer (M : Module) (i : InstId) (p : Value) : Prop :=
  ∃ value ptr, M.kind i = .store value ptr ∧ LocalPointer M ptr ∧ M.stripPointerCasts ptr = p

namespace PassState

variable {M : Module} {cfg : Config}

/-- Tainted are selected instructions and the local variables they store to. -/
structure Seeded (M : Module) (s : PassState) : Prop where
  insts : ∀ v ∈ s.taintedValues, ∃ i ∈ M.insts, v = .inst i
  pointers : ∀ p, p ∈ s.taintedPointers ↔ ∃ i, .inst i ∈ s.taintedValues ∧ SeedsPointer M i p
  origins : ∀ p ∈ s.taintedPointers, ∃ o, s.pointerTaintOrigin.lookup p = some o ∧
    .inst o ∈ s.taintedValues ∧ M.storePointer o = some p

theorem Seeded.initial : Seeded M (buildFunctionPointerTargets M cfg {}) := by
  obtain ⟨targets, hstate⟩ := Point.initialPoint_state M cfg
  have hstate : buildFunctionPointerTargets M cfg {} =
      { ({} : PassState) with functionPointerTargets := targets } := hstate
  rw [hstate]
  refine ⟨fun v hv => absurd hv (DenseSet.not_mem_empty v), fun p => ?_,
    fun p hp => absurd hp (DenseSet.not_mem_empty p)⟩
  exact iff_of_false (DenseSet.not_mem_empty p) fun ⟨i, hi, _⟩ => DenseSet.not_mem_empty _ hi

/-- What seeding leaves alone between the insertion of `i` and the handling of its store. -/
theorem seedReturn_sets (i : InstId) (ci : Value) (s : PassState) :
    (s.seedReturn M i ci).taintedValues = s.taintedValues ∧
      (s.seedReturn M i ci).taintedPointers = s.taintedPointers ∧
      (s.seedReturn M i ci).pointerTaintOrigin = s.pointerTaintOrigin := by
  unfold seedReturn
  split
  · split <;> exact ⟨rfl, rfl, rfl⟩
  · exact ⟨rfl, rfl, rfl⟩

theorem seedCall_intraprocedural (hmode : cfg.interprocMode = false) (i : InstId) (ci : Value)
    (s : PassState) : s.seedCall M cfg i ci = s := by
  unfold seedCall
  split
  · refine foldl_invariant (I := fun t : PassState => t = s) (fun t n _ ht => ?_) rfl
    unfold seedCallArgument
    rw [hmode, if_neg (by simp)]
    exact ht
  · rfl

/-- The store of a seed taints the local variable it goes to. -/
theorem seedStore_sets (i : InstId) (s : PassState) :
    (s.seedStore M i).taintedValues = s.taintedValues ∧
      ((∃ p, SeedsPointer M i p ∧ M.storePointer i = some p ∧
          (s.seedStore M i) = s.taintPointer p i) ∨
        ((∀ p, ¬ SeedsPointer M i p) ∧ (s.seedStore M i).taintedPointers = s.taintedPointers ∧
          (s.seedStore M i).pointerTaintOrigin = s.pointerTaintOrigin)) := by
  unfold seedStore
  split
  next value ptr hkind =>
    -- a store to a global or to a parameter seeds no pointer
    have hother (h : ¬ LocalPointer M ptr) (p : Value) : ¬ SeedsPointer M i p := by
      rintro ⟨value', ptr', hkind', hlocal, _⟩
      rw [hkind] at hkind'
      cases hkind'
      exact h hlocal
    split
    next hglobal =>
      refine ⟨rfl, .inr ⟨hother fun h => ?_, rfl, rfl⟩⟩
      rw [h.1] at hglobal
      cases hglobal
    next hglobal =>
      split
      next a horigin =>
        have hnot := hother fun h => by
          rw [h.2] at horigin
          cases horigin
        unfold recordParameterStore recordFieldAccess
        split <;> exact ⟨rfl, .inr ⟨hnot, rfl, rfl⟩⟩
      next horigin =>
        have hlocal : LocalPointer M ptr := ⟨by simpa using hglobal, horigin⟩
        refine ⟨?_, .inl ⟨_, ⟨value, ptr, hkind, hlocal, rfl⟩, ?_, rfl⟩⟩
        · unfold taintPointer
          split <;> rfl
        · rw [Module.storePointer, hkind]
  next hnone =>
    refine ⟨rfl, .inr ⟨fun p => ?_, rfl, rfl⟩⟩
    rintro ⟨value, ptr, hkind, _⟩
    exact hnone value ptr hkind

theorem mem_seedInst (hmode : cfg.interprocMode = false) {i : InstId} {ci v : Value}
    {s : PassState} :
    v ∈ (s.seedInst M cfg i ci).taintedValues ↔ v = .inst i ∨ v ∈ s.taintedValues := by
  unfold seedInst
  split
  next hi => exact ⟨.inr, fun h => h.elim (fun he => he ▸ hi) id⟩
  next =>
    dsimp only
    rw [seedCall_intraprocedural hmode, (seedStore_sets i _).1, (seedReturn_sets i ci _).1]
    exact DenseSet.mem_insert

theorem Seeded.seedInst (hmode : cfg.interprocMode = false) {i : InstId} (hi : i ∈ M.insts)
    (ci : Value) {s : PassState} (hs : Seeded M s) : Seeded M (s.seedInst M cfg i ci) := by
  by_cases hold : .inst i ∈ s.taintedValues
  · rw [PassState.seedInst, if_pos hold]
    exact hs
  · let t := ((s.taintValue (.inst i)).setFunctionLevel i.func 0).setValueLevel (.inst i) 0
    -- within one function a seed touches itself and the pointer it stores to
    have hstep : s.seedInst M cfg i ci = (t.seedReturn M i ci).seedStore M i := by
      rw [PassState.seedInst, if_neg hold, seedCall_intraprocedural hmode]
    obtain ⟨hvalues, hpointers, horigins⟩ := seedReturn_sets (M := M) i ci t
    obtain ⟨hstored, hstore⟩ := seedStore_sets (M := M) i (t.seedReturn M i ci)
    have hmem (v : Value) : v ∈ (s.seedInst M cfg i ci).taintedValues ↔
        v = .inst i ∨ v ∈ s.taintedValues := mem_seedInst hmode
    have hold' (o : InstId) (ho : .inst o ∈ s.taintedValues) :
        .inst o ∈ (s.seedInst M cfg i ci).taintedValues := (hmem _).mpr (.inr ho)
    have hself : .inst i ∈ (s.seedInst M cfg i ci).taintedValues := (hmem _).mpr (.inl rfl)
    refine ⟨fun v hv => ?_, fun p => ?_, fun p hp => ?_⟩
    · rcases (hmem v).mp hv with rfl | hv
      · exact ⟨i, hi, rfl⟩
      · exact hs.insts v hv
    · have hbefore : p ∈ (t.seedReturn M i ci).taintedPointers ↔
          ∃ j, .inst j ∈ s.taintedValues ∧ SeedsPointer M j p := by
        rw [hpointers]
        exact hs.pointers p
      have hafter : (∃ j, .inst j ∈ (s.seedInst M cfg i ci).taintedValues ∧ SeedsPointer M j p) ↔
          SeedsPointer M i p ∨ ∃ j, .inst j ∈ s.taintedValues ∧ SeedsPointer M j p := by
        simp only [hmem, Value.inst.injEq, or_and_right, exists_or, exists_eq_left]
      rw [hafter, ← hbefore, hstep]
      rcases hstore with ⟨q, hq, _, hq'⟩ | ⟨hnone, hsame, _⟩
      · rw [hq', mem_taintPointer]
        refine or_congr_left ⟨fun h => h ▸ hq, fun h => ?_⟩
        obtain ⟨_, _, hkind, _, rfl⟩ := h
        obtain ⟨_, _, hkind', _, rfl⟩ := hq
        rw [hkind] at hkind'
        cases hkind'
        rfl
      · rw [hsame]
        exact (or_iff_right (hnone p)).symm
    -- pointers that were there keep an origin among the seeds
    · have hkeep (hp : p ∈ (t.seedReturn M i ci).taintedPointers) :
          ∃ o, (t.seedReturn M i ci).pointerTaintOrigin.lookup p = some o ∧
            .inst o ∈ s.taintedValues ∧ M.storePointer o = some p := by
        rw [hpointers] at hp
        rw [horigins]
        exact hs.origins p hp
      rw [hstep] at hp hself hold' ⊢
      rcases hstore with ⟨q, hq, hptr, hq'⟩ | ⟨hnone, hsame, hsame'⟩
      -- the origin of a pointer is the first store to it
      · by_cases hpold : p ∈ (t.seedReturn M i ci).taintedPointers
        · obtain ⟨o, hlookup, ho, hop⟩ := hkeep hpold
          refine ⟨o, ?_, hold' o ho, hop⟩
          rw [hq', (extends_taintPointer q i _).origin p hpold]
          exact hlookup
        · rw [hq', mem_taintPointer] at hp
          obtain rfl := hp.resolve_right hpold
          refine ⟨i, ?_, hself, hptr⟩
          rw [hq', taintPointer, if_neg hpold]
          exact AList.lookup_insert _
      · rw [hsame] at hp
        rw [hsame']
        obtain ⟨o, hlookup, ho, hop⟩ := hkeep hp
        exact ⟨o, hlookup, hold' o ho, hop⟩

/-- One visit of an operand seeds the instruction or leaves the state. -/
theorem seedOperand_cases (M : Module) (cfg : Config) (i : InstId) (r : SeedState) (op : Value) :
    (seedOperand M cfg i r op).pass = r.pass ∨
      (seedOperand M cfg i r op).pass = r.pass.seedInst M cfg i op := by
  unfold seedOperand
  split
  · exact .inl rfl
  · split
    · split
      · dsimp only
        split
        · exact .inl rfl
        · exact .inr rfl
      · exact .inl rfl
    · exact .inl rfl

end PassState

section Seeds

variable {M : Module} {cfg : Config}

theorem seeded_seedWorklist (hmode : cfg.interprocMode = false) :
    PassState.Seeded M (seedWorklist M cfg) := by
  refine foldl_invariant (I := fun r : SeedState => PassState.Seeded M r.pass)
    (fun r i hi hr => ?_) PassState.Seeded.initial
  have hmem : i ∈ M.insts := (List.mem_filter.mp hi).1
  refine foldl_invariant (I := fun r : SeedState => PassState.Seeded M r.pass)
    (fun r op _ hr => ?_) hr
  rcases PassState.seedOperand_cases M cfg i r op with h | h
  · rw [h]
    exact hr
  · rw [h]
    exact hr.seedInst hmode hmem op

theorem seed_of_occurrence (hmode : cfg.interprocMode = false) {v : Value}
    (hv : v ∈ (seedWorklist M cfg).taintedValues) : ∃ x ∈ occurrences M cfg, v = .inst x.1 := by
  rw [seedWorklist, foldl_seedInstruction] at hv
  refine foldl_invariant (I := fun r : SeedState => ∀ w ∈ r.pass.taintedValues,
    ∃ x ∈ occurrences M cfg, w = .inst x.1) (fun r x hx hr w hw => ?_) (fun w hw => ?_) v hv
  · rcases PassState.seedOperand_cases M cfg x.1 r x.2 with h | h
    · rw [h] at hw
      exact hr w hw
    · rw [h, PassState.mem_seedInst hmode] at hw
      exact hw.elim (fun hw => ⟨x, hx, hw⟩) (hr w)
  · rw [show (SeedState.pass _).taintedValues = _ from
      PassState.taintedValues_buildFunctionPointerTargets {}] at hw
    exact absurd hw (DenseSet.not_mem_empty w)

/-- Without an index every occurrence is seeded. -/
theorem occurrence_seeded (hmode : cfg.interprocMode = false) (hindex : cfg.occurrenceIndex = 0)
    {x : InstId × Value} (hx : x ∈ occurrences M cfg) :
    .inst x.1 ∈ (seedWorklist M cfg).taintedValues := by
  let step := fun (r : SeedState) (x : InstId × Value) => seedOperand M cfg x.1 r x.2
  -- with no index chosen the search never stops at an occurrence
  have hnever (r : SeedState) (y : InstId × Value) (hr : r.found = false) :
      (step r y).found = false := by
    simp only [step, seedOperand, hr, hindex]
    split
    · exact hr
    · split
      · split
        · simp
        · exact hr
      · exact hr
  have hvisit := foldl_visits
    (P := fun (y : InstId × Value) (r : SeedState) => r.found = false →
      isTrackedConstant cfg y.2 = true → .inst y.1 ∈ r.pass.taintedValues) (f := step)
    (occurrences M cfg) (fun r y _ hfound htracked => ?_) (fun r y _ z hz hfound htracked => ?_)
    ⟨PassState.buildFunctionPointerTargets M cfg {}, 0, false⟩ x hx
  · rw [seedWorklist, foldl_seedInstruction]
    apply hvisit
    · exact foldl_invariant (I := fun r : SeedState => r.found = false)
        (fun r y _ hr => hnever r y hr) rfl
    · obtain ⟨i, _, hx⟩ := List.mem_flatMap.mp hx
      obtain ⟨op, hop, rfl⟩ := List.mem_map.mp hx
      exact (List.mem_filter.mp hop).2
  · obtain ⟨i, op⟩ := y
    have hr : r.found = false := by
      by_contra hr
      have hstay : step r (i, op) = r := if_pos (by simpa using hr)
      rw [hstay] at hfound
      exact hr hfound
    -- only an integer constant can be the tracked one
    cases op with
    | constantInt type c =>
      have hc : c = cfg.constantToTrack := by simpa [isTrackedConstant] using htracked
      have hstep : (step r (i, .constantInt type c)).pass =
          r.pass.seedInst M cfg i (.constantInt type c) := by
        simp only [step, seedOperand, hr, hindex, if_pos hc]
        simp
      rw [hstep, PassState.mem_seedInst hmode]
      exact .inl rfl
    | _ => cases htracked
  · have hr : r.found = false := by
      by_contra hr
      have hstay : step r y = r := if_pos (by simpa using hr)
      rw [hstay] at hfound
      exact hr hfound
    exact (extends_seedOperand M cfg y.1 r y.2).taintedValues _ (hz hr htracked)

/-- The seeds of one occurrence are seeds of all of them. -/
theorem seeds_subset_allOccurrences (hmode : cfg.interprocMode = false) :
    (seedWorklist M cfg).taintedValues ⊆ (seedWorklist M cfg.allOccurrences).taintedValues ∧
      (seedWorklist M cfg).taintedPointers ⊆ (seedWorklist M cfg.allOccurrences).taintedPointers := by
  have hvalues (v : Value) (hv : v ∈ (seedWorklist M cfg).taintedValues) :
      v ∈ (seedWorklist M cfg.allOccurrences).taintedValues := by
    obtain ⟨x, hx, rfl⟩ := seed_of_occurrence hmode hv
    have hmode' : cfg.allOccurrences.interprocMode = false := hmode
    exact occurrence_seeded hmode' rfl hx
  refine ⟨hvalues, fun p hp => ?_⟩
  obtain ⟨i, hi, hstore⟩ := ((seeded_seedWorklist hmode).pointers p).mp hp
  have hall : PassState.Seeded M (seedWorklist M cfg.allOccurrences) := seeded_seedWorklist hmode
  exact (hall.pointers p).mpr ⟨i, hvalues _ hi, hstore⟩

end Seeds

/-! ## When the larger set of seeds taints more -/

section Condition

variable (M : Module) (cfg : Config)

/-- A load that a scan takes in the run for the one occurrence is not skipped when the run for all
occurrences scans the pointer, unless that run taints it in another way. -/
def SkipsSpareTaken (addr₁ addr₂ : Value → Nat) : Prop :=
  ∀ p i, ScanTakes M cfg addr₁ p i → ScanSkips M cfg.allOccurrences addr₂ p i →
    ReachSupplied M cfg.allOccurrences addr₂ (.inst i)

/-- `v` is reached from the seeds by uses and by loads of pointers that hold a reached value. -/
inductive MayReach : Value → Prop where
  | seed {v : Value} : v ∈ (seedWorklist M cfg).taintedValues → MayReach v
  | use {v w : Value} : MayReach v → PassesTo M v w → MayReach w
  | loadSeeded {q : Value} {i : InstId} : q ∈ (seedWorklist M cfg).taintedPointers →
      i ∈ M.insts → PassState.loadMatches M q i = true → MayReach (.inst i)
  | loadStored {v q : Value} {store i : InstId} : MayReach v → StoresTo M v store q →
      i ∈ M.insts → PassState.loadMatches M q i = true → MayReach (.inst i)

/-- `o` may be recorded as the origin of `p`. -/
def MayRecord (p : Value) (o : InstId) : Prop :=
  (p ∈ (seedWorklist M cfg).taintedPointers ∧
    (seedWorklist M cfg).pointerTaintOrigin.lookup p = some o) ∨ MayOriginate M cfg p o

/-- The seeds the run for all occurrences has on top put no load of a pointer before the pointer's
origin, and no store to it that stands before such a load among the kills: in that run the store is
before the origin, or holds or is what the seeds reach through uses; else it is a kill for the one
occurrence too. -/
def OccurrencesAgree : Prop :=
  ∀ p i, i ∈ M.insts → PassState.loadMatches M p i = true →
    ∀ o o', MayRecord M cfg p o → MayRecord M cfg.allOccurrences p o' →
      (i.precedes o' → i.precedes o) ∧
      ∀ kill value ptr, kill ∈ M.insts → M.kind kill = .store value ptr →
        M.stripPointerCasts ptr = p → kill.precedes i →
        kill.precedes o' ∨ ReachSeed M cfg.allOccurrences value ∨
          ReachSeed M cfg.allOccurrences (.inst kill) ∨
          (¬ MayReach M cfg value ∧ ¬ MayReach M cfg (.inst kill) ∧ ¬ kill.precedes o)

end Condition

section Runs

variable {M : Module} {cfg : Config} {addr : Value → Nat}

theorem ScanStart.mayReach (hmode : cfg.interprocMode = false) {s : PassState}
    (h : ScanStart M cfg addr s) : ∀ v ∈ s.taintedValues, MayReach M cfg v := by
  have hclosed {v w : Value} (hv : MayReach M cfg v)
      (hvw : Relation.ReflTransGen (PassesTo M) v w) : MayReach M cfg w := by
    induction hvw with
    | refl => exact hv
    | tail _ hstep ih => exact ih.use hstep
  induction h with
  | first hdrain =>
    intro v hv
    obtain ⟨w, hw, hwv⟩ := (((roundInv_seedWorklist M cfg).drained hmode hdrain).2.1 v).mp hv
    exact hclosed (.seed hw) hwv
  | @next fuel s t hs _ hdrain ih =>
    obtain ⟨hinv, hempty⟩ := hs.roundInv hmode
    intro v hv
    obtain ⟨w, hw, hwv⟩ := (((hinv.forwardScan hempty).drained hmode hdrain).2.1 v).mp hv
    apply hclosed _ hwv
    rcases ((PassState.forwardScan_spec s).taintedValues w).mp hw with
      hw | ⟨i, q, rfl, hi, hq, _, ht⟩
    · exact ih w hw
    · by_cases hseed : q ∈ (seedWorklist M cfg).taintedPointers
      · exact .loadSeeded hseed hi ht.1
      · obtain ⟨x, hx, _, store, hstore, _⟩ := hinv.origins q hq hseed
        exact .loadStored (ih x hx) hstore hi ht.1

/-- The origin of a pointer is a store to it of a tainted value, or a tainted store. -/
theorem ScanStart.recorded (hmode : cfg.interprocMode = false) {s : PassState}
    (h : ScanStart M cfg addr s) {p : Value} (hp : p ∈ s.taintedPointers) :
    ∃ o ∈ M.insts, s.pointerTaintOrigin.lookup p = some o ∧ MayRecord M cfg p o ∧
      ∃ value ptr, M.kind o = .store value ptr ∧
        (value ∈ s.taintedValues ∨ .inst o ∈ s.taintedValues) := by
  obtain ⟨hinv, _⟩ := h.roundInv hmode
  by_cases hseed : p ∈ (seedWorklist M cfg).taintedPointers
  · obtain ⟨o, hlookup, ho, hptr⟩ := (seeded_seedWorklist hmode).origins p hseed
    obtain ⟨i, hi, hoi⟩ := (seeded_seedWorklist hmode).insts _ ho
    obtain rfl := Value.inst.inj hoi
    have hstored : ∃ value ptr, M.kind o = .store value ptr := by
      rw [Module.storePointer] at hptr
      split at hptr
      next value ptr hkind => exact ⟨value, ptr, hkind⟩
      next => cases hptr
    obtain ⟨value, ptr, hkind⟩ := hstored
    refine ⟨o, hi, (hinv.seeded p hseed).2.trans hlookup, .inl ⟨hseed, hlookup⟩, value, ptr, hkind, ?_⟩
    exact .inr (h.mem_of_reachSeed hmode ⟨_, ho, .refl⟩)
  · obtain ⟨v, hv, hreach, o, hstore, hlookup⟩ := hinv.origins p hp hseed
    refine ⟨o, hstore.mem_insts, hlookup, .inr ⟨hseed, v, hreach, hstore⟩, ?_⟩
    obtain ⟨_, ptr, hkind, _⟩ := hstore
    exact ⟨v, ptr, hkind, .inl hv⟩

/-- What is known of the kills: the pointer is tainted, the store is not before its origin, and
neither the store nor its value is reached from the seeds through uses. -/
def KillsSettled (M : Module) (cfg : Config) (s : PassState) : Prop :=
  ∀ k ∈ s.killedStores, ∀ value ptr, M.kind k = .store value ptr →
    M.stripPointerCasts ptr ∈ s.taintedPointers ∧
    (∀ o, s.pointerTaintOrigin.lookup (M.stripPointerCasts ptr) = some o → ¬ k.precedes o) ∧
    ¬ ReachSeed M cfg value ∧ ¬ ReachSeed M cfg (.inst k)

theorem KillsSettled.mono {s t : PassState} (h : KillsSettled M cfg s)
    (hkills : t.killedStores = s.killedStores) (hpointers : s.taintedPointers ⊆ t.taintedPointers)
    (horigins : ∀ p ∈ s.taintedPointers,
      t.pointerTaintOrigin.lookup p = s.pointerTaintOrigin.lookup p) : KillsSettled M cfg t := by
  intro k hk value ptr hkind
  rw [hkills] at hk
  obtain ⟨hptr, horigin, hrest⟩ := h k hk value ptr hkind
  refine ⟨hpointers _ hptr, fun o ho => horigin o ?_, hrest⟩
  rwa [horigins _ hptr] at ho

theorem ScanStart.killsSettled_scan (hmode : cfg.interprocMode = false) {s : PassState}
    (h : ScanStart M cfg addr s) (hs : KillsSettled M cfg s) :
    KillsSettled M cfg (s.forwardScan M addr) := by
  have hscan : PassState.Rescanned M s (s.forwardScan M addr) := PassState.forwardScan_spec s
  intro k hk value ptr hkind
  rw [hscan.taintedPointers, hscan.pointerTaintOrigin]
  rcases (hscan.kills k).mp hk with hk | ⟨hmem, value', ptr', hkind', hptr, hvalue, hstore, hvalid⟩
  · exact hs k hk value ptr hkind
  · rw [hkind] at hkind'
    cases hkind'
    refine ⟨hptr, fun o ho => ?_, fun hreach => hvalue (h.mem_of_reachSeed hmode hreach),
      fun hreach => hstore (h.mem_of_reachSeed hmode hreach)⟩
    obtain ⟨o', ho', hlookup, _, w, q, hkind', htainted⟩ := h.recorded hmode hptr
    rw [ho] at hlookup
    obtain rfl := Option.some.inj hlookup
    -- an origin is tainted or stores a tainted value, a kill does neither
    have hne : k ≠ o := by
      intro hko
      subst hko
      rw [hkind] at hkind'
      cases hkind'
      exact htainted.elim hvalue hstore
    exact (PassState.isValidKill_iff_not_precedes hmem ho' hne ho).mp hvalid

theorem ScanStart.killsSettled (hmode : cfg.interprocMode = false) {s : PassState}
    (h : ScanStart M cfg addr s) : KillsSettled M cfg s := by
  induction h with
  | first hdrain =>
    have hdrained := (roundInv_seedWorklist M cfg).drained hmode hdrain
    intro k hk
    rw [hdrained.1.keeps.killedStores] at hk
    have hnone : (seedWorklist M cfg).killedStores = ∅ :=
      (keepsScans_seedWorklist M cfg).killedStores
    rw [hnone] at hk
    exact absurd hk (DenseSet.not_mem_empty k)
  | @next fuel s t hs _ hdrain ih =>
    obtain ⟨hinv, hempty⟩ := hs.roundInv hmode
    have hdrained := ((hinv.forwardScan hempty).drained hmode hdrain).1
    exact (hs.killsSettled_scan hmode ih).mono hdrained.keeps.killedStores hdrained.pointers
      hdrained.oldOrigins

/-- Under the condition on the origins and kills no load taken for the one occurrence is skipped. -/
theorem skipsSpareTaken_of_agree (hmode : cfg.interprocMode = false) (hagree : OccurrencesAgree M cfg)
    (addr₁ addr₂ : Value → Nat) : SkipsSpareTaken M cfg addr₁ addr₂ := by
  intro p i ⟨s, ⟨hs, hp, _, hi, hm⟩, htaken⟩ ⟨u, ⟨hu, hpu, _, _, _⟩, hskip⟩
  -- a load taken in the run for one occurrence is not skipped in the run for all of them
  exfalso
  apply hskip
  have hmode' : cfg.allOccurrences.interprocMode = false := hmode
  obtain ⟨o, ho, hlookup, hrec, _⟩ := hs.recorded hmode hp
  obtain ⟨o', ho', hlookup', hrec', _⟩ := hu.recorded hmode' hpu
  obtain ⟨horder, hkills⟩ := hagree p i hi hm o o' hrec hrec'
  have hscan : PassState.Rescanned M s (s.forwardScan M addr₁) := PassState.forwardScan_spec s
  have hscan' : PassState.Rescanned M u (u.forwardScan M addr₂) := PassState.forwardScan_spec u
  obtain ⟨_, hfree, hafter⟩ := htaken
  refine ⟨hm, fun hk => hfree ?_, fun hb => hafter ?_⟩
  · obtain ⟨k, hkilled, hptr, hmem, _, hpre⟩ := PassState.afterKill_iff.mp hk
    obtain ⟨value, ptr, hkind, rfl⟩ : ∃ value ptr, M.kind k = .store value ptr ∧
        M.stripPointerCasts ptr = p := by
      rw [Module.storePointer] at hptr
      split at hptr
      next value ptr hkind => exact ⟨value, ptr, hkind, Option.some.inj hptr⟩
      next => cases hptr
    obtain ⟨_, hnot, hvalue, hstore⟩ :=
      hu.killsSettled_scan hmode' (hu.killsSettled hmode') k hkilled value ptr hkind
    rw [hscan'.pointerTaintOrigin] at hnot
    -- a store that kills in the run for all occurrences: the agreement leaves one way
    rcases hkills k value ptr hmem hkind rfl hpre with h | h | h | ⟨hv, hk', hnot'⟩
    · exact absurd h (hnot o' hlookup')
    · exact absurd h hvalue
    · exact absurd h hstore
    · -- the store is a kill in the run for the one occurrence as well
      have hne : k ≠ o := fun hko => hnot' (hko ▸ ⟨rfl, rfl, Nat.le_refl _⟩)
      apply PassState.afterKill_iff.mpr
      refine ⟨k, (hscan.kills k).mpr (.inr ⟨hmem, value, ptr, hkind, hp, ?_, ?_, ?_⟩), hptr, hmem,
        hi, hpre⟩
      · exact fun h => hv (hs.mayReach hmode value h)
      · exact fun h => hk' (hs.mayReach hmode _ h)
      · exact (PassState.isValidKill_iff_not_precedes hmem ho hne hlookup).mpr hnot'
  · rw [PassState.isLoadBeforeTaintOrigin, hscan.pointerTaintOrigin,
      ← PassState.isLoadBeforeTaintOrigin, PassState.isLoadBeforeTaintOrigin_iff hi ho hlookup]
    rw [PassState.isLoadBeforeTaintOrigin, hscan'.pointerTaintOrigin,
      ← PassState.isLoadBeforeTaintOrigin, PassState.isLoadBeforeTaintOrigin_iff hi ho' hlookup'] at hb
    exact horder hb

end Runs

/-- With both interprocedural directions off a run ends with the forward phase. -/
theorem run_eq_forwardPhase {M : Module} {cfg : Config} {addr : Value → Nat}
    (hup : cfg.upwardInterprocMode = false) (fuel : Nat) :
    run M cfg addr fuel = forwardPhase M cfg addr fuel := by
  have hidle (s : PassState) : s.upwardPhase M addr cfg fuel = some s := by
    rw [PassState.upwardPhase, hup, Bool.false_and, if_neg (by decide)]
  rw [run, funext hidle]
  cases forwardPhase M cfg addr fuel <;> rfl

/-- **Seed monotonicity.**  The run for all occurrences taints what the run for one of them does, if
and only if it skips no load that the latter takes, other than loads it taints in another way.  That
is so where the order tests cannot tell the possible origins and kills of the two runs apart. -/
theorem run_allOccurrences_iff (M : Module) (cfg : Config) (hdown : cfg.interprocMode = false)
    (hup : cfg.upwardInterprocMode = false) (addr₁ addr₂ : Value → Nat) (fuel₁ fuel₂ : Nat)
    (s t : PassState) (hs : run M cfg addr₁ fuel₁ = some s)
    (ht : run M cfg.allOccurrences addr₂ fuel₂ = some t) :
    (s.taintedValues ⊆ t.taintedValues ↔ SkipsSpareTaken M cfg addr₁ addr₂) ∧
      (OccurrencesAgree M cfg → SkipsSpareTaken M cfg addr₁ addr₂) := by
  have hup' : cfg.allOccurrences.upwardInterprocMode = false := hup
  rw [run_eq_forwardPhase hup] at hs
  rw [run_eq_forwardPhase hup'] at ht
  obtain ⟨hvalues, hpointers⟩ := seeds_subset_allOccurrences (M := M) hdown
  have hdown' : cfg.allOccurrences.interprocMode = false := hdown
  constructor
  · exact forwardPhase_subset_iff hdown hdown' hvalues hpointers hs ht
  · exact fun hagree => skipsSpareTaken_of_agree hdown hagree addr₁ addr₂

theorem occurrencesAgree_loopModule : OccurrencesAgree loopModule intraproceduralConfig := by
  have hone : ∀ o ∈ loopModule.insts, (loopModule.storePointer o).isSome = true →
      o = ⟨0, 1, 2⟩ := by decide
  have hisSome {v p : Value} {store : InstId} (h : StoresTo loopModule v store p) :
      (loopModule.storePointer store).isSome = true := by
    obtain ⟨_, ptr, hkind, _⟩ := h
    rw [Module.storePointer, hkind]
    rfl
  have hseed (cfg : Config) (h : ∀ p, p ∉ (seedWorklist loopModule cfg).taintedPointers)
      (p : Value) (o : InstId) (hrec : MayRecord loopModule cfg p o) : o = ⟨0, 1, 2⟩ := by
    rcases hrec with ⟨hp, _⟩ | ⟨_, v, _, hstore⟩
    · exact absurd hp (h p)
    · exact hone o hstore.mem_insts (hisSome hstore)
  have hnone₁ : (seedWorklist loopModule intraproceduralConfig).taintedPointers.elems = [] := by decide
  have hnone₂ : (seedWorklist loopModule intraproceduralConfig.allOccurrences).taintedPointers.elems =
      [] := by decide
  intro p i _ _ o o' h₁ h₂
  obtain rfl := hseed _ (fun q hq => by
    rw [DenseSet.mem_def, hnone₁] at hq
    cases hq) p o h₁
  obtain rfl := hseed _ (fun q hq => by
    rw [DenseSet.mem_def, hnone₂] at hq
    cases hq) p o' h₂
  refine ⟨id, fun kill value ptr hmem hkind hptr _ => .inl ?_⟩
  obtain rfl := hone kill hmem (by rw [Module.storePointer, hkind]; rfl)
  exact ⟨rfl, rfl, Nat.le_refl _⟩

/-- Two constants, each stored to the variable that is read in between. -/
def secondSeedModule : Module :=
  .ofFunctions [{
    name := "f".toList
    argIsPointerTy := []
    blocks := [[
      { kind := .alloca false (.constantInt 32 1) },
      { kind := .other "add".toList [.constantInt 32 5, .constant 0] [] },
      { kind := .store (.inst ⟨0, 0, 1⟩) (.inst ⟨0, 0, 0⟩) },
      { kind := .load (.inst ⟨0, 0, 0⟩) },
      { kind := .other "add".toList [.constantInt 32 5, .constant 1] [] },
      { kind := .store (.inst ⟨0, 0, 4⟩) (.inst ⟨0, 0, 0⟩) },
      { kind := .ret none }]] }] id

theorem run_allOccurrences_iff_loopModule :
    ∃ s t, run loopModule intraproceduralConfig Value.slot 5 = some s ∧
      run loopModule intraproceduralConfig.allOccurrences Value.slot 5 = some t ∧
      s.taintedValues ⊆ t.taintedValues := by
  have h₁ : (run loopModule intraproceduralConfig Value.slot 5).isSome = true := by decide
  have h₂ : (run loopModule intraproceduralConfig.allOccurrences Value.slot 5).isSome = true := by
    decide
  obtain ⟨s, hs⟩ := Option.isSome_iff_exists.mp h₁
  obtain ⟨t, ht⟩ := Option.isSome_iff_exists.mp h₂
  obtain ⟨hiff, hspare⟩ := run_allOccurrences_iff loopModule intraproceduralConfig rfl rfl
    Value.slot Value.slot 5 5 s t hs ht
  exact ⟨s, t, hs, ht, hiff.mpr (hspare occurrencesAgree_loopModule)⟩

/-- The worklist is a stack: the second sum is visited first, its store becomes the origin, and the
load of the first one comes before it. -/
theorem run_allOccurrences_loses_load :
    ¬ ∀ (M : Module) (cfg : Config), cfg.interprocMode = false → cfg.indirectCallMode = false →
      cfg.upwardInterprocMode = false → 1 ≤ cfg.occurrenceIndex → ∀ (addr : Value → Nat) fuel s t,
      run M cfg addr fuel = some s → run M cfg.allOccurrences addr fuel = some t →
      s.taintedValues ⊆ t.taintedValues := by
  intro hall
  have h₁ : (run secondSeedModule intraproceduralConfig Value.slot 5).map
      (fun s => decide (.inst ⟨0, 0, 3⟩ ∈ s.taintedValues)) = some true := by decide
  have h₂ : (run secondSeedModule intraproceduralConfig.allOccurrences Value.slot 5).map
      (fun s => decide (.inst ⟨0, 0, 3⟩ ∈ s.taintedValues)) = some false := by decide
  obtain ⟨s, hs, hin⟩ := Option.map_eq_some_iff.mp h₁
  obtain ⟨t, ht, hout⟩ := Option.map_eq_some_iff.mp h₂
  have hsub := hall secondSeedModule intraproceduralConfig rfl rfl rfl (by decide) Value.slot 5 s t
    hs ht
  exact of_decide_eq_false hout (hsub _ (of_decide_eq_true hin))

end LinuxAnalysis
