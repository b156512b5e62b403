import LinuxAnalysis.Pass.DrainSpec
import LinuxAnalysis.Pass.MemoryTaint

/-!
# Turns of the forward loop

A turn drains the worklist and scans the pointers that are new.  Without interprocedural tracking the
result is settled by the loads that the scans take: every tainted value is reached through uses from
a seed or from such a load.  The statements are about the states in which a scan starts.
-/

open LinuxAnalysis.Lib

namespace LinuxAnalysis

/-! ## The invariant between two turns -/

/-- `v` may be tainted while `p` is not: it is reached from the seeds by uses and by loads of pointers
that hold a reached value, and no value on the way before it is stored to `p`.  The order and kill
tests of the scan are left out. -/
inductive MayReachFirst (M : Module) (cfg : Config) (p : Value) : Value → Prop where
  | seed {v : Value} : v ∈ (seedWorklist M cfg).taintedValues → MayReachFirst M cfg p v
  | use {v w : Value} : MayReachFirst M cfg p v → (∀ store, ¬ StoresTo M v store p) →
      PassesTo M v w → MayReachFirst M cfg p w
  | loadSeeded {q : Value} {i : InstId} : q ∈ (seedWorklist M cfg).taintedPointers →
      i ∈ M.insts → PassState.loadMatches M q i = true → MayReachFirst M cfg p (.inst i)
  | loadStored {v q : Value} {store i : InstId} : MayReachFirst M cfg p v →
      (∀ store, ¬ StoresTo M v store p) → StoresTo M v store q → i ∈ M.insts →
      PassState.loadMatches M q i = true → MayReachFirst M cfg p (.inst i)

/-- `store` may be the first tainted store to reach `p`, which seeding has not tainted. -/
def MayOriginate (M : Module) (cfg : Config) (p : Value) (store : InstId) : Prop :=
  p ∉ (seedWorklist M cfg).taintedPointers ∧ ∃ v, MayReachFirst M cfg p v ∧ StoresTo M v store p

namespace PassState

variable {M : Module} {cfg : Config}

/-- What holds between two turns of the forward loop. -/
structure RoundInv (M : Module) (cfg : Config) (s : PassState) : Prop where
  processed : Processed M s
  queued : ∀ v ∈ s.worklist, v ∈ s.taintedValues
  reach : ∀ p, p ∉ s.taintedPointers → ∀ v ∈ s.taintedValues, MayReachFirst M cfg p v
  seeded : ∀ p ∈ (seedWorklist M cfg).taintedPointers, p ∈ s.taintedPointers ∧
    s.pointerTaintOrigin.lookup p = (seedWorklist M cfg).pointerTaintOrigin.lookup p
  origins : ∀ p ∈ s.taintedPointers, p ∉ (seedWorklist M cfg).taintedPointers →
    ∃ v ∈ s.taintedValues, MayReachFirst M cfg p v ∧
      ∃ store, StoresTo M v store p ∧ s.pointerTaintOrigin.lookup p = some store

theorem RoundInv.reachAvoiding {s : PassState} (hs : RoundInv M cfg s) {p v : Value}
    (hp : p ∉ s.taintedPointers) (h : ReachAvoiding M s.taintedValues p v) :
    MayReachFirst M cfg p v := by
  obtain ⟨w, hw, hwv⟩ := h
  induction hwv with
  | refl => exact hs.reach p hp w hw
  | tail _ hstep ih => exact ih.use hstep.2 hstep.1

theorem RoundInv.forwardDrain {addr : Value → Nat} (hmode : cfg.interprocMode = false) {fuel : Nat}
    {s t : PassState} (hs : RoundInv M cfg s) (hchanged : s.changed = false)
    (h : s.forwardDrain M cfg addr fuel = some t) : RoundInv M cfg t := by
  obtain ⟨hdrained, _, _⟩ := forwardDrain_exact hmode hs.processed hs.queued hchanged h
  refine ⟨(forwardDrain_spec hs.processed h).1, hdrained.queued, fun p hp v hv => ?_,
    fun p hp => ?_, fun p hp hseed => ?_⟩
  · have hnew : p ∉ s.taintedPointers := fun hold => hp (hdrained.pointers p hold)
    rcases hdrained.avoiding p hp v hv with hreach | ⟨_, hcur, _⟩
    · exact hs.reachAvoiding hnew hreach
    · cases hcur
  · obtain ⟨hptr, hlookup⟩ := hs.seeded p hp
    exact ⟨hdrained.pointers p hptr, (hdrained.oldOrigins p hptr).trans hlookup⟩
  · by_cases hold : p ∈ s.taintedPointers
    · obtain ⟨v, hv, hreach, store, hstore, hlookup⟩ := hs.origins p hold hseed
      exact ⟨v, hdrained.values v hv, hreach, store, hstore,
        (hdrained.oldOrigins p hold).trans hlookup⟩
    · obtain ⟨v, hv, hreach, hstore⟩ := hdrained.newOrigins p hp hold
      exact ⟨v, hv, hs.reachAvoiding hold hreach, hstore⟩

theorem RoundInv.forwardScan {addr : Value → Nat} {s : PassState} (hs : RoundInv M cfg s)
    (hempty : s.worklist = []) : RoundInv M cfg (s.forwardScan M addr) := by
  have hscan : Rescanned M s (s.forwardScan M addr) := forwardScan_spec s
  have hext := extends_forwardScan M addr s
  refine ⟨hs.processed.mono hext, fun v hv => ?_, fun p hp v hv => ?_, fun p hp => ?_,
    fun p hp hseed => ?_⟩
  · exact (hext.pushed v hv).elim (fun h => hext.taintedValues v (hs.queued v h)) id
  · rw [hscan.taintedPointers] at hp
    rcases (hscan.taintedValues v).mp hv with hv | ⟨i, q, rfl, hi, hq, _, hm, _⟩
    · exact hs.reach p hp v hv
    · by_cases hseed : q ∈ (seedWorklist M cfg).taintedPointers
      · exact .loadSeeded hseed hi hm
      · obtain ⟨v, hv, _, store, hstore, _⟩ := hs.origins q hq hseed
        refine .loadStored (hs.reach p hp v hv) (fun store' hstore' => hp ?_) hstore hi hm
        refine UseRecorded.stores ((hs.processed v hv).resolve_left ?_) hstore'
        rw [hempty]
        exact List.not_mem_nil
  · rw [hscan.taintedPointers, hscan.pointerTaintOrigin]
    exact hs.seeded p hp
  · rw [hscan.taintedPointers] at hp
    rw [hscan.pointerTaintOrigin]
    obtain ⟨v, hv, hreach, hstore⟩ := hs.origins p hp hseed
    exact ⟨v, hext.taintedValues v hv, hreach, hstore⟩

theorem RoundInv.withChanged {s : PassState} (h : RoundInv M cfg s) (b : Bool) :
    RoundInv M cfg { s with changed := b } :=
  { h with processed := h.processed.mono (extends_changed s b) }

end PassState

theorem roundInv_seedWorklist (M : Module) (cfg : Config) :
    PassState.RoundInv M cfg { seedWorklist M cfg with changed := true } where
  processed := (processed_seedWorklist M cfg).mono (PassState.extends_changed _ true)
  queued v hv := ((extends_seedWorklist M cfg).pushed v hv).resolve_left List.not_mem_nil
  reach _ _ _ hv := .seed hv
  seeded _ hp := ⟨hp, rfl⟩
  origins _ hp hseed := absurd hp hseed

/-! ## Scans -/

/-- States in which the scan of a turn starts. -/
inductive ScanStart (M : Module) (cfg : Config) (addr : Value → Nat) : PassState → Prop where
  | first {fuel : Nat} {s : PassState} :
      PassState.forwardDrain M cfg addr fuel { seedWorklist M cfg with changed := false } = some s →
      ScanStart M cfg addr s
  | next {fuel : Nat} {s t : PassState} : ScanStart M cfg addr s →
      (s.forwardScan M addr).changed = true →
      PassState.forwardDrain M cfg addr fuel { s.forwardScan M addr with changed := false } = some t →
      ScanStart M cfg addr t

section Loads

variable (M : Module) (cfg : Config) (addr : Value → Nat)

/-- Load `i` stands before a scan of `p` that starts in `s`. -/
def ScanVisits (p : Value) (i : InstId) (s : PassState) : Prop :=
  ScanStart M cfg addr s ∧ p ∈ s.taintedPointers ∧ p ∉ s.scannedPointers ∧ i ∈ M.insts ∧
    PassState.loadMatches M p i = true

/-- The scan of `p` taints `i`. -/
def ScanTakes (p : Value) (i : InstId) : Prop :=
  ∃ s, ScanVisits M cfg addr p i s ∧ PassState.Taken M (s.forwardScan M addr) p i

/-- The scan of `p` passes over `i` because of a kill or of the recorded origin. -/
def ScanSkips (p : Value) (i : InstId) : Prop :=
  ∃ s, ScanVisits M cfg addr p i s ∧ ¬ PassState.Taken M (s.forwardScan M addr) p i

/-- Where use chains start: at a seed, or at a load that a scan takes. -/
def Supplied (v : Value) : Prop :=
  v ∈ (seedWorklist M cfg).taintedValues ∨ ∃ p i, ScanTakes M cfg addr p i ∧ v = .inst i

/-- `v` is reached through uses from a seed. -/
def ReachSeed (v : Value) : Prop :=
  ∃ w ∈ (seedWorklist M cfg).taintedValues, Relation.ReflTransGen (PassesTo M) w v

/-- `v` is reached through uses from a seed or from a load that a scan takes. -/
def ReachSupplied (v : Value) : Prop :=
  ∃ w, Supplied M cfg addr w ∧ Relation.ReflTransGen (PassesTo M) w v

end Loads

section Runs

variable {M : Module} {cfg : Config} {addr : Value → Nat}

/-! ## Invariants at the scans -/

theorem ScanStart.roundInv (hmode : cfg.interprocMode = false) {s : PassState}
    (h : ScanStart M cfg addr s) : PassState.RoundInv M cfg s ∧ s.worklist = [] := by
  induction h with
  | first hdrain =>
    have hseed : PassState.RoundInv M cfg { seedWorklist M cfg with changed := false } :=
      (roundInv_seedWorklist M cfg).withChanged false
    exact ⟨hseed.forwardDrain hmode rfl hdrain, (PassState.forwardDrain_spec hseed.processed hdrain).2⟩
  | @next fuel s t _ _ hdrain ih =>
    have hscan : PassState.RoundInv M cfg { s.forwardScan M addr with changed := false } :=
      (ih.1.forwardScan ih.2).withChanged false
    exact ⟨hscan.forwardDrain hmode rfl hdrain, (PassState.forwardDrain_spec hscan.processed hdrain).2⟩

/-- The drain that leads to a scan, from the state `s` it started in. -/
theorem PassState.RoundInv.drained (hmode : cfg.interprocMode = false) {s t : PassState} {fuel : Nat}
    (hs : PassState.RoundInv M cfg s)
    (h : PassState.forwardDrain M cfg addr fuel { s with changed := false } = some t) :
    PassState.Drained M { s with changed := false } none t ∧
      (∀ v, v ∈ t.taintedValues ↔
        ∃ w ∈ s.taintedValues, Relation.ReflTransGen (PassesTo M) w v) ∧
      ∀ p, p ∈ t.taintedPointers ↔
        p ∈ s.taintedPointers ∨ ∃ v ∈ t.taintedValues, ∃ store, StoresTo M v store p :=
  PassState.forwardDrain_exact hmode (hs.withChanged false).processed hs.queued rfl h

/-- The first drain taints what the seeds reach. -/
theorem ScanStart.mem_of_reachSeed (hmode : cfg.interprocMode = false) {s : PassState}
    (h : ScanStart M cfg addr s) {v : Value} (hv : ReachSeed M cfg v) : v ∈ s.taintedValues := by
  induction h with
  | first hdrain => exact (((roundInv_seedWorklist M cfg).drained hmode hdrain).2.1 v).mpr hv
  | @next fuel s t hs _ hdrain ih =>
    obtain ⟨hinv, hempty⟩ := hs.roundInv hmode
    apply ((hinv.forwardScan hempty).drained hmode hdrain).1.values
    exact (PassState.extends_forwardScan M addr s).taintedValues v ih

theorem scannedPointers_seedWorklist (M : Module) (cfg : Config) (p : Value) :
    p ∉ (seedWorklist M cfg).scannedPointers := by
  rw [(keepsScans_seedWorklist M cfg).scannedPointers]
  exact DenseSet.not_mem_empty p

/-- A pointer that is tainted or scanned when a scan starts is scanned by that turn or an earlier
one. -/
theorem ScanStart.visits (hmode : cfg.interprocMode = false) {s : PassState}
    (h : ScanStart M cfg addr s) {p : Value}
    (hp : p ∈ s.taintedPointers ∨ p ∈ s.scannedPointers) {i : InstId} (hi : i ∈ M.insts)
    (hm : PassState.loadMatches M p i = true) : ∃ u, ScanVisits M cfg addr p i u := by
  induction h with
  | @first fuel s hdrain =>
    have hseed := (roundInv_seedWorklist M cfg).drained hmode hdrain
    have hnew : p ∉ s.scannedPointers := by
      rw [hseed.1.keeps.scannedPointers]
      exact scannedPointers_seedWorklist M cfg p
    exact ⟨s, .first hdrain, hp.resolve_right hnew, hnew, hi, hm⟩
  | @next fuel s t hs hchanged hdrain ih =>
    obtain ⟨hinv, hempty⟩ := hs.roundInv hmode
    have hdrained := (hinv.forwardScan hempty).drained hmode hdrain
    by_cases hnew : p ∈ t.scannedPointers
    · apply ih
      rw [hdrained.1.keeps.scannedPointers] at hnew
      exact ((PassState.forwardScan_spec s).scannedPointers p).mp hnew |>.symm
    · exact ⟨t, .next hs hchanged hdrain, hp.resolve_right hnew, hnew, hi, hm⟩

/-! ## The last turn -/

/-- The loop exits after the scan of some turn. -/
theorem forwardPhase_lastScan {fuel : Nat} {t : PassState}
    (h : forwardPhase M cfg addr fuel = some t) :
    ∃ s, ScanStart M cfg addr s ∧ t = s.forwardScan M addr := by
  obtain ⟨hend, hcond⟩ := whileLoop_invariant
    (I := fun u : PassState => u = { seedWorklist M cfg with changed := true } ∨
      ∃ s, ScanStart M cfg addr s ∧ u = s.forwardScan M addr)
    (fun u w hu hc huw => by
      obtain ⟨s, hdrain, rfl⟩ := Option.map_eq_some_iff.mp huw
      rcases hu with rfl | ⟨r, hr, rfl⟩
      · exact .inr ⟨s, .first hdrain, rfl⟩
      · exact .inr ⟨s, .next hr hc hdrain, rfl⟩)
    (.inl rfl) h
  rcases hend with rfl | hend
  · cases hcond
  · exact hend

theorem forwardDrain_unique {fuel₁ fuel₂ : Nat} {s t₁ t₂ : PassState}
    (h₁ : s.forwardDrain M cfg addr fuel₁ = some t₁)
    (h₂ : s.forwardDrain M cfg addr fuel₂ = some t₂) : t₁ = t₂ :=
  whileLoop_rel (R := Eq) (fun _ _ h => by rw [h])
    (fun _ _ _ _ h _ h₁ h₂ => by rw [h, h₂] at h₁; exact (Option.some.inj h₁).symm) rfl h₁ h₂

/-- The loop passes through the end of every turn. -/
theorem ScanStart.rest {fuel : Nat} {t : PassState} (h : forwardPhase M cfg addr fuel = some t)
    {s : PassState} (hs : ScanStart M cfg addr s) :
    ∃ n, whileLoop (·.changed) (PassState.forwardRound M cfg addr fuel) n (s.forwardScan M addr) =
      some t := by
  have hturn {u w : PassState} {n m : Nat} (hc : u.changed = true)
      (hloop : whileLoop (·.changed) (PassState.forwardRound M cfg addr fuel) n u = some t)
      (hdrain : PassState.forwardDrain M cfg addr m { u with changed := false } = some w) :
      ∃ k, whileLoop (·.changed) (PassState.forwardRound M cfg addr fuel) k
        (w.forwardScan M addr) = some t := by
    cases n with
    | zero => cases hloop
    | succ n =>
      rw [whileLoop_succ, if_pos hc, Option.bind_eq_some_iff] at hloop
      obtain ⟨x, hx, hrest⟩ := hloop
      obtain ⟨w', hdrain', rfl⟩ := Option.map_eq_some_iff.mp hx
      rw [forwardDrain_unique hdrain hdrain']
      exact ⟨n, hrest⟩
  induction hs with
  | first hdrain => exact hturn rfl h hdrain
  | next _ hc hdrain ih =>
    obtain ⟨n, hn⟩ := ih
    exact hturn hc hn hdrain

/-- What is tainted after a turn stays tainted. -/
theorem ScanStart.subset_end (hmode : cfg.interprocMode = false) {fuel : Nat} {t : PassState}
    (h : forwardPhase M cfg addr fuel = some t) {s : PassState} (hs : ScanStart M cfg addr s) :
    (s.forwardScan M addr).taintedValues ⊆ t.taintedValues := by
  obtain ⟨n, hn⟩ := hs.rest h
  obtain ⟨hinv, hempty⟩ := hs.roundInv hmode
  have hend := whileLoop_invariant
    (I := fun u : PassState => PassState.RoundInv M cfg u ∧
      (s.forwardScan M addr).taintedValues ⊆ u.taintedValues)
    (fun u w hu _ huw => by
      obtain ⟨x, hdrain, rfl⟩ := Option.map_eq_some_iff.mp huw
      obtain ⟨hdrained, _⟩ := hu.1.drained hmode hdrain
      have hx := (hu.1.withChanged false).forwardDrain hmode rfl hdrain
      have hxempty := (PassState.forwardDrain_spec (hu.1.withChanged false).processed hdrain).2
      have hscan := (PassState.extends_forwardScan M addr x).taintedValues
      exact ⟨hx.forwardScan hxempty, fun v hv => hscan v (hdrained.values v (hu.2 v hv))⟩)
    ⟨hinv.forwardScan hempty, DenseSet.Subset.refl _⟩ hn
  exact hend.1.2

/-! ## The result -/

theorem ReachSupplied.tail {v w : Value} (h : ReachSupplied M cfg addr v)
    (hvw : Relation.ReflTransGen (PassesTo M) v w) : ReachSupplied M cfg addr w := by
  obtain ⟨x, hx, hxv⟩ := h
  exact ⟨x, hx, hxv.trans hvw⟩

theorem ScanStart.supplied (hmode : cfg.interprocMode = false) {s : PassState}
    (h : ScanStart M cfg addr s) :
    (∀ v ∈ s.taintedValues, ReachSupplied M cfg addr v) ∧
      ∀ v ∈ (s.forwardScan M addr).taintedValues, ReachSupplied M cfg addr v := by
  -- a scan adds the loads it takes, whatever is known of the state it starts in
  have hscan {s : PassState} (hs : ScanStart M cfg addr s)
      (hall : ∀ v ∈ s.taintedValues, ReachSupplied M cfg addr v) :
      ∀ v ∈ (s.forwardScan M addr).taintedValues, ReachSupplied M cfg addr v := by
    intro v hv
    rcases ((PassState.forwardScan_spec s).taintedValues v).mp hv with hv | ⟨i, p, rfl, hi, hp, hnew, ht⟩
    · exact hall v hv
    · exact ⟨_, .inr ⟨p, i, ⟨s, ⟨hs, hp, hnew, hi, ht.1⟩, ht⟩, rfl⟩, .refl⟩
  induction h with
  | @first fuel s hdrain =>
    have hall : ∀ v ∈ s.taintedValues, ReachSupplied M cfg addr v := by
      intro v hv
      obtain ⟨w, hw, hwv⟩ := (((roundInv_seedWorklist M cfg).drained hmode hdrain).2.1 v).mp hv
      exact ⟨w, .inl hw, hwv⟩
    exact ⟨hall, hscan (.first hdrain) hall⟩
  | @next fuel s t hs hchanged hdrain ih =>
    obtain ⟨hinv, hempty⟩ := hs.roundInv hmode
    have hall : ∀ v ∈ t.taintedValues, ReachSupplied M cfg addr v := by
      intro v hv
      obtain ⟨w, hw, hwv⟩ := (((hinv.forwardScan hempty).drained hmode hdrain).2.1 v).mp hv
      exact (ih.2 w hw).tail hwv
    exact ⟨hall, hscan (.next hs hchanged hdrain) hall⟩

/-- **The tainted values of the forward phase** are those that the seeds and the loads taken by the
scans reach through uses. -/
theorem mem_forwardPhase_iff (hmode : cfg.interprocMode = false) {fuel : Nat} {t : PassState}
    (h : forwardPhase M cfg addr fuel = some t) {v : Value} :
    v ∈ t.taintedValues ↔ ReachSupplied M cfg addr v := by
  obtain ⟨s, hs, rfl⟩ := forwardPhase_lastScan h
  constructor
  · exact (hs.supplied hmode).2 v
  · rintro ⟨w, hw, hwv⟩
    induction hwv with
    | refl =>
      rcases hw with hw | ⟨p, i, ⟨u, ⟨hu, hp, hnew, hi, _⟩, ht⟩, rfl⟩
      · apply (PassState.extends_forwardScan M addr s).taintedValues
        exact hs.mem_of_reachSeed hmode ⟨w, hw, .refl⟩
      · apply hu.subset_end hmode h
        exact ((PassState.forwardScan_spec u).taintedValues _).mpr
          (.inr ⟨i, p, rfl, hi, hp, hnew, ht⟩)
    | tail _ hstep ih =>
      exact PassState.UseRecorded.passes ((forwardPhase_processed h).2 _ ih) hstep

/-- The tainted pointers at the end. -/
theorem mem_pointers_forwardPhase (hmode : cfg.interprocMode = false) {fuel : Nat} {t : PassState}
    (h : forwardPhase M cfg addr fuel = some t) {p : Value}
    (hp : p ∈ (seedWorklist M cfg).taintedPointers ∨
      ∃ v ∈ t.taintedValues, ∃ store, StoresTo M v store p) : p ∈ t.taintedPointers := by
  rcases hp with hp | ⟨v, hv, store, hstore⟩
  · obtain ⟨s, hs, rfl⟩ := forwardPhase_lastScan h
    apply (PassState.extends_forwardScan M addr s).taintedPointers
    exact ((hs.roundInv hmode).1.seeded p hp).1
  · exact PassState.UseRecorded.stores ((forwardPhase_processed h).2 v hv) hstore

end Runs

/-! ## Two runs -/

section TwoRuns

variable {M : Module} {cfg cfg' : Config} {addr addr' : Value → Nat}

/-- A load that a scan takes in the one run is not skipped when the other run scans the pointer,
unless that run taints it in another way. -/
def SparesLoads (M : Module) (cfg : Config) (addr : Value → Nat) (cfg' : Config)
    (addr' : Value → Nat) : Prop :=
  ∀ p i, ScanTakes M cfg addr p i → ScanSkips M cfg' addr' p i → ReachSupplied M cfg' addr' (.inst i)

/-- A run that has the seeds of another one and skips none of the loads taken there has all its
taint. -/
theorem ScanStart.subset_of_spares (hmode : cfg.interprocMode = false)
    (hmode' : cfg'.interprocMode = false)
    (hvalues : (seedWorklist M cfg).taintedValues ⊆ (seedWorklist M cfg').taintedValues)
    (hpointers : (seedWorklist M cfg).taintedPointers ⊆ (seedWorklist M cfg').taintedPointers)
    (hspare : SparesLoads M cfg addr cfg' addr') {fuel : Nat} {t : PassState}
    (ht : forwardPhase M cfg' addr' fuel = some t) {s : PassState} (hs : ScanStart M cfg addr s) :
    s.taintedValues ⊆ t.taintedValues ∧ s.taintedPointers ⊆ t.taintedPointers ∧
      (s.forwardScan M addr).taintedValues ⊆ t.taintedValues := by
  -- the larger run is closed under use, so what the drain reaches from inside stays inside
  have hclosed {v w : Value} (hv : v ∈ t.taintedValues)
      (hvw : Relation.ReflTransGen (PassesTo M) v w) : w ∈ t.taintedValues := by
    induction hvw with
    | refl => exact hv
    | tail _ hstep ih => exact PassState.UseRecorded.passes ((forwardPhase_processed ht).2 _ ih) hstep
  have hseeds : (seedWorklist M cfg).taintedValues ⊆ t.taintedValues := fun v hv =>
    (mem_forwardPhase_iff hmode' ht).mpr ⟨v, .inl (hvalues v hv), .refl⟩
  have hseedPointers : (seedWorklist M cfg).taintedPointers ⊆ t.taintedPointers := fun p hp =>
    mem_pointers_forwardPhase hmode' ht (.inl (hpointers p hp))
  -- the loads of a scan: `SparesLoads` hands each one to the larger run
  have hscan {s : PassState} (hs : ScanStart M cfg addr s)
      (hvalues : s.taintedValues ⊆ t.taintedValues)
      (hpointers : s.taintedPointers ⊆ t.taintedPointers) :
      (s.forwardScan M addr).taintedValues ⊆ t.taintedValues := by
    intro v hv
    rcases ((PassState.forwardScan_spec s).taintedValues v).mp hv with
      hv | ⟨i, p, rfl, hi, hp, hnew, htaken⟩
    · exact hvalues v hv
    · obtain ⟨r, hr, rfl⟩ := forwardPhase_lastScan ht
      have hpr := hpointers p hp
      rw [(PassState.forwardScan_spec r).taintedPointers] at hpr
      obtain ⟨u, hvisit⟩ := hr.visits hmode' (.inl hpr) hi htaken.1
      apply (mem_forwardPhase_iff hmode' ht).mpr
      by_cases hu : PassState.Taken M (u.forwardScan M addr') p i
      · exact ⟨_, .inr ⟨p, i, ⟨u, hvisit, hu⟩, rfl⟩, .refl⟩
      · exact hspare p i ⟨s, ⟨hs, hp, hnew, hi, htaken.1⟩, htaken⟩ ⟨u, hvisit, hu⟩
  -- along the scans of the smaller run
  induction hs with
  | @first n s hdrain =>
    obtain ⟨_, hvalues, hpointers⟩ := (roundInv_seedWorklist M cfg).drained hmode hdrain
    have hsub : s.taintedValues ⊆ t.taintedValues := by
      intro v hv
      obtain ⟨w, hw, hwv⟩ := (hvalues v).mp hv
      exact hclosed (hseeds w hw) hwv
    have hsub' : s.taintedPointers ⊆ t.taintedPointers := by
      intro p hp
      rcases (hpointers p).mp hp with hp | ⟨v, hv, hstore⟩
      · exact hseedPointers p hp
      · exact mem_pointers_forwardPhase hmode' ht (.inr ⟨v, hsub v hv, hstore⟩)
    exact ⟨hsub, hsub', hscan (.first hdrain) hsub hsub'⟩
  | @next n s r hs hchanged hdrain ih =>
    obtain ⟨hinv, hempty⟩ := hs.roundInv hmode
    obtain ⟨_, hvalues, hpointers⟩ := (hinv.forwardScan hempty).drained hmode hdrain
    have hsub : r.taintedValues ⊆ t.taintedValues := by
      intro v hv
      obtain ⟨w, hw, hwv⟩ := (hvalues v).mp hv
      exact hclosed (ih.2.2 w hw) hwv
    have hsub' : r.taintedPointers ⊆ t.taintedPointers := by
      intro p hp
      rcases (hpointers p).mp hp with hp | ⟨v, hv, hstore⟩
      · rw [(PassState.forwardScan_spec s).taintedPointers] at hp
        exact ih.2.1 p hp
      · exact mem_pointers_forwardPhase hmode' ht (.inr ⟨v, hsub v hv, hstore⟩)
    exact ⟨hsub, hsub', hscan (.next hs hchanged hdrain) hsub hsub'⟩

/-- Inclusion of the taint of two runs is decided by the loads that their scans take and skip. -/
theorem forwardPhase_subset_iff (hmode : cfg.interprocMode = false)
    (hmode' : cfg'.interprocMode = false)
    (hvalues : (seedWorklist M cfg).taintedValues ⊆ (seedWorklist M cfg').taintedValues)
    (hpointers : (seedWorklist M cfg).taintedPointers ⊆ (seedWorklist M cfg').taintedPointers)
    {fuel fuel' : Nat} {s t : PassState} (hs : forwardPhase M cfg addr fuel = some s)
    (ht : forwardPhase M cfg' addr' fuel' = some t) :
    s.taintedValues ⊆ t.taintedValues ↔ SparesLoads M cfg addr cfg' addr' := by
  constructor
  · intro hsub p i htakes _
    apply (mem_forwardPhase_iff hmode' ht).mp
    apply hsub
    exact (mem_forwardPhase_iff hmode hs).mpr ⟨_, .inr ⟨p, i, htakes, rfl⟩, .refl⟩
  · intro hspare
    obtain ⟨r, hr, rfl⟩ := forwardPhase_lastScan hs
    exact (hr.subset_of_spares hmode hmode' hvalues hpointers hspare ht).2.2

end TwoRuns

end LinuxAnalysis
