import LinuxAnalysis.Pass.Turns

/-!
# Dependence on heap addresses

Users, pointers and kill stores are visited in the order of their addresses.  Of everything a turn of
the forward loop computes, only the store recorded as the origin of a pointer depends on that order.
Two runs stay in step as long as the stores that may be recorded for one pointer cannot be told apart
by the order tests of the scan.
-/

open LinuxAnalysis.Lib

namespace LinuxAnalysis

/-- The order tests ask on which side of the origin of `p` instruction `i` lies: it is a load that
matches `p`, or a store to `p` before such a load in its block. -/
def OrderSensitive (M : Module) (p : Value) (i : InstId) : Prop :=
  i ∈ M.insts ∧ (PassState.loadMatches M p i = true ∨ (M.storePointer i = some p ∧
    ∃ load ∈ M.insts, PassState.loadMatches M p load = true ∧ i.precedes load))

/-- No load of a pointer, and no third store to it with such a load behind it, separates two stores
that may be recorded as the pointer's origin. -/
def OriginsAgree (M : Module) (cfg : Config) : Prop :=
  ∀ p o₁ o₂, MayOriginate M cfg p o₁ → MayOriginate M cfg p o₂ →
    ∀ i, OrderSensitive M p i → i ≠ o₁ → i ≠ o₂ → (i.precedes o₁ ↔ i.precedes o₂)

namespace PassState

variable {M : Module} {cfg : Config}

/-! ## Two runs in step -/

/-- Two states that differ only in what the addresses decide. -/
structure Lockstep (M : Module) (s t : PassState) : Prop where
  values : ∀ v, v ∈ s.taintedValues ↔ v ∈ t.taintedValues
  pointers : ∀ p, p ∈ s.taintedPointers ↔ p ∈ t.taintedPointers
  scanned : ∀ p, p ∈ s.scannedPointers ↔ p ∈ t.scannedPointers
  changed : s.changed = t.changed
  kills : ∀ p k, OrderSensitive M p k → M.storePointer k = some p →
    (k ∈ s.killedStores ↔ k ∈ t.killedStores)

theorem Lockstep.drain {addr₁ addr₂ : Value → Nat} (hmode : cfg.interprocMode = false)
    {fuel₁ fuel₂ : Nat} {s t s' t' : PassState} (hs : RoundInv M cfg s) (ht : RoundInv M cfg t)
    (h : Lockstep M s t) (hcs : s.changed = false) (hct : t.changed = false)
    (h₁ : s.forwardDrain M cfg addr₁ fuel₁ = some s')
    (h₂ : t.forwardDrain M cfg addr₂ fuel₂ = some t') : Lockstep M s' t' := by
  obtain ⟨hd₁, hv₁, hp₁⟩ := forwardDrain_exact hmode hs.processed hs.queued hcs h₁
  obtain ⟨hd₂, hv₂, hp₂⟩ := forwardDrain_exact hmode ht.processed ht.queued hct h₂
  have hvalues (v : Value) : v ∈ s'.taintedValues ↔ v ∈ t'.taintedValues := by
    rw [hv₁, hv₂]
    exact exists_congr fun w => and_congr_left fun _ => h.values w
  have hpointers (p : Value) : p ∈ s'.taintedPointers ↔ p ∈ t'.taintedPointers := by
    rw [hp₁, hp₂, h.pointers]
    refine or_congr_right (exists_congr fun v => and_congr_left fun _ => hvalues v)
  refine ⟨hvalues, hpointers, fun p => ?_, ?_, fun p k hk hptr => ?_⟩
  · rw [hd₁.keeps.scannedPointers, hd₂.keeps.scannedPointers]
    exact h.scanned p
  · rw [Bool.eq_iff_iff, hd₁.changed, hd₂.changed]
    refine exists_congr fun p => and_congr (hpointers p) (not_congr (h.pointers p))
  · rw [hd₁.keeps.killedStores, hd₂.keeps.killedStores]
    exact h.kills p k hk hptr

/-- The recorded origins of the two runs, or the fact that both runs record the same. -/
theorem origins_of_lockstep {s t : PassState} (hs : RoundInv M cfg s) (ht : RoundInv M cfg t)
    (h : Lockstep M s t) {p : Value} (hp : p ∈ s.taintedPointers) :
    s.pointerTaintOrigin.lookup p = t.pointerTaintOrigin.lookup p ∨
      ∃ o₁ o₂, s.pointerTaintOrigin.lookup p = some o₁ ∧ t.pointerTaintOrigin.lookup p = some o₂ ∧
        MayOriginate M cfg p o₁ ∧ MayOriginate M cfg p o₂ ∧
        ∀ i ∈ [o₁, o₂], ∃ v ∈ s.taintedValues, StoresTo M v i p := by
  by_cases hseed : p ∈ (seedWorklist M cfg).taintedPointers
  · exact .inl ((hs.seeded p hseed).2.trans (ht.seeded p hseed).2.symm)
  · obtain ⟨v₁, hv₁, hr₁, o₁, ho₁, hl₁⟩ := hs.origins p hp hseed
    obtain ⟨v₂, hv₂, hr₂, o₂, ho₂, hl₂⟩ := ht.origins p ((h.pointers p).mp hp) hseed
    refine .inr ⟨o₁, o₂, hl₁, hl₂, ⟨hseed, v₁, hr₁, ho₁⟩, ⟨hseed, v₂, hr₂, ho₂⟩, fun i hi => ?_⟩
    simp only [List.mem_cons, List.not_mem_nil, or_false] at hi
    rcases hi with rfl | rfl
    · exact ⟨v₁, hv₁, ho₁⟩
    · exact ⟨v₂, (h.values v₂).mpr hv₂, ho₂⟩

theorem isLoadBefore_lockstep {s t : PassState} (hagree : OriginsAgree M cfg)
    (hs : RoundInv M cfg s) (ht : RoundInv M cfg t) (h : Lockstep M s t) {p : Value} {i : InstId}
    (hp : p ∈ s.taintedPointers) (hi : i ∈ M.insts) (hm : loadMatches M p i = true) :
    s.isLoadBeforeTaintOrigin M i p = true ↔ t.isLoadBeforeTaintOrigin M i p = true := by
  rcases origins_of_lockstep hs ht h hp with heq | ⟨o₁, o₂, hl₁, hl₂, hm₁, hm₂, hstores⟩
  · rw [isLoadBeforeTaintOrigin, isLoadBeforeTaintOrigin, heq]
  · have hload (o : InstId) (ho : o ∈ [o₁, o₂]) : o ∈ M.insts ∧ i ≠ o := by
      obtain ⟨v, _, hstore⟩ := hstores o ho
      refine ⟨hstore.mem_insts, fun hio => ?_⟩
      obtain ⟨_, ptr, hkind, _⟩ := hstore
      rw [← hio] at hkind
      rw [loadMatches, hkind] at hm
      cases hm
    obtain ⟨hmem₁, hne₁⟩ := hload o₁ (by simp)
    obtain ⟨hmem₂, hne₂⟩ := hload o₂ (by simp)
    rw [isLoadBeforeTaintOrigin_iff hi hmem₁ hl₁, isLoadBeforeTaintOrigin_iff hi hmem₂ hl₂]
    exact hagree p o₁ o₂ hm₁ hm₂ i ⟨hi, .inl hm⟩ hne₁ hne₂

theorem isValidKill_iff_not_precedes {store : InstId} {ptr : Value} {s : PassState}
    {origin : InstId} (hstore : store ∈ M.insts) (horigin : origin ∈ M.insts)
    (hne : store ≠ origin) (h : s.pointerTaintOrigin.lookup ptr = some origin) :
    s.isValidKill M store ptr = true ↔ ¬ store.precedes origin := by
  rw [isValidKill_iff hstore horigin h]
  constructor
  · rintro (hout | hpre) hpre'
    · exact hout ⟨hpre'.1, hpre'.2.1⟩
    · have h₁ := hpre.idx_lt hne.symm
      have h₂ := hpre'.idx_lt hne
      omega
  · intro hnot
    by_cases hsame : store.func = origin.func ∧ store.block = origin.block
    · refine .inr ⟨hsame.1.symm, hsame.2.symm, ?_⟩
      by_contra hlt
      exact hnot ⟨hsame.1, hsame.2, by omega⟩
    · exact .inl hsame

theorem kills_lockstep {s t : PassState} (hagree : OriginsAgree M cfg) (hs : RoundInv M cfg s)
    (ht : RoundInv M cfg t) (h : Lockstep M s t) {p : Value} {k : InstId}
    (hk : OrderSensitive M p k) (hptr : M.storePointer k = some p) : Kills M s k ↔ Kills M t k := by
  have hvalid (value ptr : Value) (hkind : M.kind k = .store value ptr)
      (hpt : M.stripPointerCasts ptr ∈ s.taintedPointers) (hvalue : value ∉ s.taintedValues) :
      s.isValidKill M k (M.stripPointerCasts ptr) = true ↔
        t.isValidKill M k (M.stripPointerCasts ptr) = true := by
    rw [Module.storePointer, hkind] at hptr
    cases hptr
    rcases origins_of_lockstep hs ht h hpt with heq | ⟨o₁, o₂, hl₁, hl₂, hm₁, hm₂, hstores⟩
    · rw [isValidKill, isValidKill, heq]
    · -- an origin stores a tainted value, a kill does not
      have hother (o : InstId) (ho : o ∈ [o₁, o₂]) : o ∈ M.insts ∧ k ≠ o := by
        obtain ⟨v, hv, hstore⟩ := hstores o ho
        refine ⟨hstore.mem_insts, fun hko => hvalue ?_⟩
        obtain ⟨_, q, hkind', _⟩ := hstore
        rw [← hko, hkind] at hkind'
        cases hkind'
        exact hv
      obtain ⟨hmem₁, hne₁⟩ := hother o₁ (by simp)
      obtain ⟨hmem₂, hne₂⟩ := hother o₂ (by simp)
      rw [isValidKill_iff_not_precedes hk.1 hmem₁ hne₁ hl₁,
        isValidKill_iff_not_precedes hk.1 hmem₂ hne₂ hl₂]
      exact not_congr (hagree _ o₁ o₂ hm₁ hm₂ k hk hne₁ hne₂)
  refine exists_congr fun value => exists_congr fun ptr => and_congr_right fun hkind => ?_
  rw [← h.pointers, ← h.values, ← h.values]
  refine and_congr_right fun hpt => and_congr_right fun hvalue => and_congr_right fun _ => ?_
  exact hvalid value ptr hkind hpt hvalue

theorem Lockstep.scan {addr₁ addr₂ : Value → Nat} {s t : PassState} (hagree : OriginsAgree M cfg)
    (hs : RoundInv M cfg s) (ht : RoundInv M cfg t) (h : Lockstep M s t) :
    Lockstep M (s.forwardScan M addr₁) (t.forwardScan M addr₂) := by
  have hscan₁ : Rescanned M s (s.forwardScan M addr₁) := forwardScan_spec s
  have hscan₂ : Rescanned M t (t.forwardScan M addr₂) := forwardScan_spec t
  -- the kills of both scans agree where the order of the stores could matter
  have hkills (p : Value) (k : InstId) (hk : OrderSensitive M p k)
      (hptr : M.storePointer k = some p) :
      k ∈ (s.forwardScan M addr₁).killedStores ↔ k ∈ (t.forwardScan M addr₂).killedStores := by
    rw [hscan₁.kills, hscan₂.kills, h.kills p k hk hptr, kills_lockstep hagree hs ht h hk hptr]
  -- so both scans take the same loads
  have htaken (p : Value) (hp : p ∈ s.taintedPointers) (i : InstId) (hi : i ∈ M.insts) :
      Taken M (s.forwardScan M addr₁) p i ↔ Taken M (t.forwardScan M addr₂) p i := by
    refine and_congr_right fun hm => and_congr (not_congr ?_) (not_congr ?_)
    · rw [afterKill_iff, afterKill_iff]
      refine exists_congr fun k => ?_
      constructor
      · rintro ⟨hk, hptr, hmem, hrest⟩
        exact ⟨(hkills p k ⟨hmem, .inr ⟨hptr, i, hi, hm, hrest.2⟩⟩ hptr).mp hk, hptr, hmem, hrest⟩
      · rintro ⟨hk, hptr, hmem, hrest⟩
        exact ⟨(hkills p k ⟨hmem, .inr ⟨hptr, i, hi, hm, hrest.2⟩⟩ hptr).mpr hk, hptr, hmem, hrest⟩
    · rw [isLoadBeforeTaintOrigin, isLoadBeforeTaintOrigin, hscan₁.pointerTaintOrigin,
        hscan₂.pointerTaintOrigin]
      exact isLoadBefore_lockstep hagree hs ht h hp hi hm
  have hvalues (v : Value) : v ∈ (s.forwardScan M addr₁).taintedValues ↔
      v ∈ (t.forwardScan M addr₂).taintedValues := by
    rw [hscan₁.taintedValues, hscan₂.taintedValues, h.values]
    refine or_congr_right (exists_congr fun i => exists_congr fun p => and_congr_right fun _ => ?_)
    refine and_congr_right fun hi => ?_
    rw [← h.pointers, ← h.scanned]
    exact and_congr_right fun hp => and_congr_right fun _ => htaken p hp i hi
  refine ⟨hvalues, fun p => ?_, fun p => ?_, ?_, hkills⟩
  · rw [hscan₁.taintedPointers, hscan₂.taintedPointers]
    exact h.pointers p
  · rw [hscan₁.scannedPointers, hscan₂.scannedPointers, h.scanned, h.pointers]
  -- the round goes on in one run exactly when it does in the other
  · rw [Bool.eq_iff_iff, hscan₁.changed, hscan₂.changed, h.changed]
    exact or_congr_right (exists_congr fun v => and_congr (hvalues v) (not_congr (h.values v)))

/-- One turn of the forward loop keeps two runs in step. -/
theorem Lockstep.round {addr₁ addr₂ : Value → Nat} (hmode : cfg.interprocMode = false)
    (hagree : OriginsAgree M cfg) {fuel₁ fuel₂ : Nat} {s t s' t' : PassState}
    (hs : RoundInv M cfg s) (ht : RoundInv M cfg t) (h : Lockstep M s t)
    (h₁ : s.forwardRound M cfg addr₁ fuel₁ = some s')
    (h₂ : t.forwardRound M cfg addr₂ fuel₂ = some t') :
    RoundInv M cfg s' ∧ RoundInv M cfg t' ∧ Lockstep M s' t' := by
  obtain ⟨u, hu, rfl⟩ := Option.map_eq_some_iff.mp h₁
  obtain ⟨w, hw, rfl⟩ := Option.map_eq_some_iff.mp h₂
  have hs₀ := hs.withChanged false
  have ht₀ := ht.withChanged false
  have h₀ : Lockstep M { s with changed := false } { t with changed := false } :=
    { h with changed := rfl }
  have hs₁ := hs₀.forwardDrain hmode rfl hu
  have ht₁ := ht₀.forwardDrain hmode rfl hw
  have hstep := h₀.drain hmode hs₀ ht₀ rfl rfl hu hw
  have hempty₁ := (forwardDrain_spec hs₀.processed hu).2
  have hempty₂ := (forwardDrain_spec ht₀.processed hw).2
  exact ⟨hs₁.forwardScan hempty₁, ht₁.forwardScan hempty₂, hstep.scan hagree hs₁ ht₁⟩

end PassState

/-- Under the condition on the possible origins two runs end with the same taint. -/
theorem forwardPhase_lockstep {M : Module} {cfg : Config} (hmode : cfg.interprocMode = false)
    (hagree : OriginsAgree M cfg) {addr₁ addr₂ : Value → Nat} {fuel₁ fuel₂ : Nat} {s t : PassState}
    (h₁ : forwardPhase M cfg addr₁ fuel₁ = some s) (h₂ : forwardPhase M cfg addr₂ fuel₂ = some t) :
    ∀ v, v ∈ s.taintedValues ↔ v ∈ t.taintedValues := by
  have hinv := roundInv_seedWorklist M cfg
  have hstep : PassState.Lockstep M { seedWorklist M cfg with changed := true }
      { seedWorklist M cfg with changed := true } :=
    ⟨fun _ => Iff.rfl, fun _ => Iff.rfl, fun _ => Iff.rfl, rfl, fun _ _ _ _ => Iff.rfl⟩
  have hend := whileLoop_rel
    (R := fun s t => PassState.RoundInv M cfg s ∧ PassState.RoundInv M cfg t ∧
      PassState.Lockstep M s t)
    (fun s t h => h.2.2.changed)
    (fun s t s' t' h _ h₁ h₂ => h.2.2.round hmode hagree h.1 h.2.1 h₁ h₂)
    ⟨hinv, hinv, hstep⟩ h₁ h₂
  exact hend.2.2.values

/-- A load that a scan takes under one of the assignments is not skipped under the other, unless it is
tainted there in another way. -/
def ScansAgree (M : Module) (cfg : Config) (addr₁ addr₂ : Value → Nat) : Prop :=
  SparesLoads M cfg addr₁ cfg addr₂ ∧ SparesLoads M cfg addr₂ cfg addr₁

/-- **Address independence.**  Two assignments of addresses give the same tainted values if and only if
the scans under the one skip no load taken under the other, other than loads tainted in another way.
That is so where the order tests do not tell the stores apart that may become the origin of one
pointer. -/
theorem forwardPhase_address_independent (M : Module) (cfg : Config)
    (hmode : cfg.interprocMode = false) (addr₁ addr₂ : Value → Nat) (fuel₁ fuel₂ : Nat)
    (s t : PassState) (h₁ : forwardPhase M cfg addr₁ fuel₁ = some s)
    (h₂ : forwardPhase M cfg addr₂ fuel₂ = some t) :
    ((∀ v, v ∈ s.taintedValues ↔ v ∈ t.taintedValues) ↔ ScansAgree M cfg addr₁ addr₂) ∧
      (OriginsAgree M cfg → ScansAgree M cfg addr₁ addr₂) := by
  have hsame {addr addr' : Value → Nat} {fuel fuel' : Nat} {s t : PassState}
      (h : forwardPhase M cfg addr fuel = some s) (h' : forwardPhase M cfg addr' fuel' = some t) :
      s.taintedValues ⊆ t.taintedValues ↔ SparesLoads M cfg addr cfg addr' :=
    forwardPhase_subset_iff hmode hmode (DenseSet.Subset.refl _) (DenseSet.Subset.refl _) h h'
  have hiff : (∀ v, v ∈ s.taintedValues ↔ v ∈ t.taintedValues) ↔ ScansAgree M cfg addr₁ addr₂ := by
    rw [ScansAgree, ← hsame h₁ h₂, ← hsame h₂ h₁]
    exact ⟨fun h => ⟨fun v => (h v).mp, fun v => (h v).mpr⟩, fun h v => ⟨h.1 v, h.2 v⟩⟩
  exact ⟨hiff, fun hagree => hiff.mp (forwardPhase_lockstep hmode hagree h₁ h₂)⟩

/-- The addresses of two values exchanged. -/
def exchanged (v w : Value) : Value → Nat := fun x => Value.slot (Equiv.swap v w x)

theorem exchanged_injective (v w : Value) : Function.Injective (exchanged v w) :=
  Value.slot_injective.comp (Equiv.swap v w).injective

def intraproceduralConfig : Config := { recursiveConfig with upwardInterprocMode := false }

/-- A value stored twice to one variable, which is read after both stores. -/
def readLastModule : Module :=
  .ofFunctions [{
    name := "f".toList
    argIsPointerTy := []
    blocks := [[
      { kind := .alloca false (.constantInt 32 1) },
      { kind := .other "add".toList [.constantInt 32 5, .constant 0] [] },
      { kind := .store (.inst ⟨0, 0, 1⟩) (.inst ⟨0, 0, 0⟩) },
      { kind := .store (.inst ⟨0, 0, 1⟩) (.inst ⟨0, 0, 0⟩) },
      { kind := .load (.inst ⟨0, 0, 0⟩) },
      { kind := .ret none }]] }] id

/-- No load and no third store lies between the two. -/
theorem originsAgree_readLastModule : OriginsAgree readLastModule intraproceduralConfig := by
  have hstores : ∀ o ∈ readLastModule.insts, (readLastModule.storePointer o).isSome = true →
      o = ⟨0, 0, 2⟩ ∨ o = ⟨0, 0, 3⟩ := by decide
  have horigin (p : Value) (o : InstId) (h : MayOriginate readLastModule intraproceduralConfig p o) :
      o = ⟨0, 0, 2⟩ ∨ o = ⟨0, 0, 3⟩ := by
    obtain ⟨_, v, _, hstore⟩ := h
    refine hstores o hstore.mem_insts ?_
    obtain ⟨_, ptr, hkind, _⟩ := hstore
    rw [Module.storePointer, hkind]
    rfl
  have hloads : ∀ i ∈ readLastModule.insts, ∀ p, PassState.loadMatches readLastModule p i = true →
      i = ⟨0, 0, 4⟩ := by
    intro i hi p hm
    have hinsts : readLastModule.insts =
        [⟨0, 0, 0⟩, ⟨0, 0, 1⟩, ⟨0, 0, 2⟩, ⟨0, 0, 3⟩, ⟨0, 0, 4⟩, ⟨0, 0, 5⟩] := by decide
    rw [hinsts] at hi
    simp only [List.mem_cons, List.not_mem_nil, or_false] at hi
    rcases hi with rfl | rfl | rfl | rfl | rfl | rfl
    · cases hm
    · cases hm
    · cases hm
    · cases hm
    · rfl
    · cases hm
  intro p o₁ o₂ h₁ h₂ i hi hne₁ hne₂
  rcases hi with ⟨hmem, hload | ⟨hptr, _⟩⟩
  · -- the load comes after both stores
    obtain rfl := hloads i hmem p hload
    rcases horigin p o₁ h₁ with rfl | rfl <;> rcases horigin p o₂ h₂ with rfl | rfl <;> decide
  · have hi := hstores i hmem (by rw [hptr]; rfl)
    rcases horigin p o₁ h₁ with rfl | rfl <;> rcases horigin p o₂ h₂ with rfl | rfl
    · exact Iff.rfl
    · exact absurd (hi.resolve_left hne₁) hne₂
    · exact absurd (hi.resolve_right hne₁) hne₂
    · exact Iff.rfl

/-- The two assignments record different stores, and the load is tainted with both. -/
theorem forwardPhase_address_independent_readLast :
    ∃ s t, forwardPhase readLastModule intraproceduralConfig Value.slot 5 = some s ∧
      forwardPhase readLastModule intraproceduralConfig
        (exchanged (.inst ⟨0, 0, 2⟩) (.inst ⟨0, 0, 3⟩)) 5 = some t ∧
      s.pointerTaintOrigin.lookup (.inst ⟨0, 0, 0⟩) = some ⟨0, 0, 2⟩ ∧
      t.pointerTaintOrigin.lookup (.inst ⟨0, 0, 0⟩) = some ⟨0, 0, 3⟩ ∧
      ∀ v, v ∈ s.taintedValues ↔ v ∈ t.taintedValues := by
  have h₁ : (forwardPhase readLastModule intraproceduralConfig Value.slot 5).map
      (fun s => s.pointerTaintOrigin.lookup (.inst ⟨0, 0, 0⟩)) = some (some ⟨0, 0, 2⟩) := by decide
  have h₂ : (forwardPhase readLastModule intraproceduralConfig
      (exchanged (.inst ⟨0, 0, 2⟩) (.inst ⟨0, 0, 3⟩)) 5).map
      (fun s => s.pointerTaintOrigin.lookup (.inst ⟨0, 0, 0⟩)) = some (some ⟨0, 0, 3⟩) := by decide
  obtain ⟨s, hs, hsorigin⟩ := Option.map_eq_some_iff.mp h₁
  obtain ⟨t, ht, htorigin⟩ := Option.map_eq_some_iff.mp h₂
  obtain ⟨hiff, hscans⟩ := forwardPhase_address_independent readLastModule intraproceduralConfig rfl
    _ _ 5 5 s t hs ht
  exact ⟨s, t, hs, ht, hsorigin, htorigin, hiff.mpr (hscans originsAgree_readLastModule)⟩

/-- A value stored twice to one variable, which is read in between. -/
def storedTwiceModule : Module :=
  .ofFunctions [{
    name := "f".toList
    argIsPointerTy := []
    blocks := [[
      { kind := .alloca false (.constantInt 32 1) },
      { kind := .other "add".toList [.constantInt 32 5, .constant 0] [] },
      { kind := .store (.inst ⟨0, 0, 1⟩) (.inst ⟨0, 0, 0⟩) },
      { kind := .load (.inst ⟨0, 0, 0⟩) },
      { kind := .store (.inst ⟨0, 0, 1⟩) (.inst ⟨0, 0, 0⟩) },
      { kind := .ret none }]] }] id

/-- Whichever store has the lower address becomes the origin; when that is the second one, the load
comes before the origin and is skipped. -/
theorem forwardPhase_depends_on_addresses :
    ¬ ∀ (M : Module) (cfg : Config), cfg.interprocMode = false → cfg.indirectCallMode = false →
      cfg.upwardInterprocMode = false → ∀ addr₁ addr₂ : Value → Nat,
      Function.Injective addr₁ → Function.Injective addr₂ → ∀ fuel₁ fuel₂ s t,
      forwardPhase M cfg addr₁ fuel₁ = some s → forwardPhase M cfg addr₂ fuel₂ = some t →
      ∀ v, v ∈ s.taintedValues ↔ v ∈ t.taintedValues := by
  intro hall
  have h₁ : (forwardPhase storedTwiceModule intraproceduralConfig Value.slot 5).map
      (fun s => decide (.inst ⟨0, 0, 3⟩ ∈ s.taintedValues)) = some true := by decide
  have h₂ : (forwardPhase storedTwiceModule intraproceduralConfig
      (exchanged (.inst ⟨0, 0, 2⟩) (.inst ⟨0, 0, 4⟩)) 5).map
      (fun s => decide (.inst ⟨0, 0, 3⟩ ∈ s.taintedValues)) = some false := by decide
  obtain ⟨s, hs, hin⟩ := Option.map_eq_some_iff.mp h₁
  obtain ⟨t, ht, hout⟩ := Option.map_eq_some_iff.mp h₂
  have hiff := hall storedTwiceModule intraproceduralConfig rfl rfl rfl _ _ Value.slot_injective
    (exchanged_injective _ _) 5 5 s t hs ht (.inst ⟨0, 0, 3⟩)
  exact of_decide_eq_false hout (hiff.mp (of_decide_eq_true hin))

end LinuxAnalysis
