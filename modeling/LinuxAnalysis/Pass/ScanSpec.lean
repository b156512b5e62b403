import LinuxAnalysis.Pass.ForwardClosure

/-!
# What a scan does

The order tests as comparisons of positions, and the exact effect of the kill pass and of the load
scan that end a turn of the forward loop.
-/

open LinuxAnalysis.Lib

namespace LinuxAnalysis

/-! ## Order inside a basic block -/

theorem seenBefore_iff {first second : InstId} {found : Bool} {is : List InstId}
    (hsorted : is.Pairwise fun i j => i.idx < j.idx) :
    seenBefore first second found is = true ↔
      second ∈ is ∧ (found = true ∨ (first ∈ is ∧ first.idx ≤ second.idx)) := by
  induction is generalizing found with
  | nil => simp [seenBefore]
  | cons i is ih =>
    obtain ⟨hlt, hsorted⟩ := List.pairwise_cons.mp hsorted
    rw [seenBefore, Bool.or_eq_true, Bool.and_eq_true, beq_iff_eq, ih hsorted, Bool.or_eq_true,
      beq_iff_eq, List.mem_cons, List.mem_cons]
    constructor
    · rintro (⟨hf, rfl⟩ | ⟨hmem, (hf | rfl) | hle⟩)
      · exact ⟨.inl rfl, hf.imp_right fun hi => by subst hi; exact ⟨.inl rfl, Nat.le_refl _⟩⟩
      · exact ⟨.inr hmem, .inl hf⟩
      · exact ⟨.inr hmem, .inr ⟨.inl rfl, Nat.le_of_lt (hlt _ hmem)⟩⟩
      · exact ⟨.inr hmem, .inr ⟨.inr hle.1, hle.2⟩⟩
    · rintro ⟨rfl | hmem, hf | ⟨rfl | hfirst, hle⟩⟩
      · exact .inl ⟨.inl hf, rfl⟩
      · exact .inl ⟨.inr rfl, rfl⟩
      · have hlt' := hlt _ hfirst
        omega
      · exact .inr ⟨hmem, .inl (.inl hf)⟩
      · exact .inr ⟨hmem, .inl (.inr rfl)⟩
      · exact .inr ⟨hmem, .inr ⟨hfirst, hle⟩⟩

/-- `i` is not after `j` in the basic block they share. -/
def InstId.precedes (i j : InstId) : Prop := i.func = j.func ∧ i.block = j.block ∧ i.idx ≤ j.idx

instance (i j : InstId) : Decidable (i.precedes j) := inferInstanceAs (Decidable (_ ∧ _ ∧ _))

theorem InstId.precedes.idx_lt {i j : InstId} (h : i.precedes j) (hne : i ≠ j) : i.idx < j.idx := by
  obtain ⟨hf, hb, hi⟩ := h
  refine Nat.lt_of_le_of_ne hi fun heq => hne ?_
  cases i
  cases j
  simp_all

theorem sameParent_iff {i j : InstId} :
    i.sameParent j = true ↔ i.func = j.func ∧ i.block = j.block := by
  simp only [InstId.sameParent, Bool.and_eq_true, beq_iff_eq]

theorem seenBefore_parentInsts {M : Module} {first second i : InstId} :
    seenBefore first second false (M.parentInsts i) = true ↔
      first ∈ M.parentInsts i ∧ second ∈ M.parentInsts i ∧ first.idx ≤ second.idx := by
  have hsorted : (M.parentInsts i).Pairwise fun i j => i.idx < j.idx :=
    List.pairwise_map.mpr List.pairwise_lt_range
  rw [seenBefore_iff hsorted]
  simp only [Bool.false_eq_true, false_or]
  exact and_left_comm

namespace PassState

variable {M : Module}

/-- `load` comes before an origin in the origin's block; both are instructions of the module. -/
theorem isLoadBeforeTaintOrigin_iff {load : InstId} {ptr : Value} {s : PassState} {origin : InstId}
    (hload : load ∈ M.insts) (horigin : origin ∈ M.insts)
    (h : s.pointerTaintOrigin.lookup ptr = some origin) :
    s.isLoadBeforeTaintOrigin M load ptr = true ↔ load.precedes origin := by
  simp only [isLoadBeforeTaintOrigin, h, Bool.and_eq_true, sameParent_iff, seenBefore_parentInsts,
    Module.mem_parentInsts, InstId.precedes]
  constructor
  · rintro ⟨⟨hf, hb⟩, _, _, hle⟩
    exact ⟨hf, hb, hle⟩
  · rintro ⟨hf, hb, hle⟩
    exact ⟨⟨hf, hb⟩, ⟨trivial, trivial, hload⟩, ⟨hf.symm, hb.symm, horigin⟩, hle⟩

theorem precedes_of_isLoadBeforeTaintOrigin {load : InstId} {ptr : Value} {s : PassState}
    (h : s.isLoadBeforeTaintOrigin M load ptr = true) :
    ∃ origin, s.pointerTaintOrigin.lookup ptr = some origin ∧ load.precedes origin := by
  unfold isLoadBeforeTaintOrigin at h
  split at h
  · cases h
  · rename_i origin horigin
    rw [Bool.and_eq_true, sameParent_iff, seenBefore_parentInsts] at h
    exact ⟨origin, horigin, h.1.1, h.1.2, h.2.2.2⟩

theorem isValidKill_iff {store : InstId} {ptr : Value} {s : PassState} {origin : InstId}
    (hstore : store ∈ M.insts) (horigin : origin ∈ M.insts)
    (h : s.pointerTaintOrigin.lookup ptr = some origin) :
    s.isValidKill M store ptr = true ↔
      (¬ (store.func = origin.func ∧ store.block = origin.block) ∨ origin.precedes store) := by
  simp only [isValidKill, h, Bool.or_eq_true, Bool.not_eq_true', ← Bool.not_eq_true, sameParent_iff,
    seenBefore_parentInsts, Module.mem_parentInsts, InstId.precedes]
  constructor
  · rintro (hne | ⟨⟨hf, hb, _⟩, _, hle⟩)
    · exact .inl hne
    · exact .inr ⟨hf, hb, hle⟩
  · rintro (hne | ⟨hf, hb, hle⟩)
    · exact .inl hne
    · exact .inr ⟨⟨hf, hb, horigin⟩, ⟨trivial, trivial, hstore⟩, hle⟩

theorem afterKill_iff {load : InstId} {ptr : Value} {s : PassState} :
    s.afterKill M load ptr = true ↔ ∃ kill ∈ s.killedStores, M.storePointer kill = some ptr ∧
      kill ∈ M.insts ∧ load ∈ M.insts ∧ kill.precedes load := by
  simp only [afterKill, List.any_eq_true, DenseSet.mem_elems, Bool.and_eq_true, beq_iff_eq,
    sameParent_iff, seenBefore_parentInsts, Module.mem_parentInsts, InstId.precedes]
  constructor
  · rintro ⟨kill, hkill, ⟨hptr, hf, hb⟩, ⟨_, _, hk⟩, ⟨_, _, hl⟩, hle⟩
    exact ⟨kill, hkill, hptr, hk, hl, hf.symm, hb.symm, hle⟩
  · rintro ⟨kill, hkill, hptr, hk, hl, hf, hb, hle⟩
    exact ⟨kill, hkill, ⟨hptr, hf.symm, hb.symm⟩, ⟨hf, hb, hk⟩, ⟨trivial, trivial, hl⟩, hle⟩

/-! ## Kill stores -/

/-- Store `i` overwrites a tainted pointer with an untainted value. -/
def Kills (M : Module) (s : PassState) (i : InstId) : Prop :=
  ∃ value ptr, M.kind i = .store value ptr ∧ M.stripPointerCasts ptr ∈ s.taintedPointers ∧
    value ∉ s.taintedValues ∧ .inst i ∉ s.taintedValues ∧
    s.isValidKill M i (M.stripPointerCasts ptr) = true

theorem identifyKillStores_spec (s : PassState) :
    ∃ killed, s.identifyKillStores M = { s with killedStores := killed } ∧
      ∀ k, k ∈ killed ↔ k ∈ s.killedStores ∨ (k ∈ M.insts ∧ Kills M s k) := by
  let I := fun (done : List InstId) (t : PassState) =>
    ∃ killed, t = { s with killedStores := killed } ∧
      ∀ k, k ∈ killed ↔ k ∈ s.killedStores ∨ (k ∈ done ∧ Kills M s k)
  refine foldl_prefix (I := I) M.insts ⟨s.killedStores, rfl, by simp⟩ fun p i q _ t ht => ?_
  obtain ⟨killed, rfl, hkilled⟩ := ht
  -- the test reads none of the kills found so far
  have hstep : (Kills M s i ∧ identifyKillStore M { s with killedStores := killed } i =
        { s with killedStores := killed.insert i }) ∨
      (¬ Kills M s i ∧ identifyKillStore M { s with killedStores := killed } i =
        { s with killedStores := killed }) := by
    unfold identifyKillStore
    split
    next value ptr hkind =>
      dsimp only
      split
      next h => exact .inl ⟨⟨value, ptr, hkind, h⟩, rfl⟩
      next h =>
        refine .inr ⟨fun ⟨value', ptr', hkind', h'⟩ => ?_, rfl⟩
        rw [hkind] at hkind'
        cases hkind'
        exact h h'
    next hne => exact .inr ⟨fun ⟨value, ptr, hkind, _⟩ => hne value ptr hkind, rfl⟩
  rcases hstep with ⟨hk, hstep⟩ | ⟨hk, hstep⟩
  · refine ⟨killed.insert i, hstep, fun k => ?_⟩
    rw [DenseSet.mem_insert, hkilled, List.mem_append, List.mem_singleton]
    constructor
    · rintro (rfl | h | h)
      · exact .inr ⟨.inr rfl, hk⟩
      · exact .inl h
      · exact .inr ⟨.inl h.1, h.2⟩
    · rintro (h | ⟨h | rfl, hk⟩)
      · exact .inr (.inl h)
      · exact .inr (.inr ⟨h, hk⟩)
      · exact .inl rfl
  · refine ⟨killed, hstep, fun k => ?_⟩
    rw [hkilled, List.mem_append, List.mem_singleton]
    constructor
    · exact Or.imp_right fun h => ⟨.inl h.1, h.2⟩
    · rintro (h | ⟨h | rfl, hk'⟩)
      · exact .inl h
      · exact .inr ⟨h, hk'⟩
      · exact absurd hk' hk

/-! ## Loads -/

/-- The scan of `ptr` taints load `i`, or finds it tainted. -/
def LoadTaken (M : Module) (killTracking : Bool) (s : PassState) (ptr : Value) (i : InstId) : Prop :=
  loadMatches M ptr i = true ∧ ¬ (killTracking = true ∧ s.afterKill M i ptr = true) ∧
    ¬ s.isLoadBeforeTaintOrigin M i ptr = true

/-- The state of a scan that started in `s` and has taken the loads of `Q`. -/
structure Scanned (s : PassState) (Q : InstId → Prop) (r : PassState × Bool) : Prop where
  taintedPointers : r.1.taintedPointers = s.taintedPointers
  killedStores : r.1.killedStores = s.killedStores
  pointerTaintOrigin : r.1.pointerTaintOrigin = s.pointerTaintOrigin
  scannedPointers : r.1.scannedPointers = s.scannedPointers
  changed : r.1.changed = s.changed
  taintedValues : ∀ v, v ∈ r.1.taintedValues ↔ v ∈ s.taintedValues ∨ ∃ i, Q i ∧ v = .inst i
  flag : r.2 = true ↔ ∃ i, Q i ∧ .inst i ∉ s.taintedValues

theorem Scanned.congr {s : PassState} {Q Q' : InstId → Prop} {r : PassState × Bool}
    (hQ : ∀ i, Q i ↔ Q' i) (h : Scanned s Q r) : Scanned s Q' r := by
  have hQQ' : Q = Q' := funext fun i => propext (hQ i)
  rwa [← hQQ']

/-- `ensureLevelSet` touches the levels only. -/
theorem Scanned.ensureLevelSet {s : PassState} {Q : InstId → Prop} {r : PassState × Bool}
    (h : Scanned s Q r) (i : InstId) : Scanned s Q (r.1.ensureLevelSet i, r.2) := by
  unfold PassState.ensureLevelSet
  split
  · exact h
  · split
    · exact { h with }
    · exact h

theorem Scanned.taintLoad {s : PassState} {Q : InstId → Prop} {r : PassState × Bool} {i : InstId}
    (h : Scanned s Q r) (hi : .inst i ∉ r.1.taintedValues) :
    Scanned s (fun j => Q j ∨ j = i) (r.1.taintValue (.inst i), true) where
  taintedPointers := h.taintedPointers
  killedStores := h.killedStores
  pointerTaintOrigin := h.pointerTaintOrigin
  scannedPointers := h.scannedPointers
  changed := h.changed
  taintedValues v := by
    rw [taintValue, DenseSet.mem_insert, h.taintedValues]
    constructor
    · rintro (rfl | hv | ⟨j, hj, rfl⟩)
      · exact .inr ⟨i, .inr rfl, rfl⟩
      · exact .inl hv
      · exact .inr ⟨j, .inl hj, rfl⟩
    · rintro (hv | ⟨j, hj | rfl, rfl⟩)
      · exact .inr (.inl hv)
      · exact .inr (.inr ⟨j, hj, rfl⟩)
      · exact .inl rfl
  flag := by
    have hs : .inst i ∉ s.taintedValues := fun his => hi ((h.taintedValues _).mpr (.inl his))
    exact ⟨fun _ => ⟨i, .inr rfl, hs⟩, fun _ => rfl⟩

/-- A load that is tainted already may count as taken. -/
theorem Scanned.skipTainted {s : PassState} {Q : InstId → Prop} {r : PassState × Bool} {i : InstId}
    (h : Scanned s Q r) (hi : .inst i ∈ r.1.taintedValues) :
    Scanned s (fun j => Q j ∨ j = i) r :=
  { h with
    taintedValues := fun v => by
      rw [h.taintedValues]
      constructor
      · exact Or.imp_right fun ⟨j, hj, hv⟩ => ⟨j, .inl hj, hv⟩
      · rintro (hv | ⟨j, hj | rfl, rfl⟩)
        · exact .inl hv
        · exact .inr ⟨j, hj, rfl⟩
        · exact (h.taintedValues _).mp hi
    flag := by
      rw [h.flag]
      constructor
      · exact fun ⟨j, hj, hs⟩ => ⟨j, .inl hj, hs⟩
      · rintro ⟨j, hj | rfl, hs⟩
        · exact ⟨j, hj, hs⟩
        · obtain ⟨k, hk, hjk⟩ := ((h.taintedValues _).mp hi).resolve_left hs
          cases hjk
          exact ⟨j, hk, hs⟩ }

theorem scanLoad_spec {killTracking : Bool} {ptr : Value} {s : PassState} {Q : InstId → Prop}
    {r : PassState × Bool} (h : Scanned s Q r) (i : InstId) :
    Scanned s (fun j => Q j ∨ (j = i ∧ LoadTaken M killTracking s ptr i))
      (scanLoad M killTracking ptr r i) := by
  -- the scan reads kills and origins, which loads do not change
  have hkill : r.1.afterKill M i ptr = s.afterKill M i ptr := by
    rw [afterKill, afterKill, h.killedStores]
  have hbefore : r.1.isLoadBeforeTaintOrigin M i ptr = s.isLoadBeforeTaintOrigin M i ptr := by
    rw [isLoadBeforeTaintOrigin, isLoadBeforeTaintOrigin, h.pointerTaintOrigin]
  have hskip (hnot : ¬ LoadTaken M killTracking s ptr i) (j : InstId) :
      Q j ↔ Q j ∨ (j = i ∧ LoadTaken M killTracking s ptr i) :=
    ⟨.inl, fun hj => hj.resolve_right fun hji => hnot hji.2⟩
  unfold scanLoad
  rw [hkill, hbefore]
  split
  next hm =>
    refine h.congr (hskip fun ht => ?_)
    rw [ht.1] at hm
    exact absurd hm (by decide)
  next hm =>
    split
    -- already tainted: skipped by the scan, and by the description too
    next ht =>
      by_cases htaken : LoadTaken M killTracking s ptr i
      · exact (h.skipTainted ht).congr fun j => or_congr_right (and_iff_left htaken).symm
      · exact h.congr (hskip htaken)
    next ht =>
      split
      next hk =>
        rw [Bool.and_eq_true] at hk
        exact (h.ensureLevelSet i).congr (hskip fun htaken => htaken.2.1 hk)
      next hk =>
        split
        next hb => exact (h.ensureLevelSet i).congr (hskip fun htaken => htaken.2.2 hb)
        next hb =>
          rw [Bool.and_eq_true] at hk
          have htaken : LoadTaken M killTracking s ptr i := ⟨by simpa using hm, hk, hb⟩
          have hi : .inst i ∉ (r.1.ensureLevelSet i).taintedValues := by
            unfold PassState.ensureLevelSet
            split
            · exact ht
            · split <;> exact ht
          exact ((h.ensureLevelSet i).taintLoad hi).congr
            fun j => or_congr_right (and_iff_left htaken).symm

/-- A scan takes the loads of its pointers that pass the kill and order tests of the state it
starts in. -/
theorem scanLoadsFromTaintedPointers_spec (killTracking : Bool) (ptrs : List Value)
    (s : PassState) :
    Scanned s (fun i => i ∈ M.insts ∧ ∃ p ∈ ptrs, LoadTaken M killTracking s p i)
      (s.scanLoadsFromTaintedPointers M killTracking ptrs) := by
  have hinit : Scanned s (fun _ => False) (s, false) :=
    ⟨rfl, rfl, rfl, rfl, rfl, by simp, by simp⟩
  have houter := foldl_prefix (f := scanPointer M killTracking)
    (I := fun done r => Scanned s
      (fun i => i ∈ M.insts ∧ ∃ p ∈ done, LoadTaken M killTracking s p i) r) ptrs
    (hinit.congr (by simp)) fun done p _ _ r hr => ?_
  · exact houter
  · have hinner := foldl_prefix (f := scanLoad M killTracking p)
      (I := fun seen r => Scanned s (fun i => (i ∈ M.insts ∧ ∃ p ∈ done,
        LoadTaken M killTracking s p i) ∨ (i ∈ seen ∧ LoadTaken M killTracking s p i)) r) M.insts
      (hr.congr (by simp)) fun seen i _ _ r hr => ?_
    · refine hinner.congr fun i => ?_
      simp only [List.mem_append, List.mem_singleton, or_and_right, exists_or, exists_eq_left,
        and_or_left]
    · refine (scanLoad_spec hr i).congr fun j => ?_
      simp only [List.mem_append, List.mem_singleton, or_and_right, or_assoc]
      refine or_congr_right (or_congr_right ?_)
      exact ⟨fun h => ⟨h.1, h.1 ▸ h.2⟩, fun h => ⟨h.1, h.1 ▸ h.2⟩⟩

theorem mem_foldl_insert {xs : List Value} {scanned : DenseSet Value} {p : Value} :
    p ∈ xs.foldl (fun scanned p => scanned.insert p) scanned ↔ p ∈ xs ∨ p ∈ scanned := by
  induction xs generalizing scanned with
  | nil => simp
  | cons x xs ih =>
    rw [List.foldl_cons, ih, DenseSet.mem_insert, List.mem_cons, or_left_comm, or_assoc]

theorem mem_pointersToScan {addr : Value → Nat} {s : PassState} {scanned : DenseSet Value} {p : Value} :
    p ∈ s.pointersToScan addr scanned ↔ p ∈ s.taintedPointers ∧ p ∉ scanned := by
  simp only [pointersToScan, List.mem_filter, mem_sortOn, DenseSet.mem_elems, decide_eq_true_eq]

/-- Load `i` of `p` passes the kill test and the order test of the state. -/
def Taken (M : Module) (s : PassState) (p : Value) (i : InstId) : Prop :=
  loadMatches M p i = true ∧ ¬ s.afterKill M i p = true ∧ ¬ s.isLoadBeforeTaintOrigin M i p = true

/-- The effect of the scan that ends a turn: kills first, then the loads of the pointers not scanned
before. -/
structure Rescanned (M : Module) (s t : PassState) : Prop where
  kills : ∀ k, k ∈ t.killedStores ↔ k ∈ s.killedStores ∨ (k ∈ M.insts ∧ Kills M s k)
  taintedPointers : t.taintedPointers = s.taintedPointers
  pointerTaintOrigin : t.pointerTaintOrigin = s.pointerTaintOrigin
  scannedPointers : ∀ p, p ∈ t.scannedPointers ↔ p ∈ s.scannedPointers ∨ p ∈ s.taintedPointers
  taintedValues : ∀ v, v ∈ t.taintedValues ↔ v ∈ s.taintedValues ∨
    ∃ i p, v = .inst i ∧ i ∈ M.insts ∧ p ∈ s.taintedPointers ∧ p ∉ s.scannedPointers ∧ Taken M t p i
  changed : t.changed = true ↔ s.changed = true ∨ ∃ v ∈ t.taintedValues, v ∉ s.taintedValues

theorem forwardScan_spec {addr : Value → Nat} (s : PassState) :
    Rescanned M s (s.forwardScan M addr) := by
  -- the kills are settled first, and the loads are scanned against them
  obtain ⟨killed, hkills, hkilled⟩ := identifyKillStores_spec (M := M) s
  unfold forwardScan
  rw [hkills]
  dsimp only
  have hspec := scanLoadsFromTaintedPointers_spec (M := M) true
    (pointersToScan addr s.scannedPointers { s with killedStores := killed })
    { s with killedStores := killed }
  have hafter (p : Value) (i : InstId) : (scanLoadsFromTaintedPointers M true
      (pointersToScan addr s.scannedPointers { s with killedStores := killed })
      { s with killedStores := killed }).1.afterKill M i p =
        afterKill M i p { s with killedStores := killed } := by
    rw [afterKill, afterKill, hspec.killedStores]
  have hbefore (p : Value) (i : InstId) : (scanLoadsFromTaintedPointers M true
      (pointersToScan addr s.scannedPointers { s with killedStores := killed })
      { s with killedStores := killed }).1.isLoadBeforeTaintOrigin M i p =
        s.isLoadBeforeTaintOrigin M i p := by
    rw [isLoadBeforeTaintOrigin, isLoadBeforeTaintOrigin, hspec.pointerTaintOrigin]
  refine ⟨fun k => ?_, hspec.taintedPointers, hspec.pointerTaintOrigin, fun p => ?_, fun v => ?_,
    ?_⟩
  · rw [hspec.killedStores]
    exact hkilled k
  · rw [mem_foldl_insert, hspec.scannedPointers, mem_pointersToScan]
    by_cases hp : p ∈ s.scannedPointers
    · simp [hp]
    · simp [hp]
  · rw [hspec.taintedValues]
    refine or_congr_right ⟨?_, ?_⟩
    · rintro ⟨i, ⟨hi, p, hp, hm, hk, hb⟩, rfl⟩
      rw [mem_pointersToScan] at hp
      refine ⟨i, p, rfl, hi, hp.1, hp.2, hm, ?_, ?_⟩
      · exact fun h => hk ⟨rfl, (hafter p i).symm.trans h⟩
      · exact fun h => hb ((hbefore p i).symm.trans h)
    · rintro ⟨i, p, rfl, hi, hp, hnew, hm, hk, hb⟩
      refine ⟨i, ⟨hi, p, mem_pointersToScan.mpr ⟨hp, hnew⟩, hm, ?_, ?_⟩, rfl⟩
      · exact fun h => hk ((hafter p i).trans h.2)
      · exact fun h => hb ((hbefore p i).trans h)
  -- the flag is raised exactly for a load that was not tainted before
  · rw [Bool.or_eq_true, hspec.changed, hspec.flag]
    refine or_congr_right ⟨?_, ?_⟩
    · rintro ⟨i, hi, hnew⟩
      exact ⟨.inst i, (hspec.taintedValues _).mpr (.inr ⟨i, hi, rfl⟩), hnew⟩
    · rintro ⟨v, hv, hnew⟩
      obtain ⟨i, hi, rfl⟩ := ((hspec.taintedValues v).mp hv).resolve_left hnew
      exact ⟨i, hi, hnew⟩

/-! ## What is left to the scan -/

/-- Seeding and the worklist part of a turn change neither the kills nor the scanned pointers. -/
structure KeepsScans (s t : PassState) : Prop where
  killedStores : t.killedStores = s.killedStores
  scannedPointers : t.scannedPointers = s.scannedPointers

theorem KeepsScans.refl (s : PassState) : s.KeepsScans s := ⟨rfl, rfl⟩

theorem KeepsScans.trans {s t u : PassState} (h₁ : s.KeepsScans t) (h₂ : t.KeepsScans u) :
    s.KeepsScans u :=
  ⟨h₂.killedStores.trans h₁.killedStores, h₂.scannedPointers.trans h₁.scannedPointers⟩

theorem keepsScans_foldl {α : Type} {f : PassState → α → PassState} {xs : List α}
    (hstep : ∀ s : PassState, ∀ x ∈ xs, s.KeepsScans (f s x)) (s : PassState) :
    s.KeepsScans (xs.foldl f s) :=
  foldl_rel KeepsScans.refl (fun _ _ _ => KeepsScans.trans) hstep s

theorem keepsScans_taintParameter (param : ArgId) (level : Int) (s : PassState) :
    s.KeepsScans (s.taintParameter param level) := by
  unfold taintParameter
  split
  · exact .refl s
  · exact ⟨rfl, rfl⟩

theorem keepsScans_taintPointer (ptr : Value) (origin : InstId) (s : PassState) :
    s.KeepsScans (s.taintPointer ptr origin) := by
  unfold taintPointer
  split
  · exact .refl s
  · exact ⟨rfl, rfl⟩

theorem keepsScans_seedStore (i : InstId) (s : PassState) : s.KeepsScans (s.seedStore M i) := by
  unfold seedStore recordParameterStore recordFieldAccess
  split
  · split
    · exact .refl s
    · split
      · split
        · exact ⟨rfl, rfl⟩
        · exact ⟨rfl, rfl⟩
      · exact keepsScans_taintPointer _ _ s
  · exact .refl s

theorem keepsScans_seedInst {cfg : Config} (i : InstId) (ci : Value) (s : PassState) :
    s.KeepsScans (s.seedInst M cfg i ci) := by
  have hreturn (t : PassState) : t.KeepsScans (t.seedReturn M i ci) := by
    unfold seedReturn
    split
    · split
      · exact ⟨rfl, rfl⟩
      · exact .refl t
    · exact .refl t
  have hcall (t : PassState) : t.KeepsScans (t.seedCall M cfg i ci) := by
    unfold seedCall
    split
    · refine keepsScans_foldl (fun t n _ => ?_) t
      unfold seedCallArgument
      split
      · exact keepsScans_taintParameter _ _ t
      · exact .refl t
    · exact .refl t
  unfold seedInst
  split
  · exact .refl s
  · have hset : s.KeepsScans
        (((s.taintValue (.inst i)).setFunctionLevel i.func 0).setValueLevel (.inst i) 0) :=
      ⟨rfl, rfl⟩
    exact ((hset.trans (hreturn _)).trans (keepsScans_seedStore i _)).trans (hcall _)

theorem keepsScans_enterCallee (v : Value) (argIdx : Nat) (s : PassState) (callee : Nat) :
    s.KeepsScans (s.enterCallee M v argIdx callee) := by
  unfold enterCallee
  split
  · exact keepsScans_taintParameter _ _ s
  · exact .refl s

theorem keepsScans_forwardCall {cfg : Config} {addr : Value → Nat} (v : Value) (call : InstId)
    (s : PassState) : s.KeepsScans (s.forwardCall M cfg addr v call) := by
  unfold forwardCall
  split
  · split
    · exact .refl s
    · split
      · split
        · exact .refl s
        · have hlevel (t : PassState) : t.KeepsScans (if .inst call ∈ t.valueLevel then t
              else t.setValueLevel (.inst call) (t.getLevel v)) := by
            split
            · exact .refl t
            · exact ⟨rfl, rfl⟩
          dsimp only
          split
          · exact (hlevel s).trans (keepsScans_enterCallee v _ _ _)
          · exact hlevel s
      · split
        · exact keepsScans_foldl (fun t f _ => keepsScans_enterCallee v _ t f) s
        · exact .refl s
  · exact .refl s

theorem keepsScans_propagate (v : Value) (user : InstId) (s : PassState) :
    s.KeepsScans (s.propagate v user) := by
  unfold propagate
  split
  · exact .refl s
  · exact ⟨rfl, rfl⟩

theorem keepsScans_forwardLocalStore (store : InstId) (ptr : Value) (s : PassState) :
    s.KeepsScans (s.forwardLocalStore store ptr) := by
  unfold forwardLocalStore
  split
  · exact .refl s
  · exact (keepsScans_taintPointer ptr store s).trans ⟨rfl, rfl⟩

theorem keepsScans_forwardUser {cfg : Config} {addr : Value → Nat} (v : Value) (s : PassState)
    (user : InstId) : s.KeepsScans (s.forwardUser M cfg addr v user) := by
  have hcall : s.KeepsScans (s.forwardCall M cfg addr v user) := keepsScans_forwardCall v user s
  unfold forwardUser
  dsimp only
  split
  · split
    · exact hcall.trans ⟨rfl, rfl⟩
    · exact hcall.trans (keepsScans_propagate _ _ _)
  · split
    · split
      · exact hcall
      · split
        · exact hcall.trans ⟨rfl, rfl⟩
        · exact hcall.trans ((keepsScans_forwardLocalStore _ _ _).trans (keepsScans_propagate _ _ _))
    · exact hcall.trans (keepsScans_propagate _ _ _)
  · exact hcall.trans (keepsScans_propagate _ _ _)

end PassState

theorem keepsScans_seedOperand {M : Module} {cfg : Config} (i : InstId) (s : SeedState) (op : Value) :
    s.pass.KeepsScans (seedOperand M cfg i s op).pass := by
  unfold seedOperand
  split
  · exact .refl _
  · split
    · split
      · dsimp only
        split
        · exact .refl _
        · exact PassState.keepsScans_seedInst i _ _
      · exact .refl _
    · exact .refl _

theorem keepsScans_seedWorklist (M : Module) (cfg : Config) :
    PassState.KeepsScans {} (seedWorklist M cfg) := by
  have htargets : PassState.KeepsScans {} (PassState.buildFunctionPointerTargets M cfg {}) := by
    unfold PassState.buildFunctionPointerTargets
    split
    · refine PassState.keepsScans_foldl (fun s i _ => ?_) {}
      unfold PassState.functionPointerStore
      split
      · dsimp only
        split
        · exact ⟨rfl, rfl⟩
        · exact ⟨rfl, rfl⟩
      · exact .refl s
    · exact .refl _
  have hinst (s : SeedState) (i : InstId) :
      s.pass.KeepsScans (seedInstruction M cfg s i).pass :=
    foldl_rel (R := fun s t : SeedState => s.pass.KeepsScans t.pass)
      (fun _ => .refl _) (fun _ _ _ => .trans) (fun s op _ => keepsScans_seedOperand i s op) s
  have hfold := foldl_rel (R := fun s t : SeedState => s.pass.KeepsScans t.pass)
    (fun _ => .refl _) (fun _ _ _ => .trans) (fun s i (_ : i ∈ seedCandidates M cfg) => hinst s i)
    ⟨PassState.buildFunctionPointerTargets M cfg {}, 0, false⟩
  exact htargets.trans hfold

end LinuxAnalysis
