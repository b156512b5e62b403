import LinuxAnalysis.Pass.Progress

/-!
# Termination

Every loop of the run returns.  A pop lowers the work left; a turn of the forward loop that asks for
another has found a value or a pointer, a turn of the load scan has scanned a new pointer, and a turn
of the upward loop that asks for another has found a function or a parameter.
-/

open LinuxAnalysis.Lib

namespace LinuxAnalysis

namespace PassState

variable {M : Module} {cfg : Config} {addr : Value → Nat}

/-- What the worklist loops start from. -/
structure Ready (M : Module) (s : PassState) : Prop where
  within : s.Within M
  queued : ∀ v ∈ s.worklist, v ∈ s.taintedValues

/-- What updates do between two pops. -/
structure Proceeds (M : Module) (s t : PassState) : Prop where
  advances : s.Advances M t
  keeps : s.Extends t

theorem Proceeds.refl (s : PassState) : s.Proceeds M s := ⟨.refl s, .refl s⟩

theorem Proceeds.trans {s t u : PassState} (h₁ : s.Proceeds M t) (h₂ : t.Proceeds M u) :
    s.Proceeds M u := ⟨h₁.advances.trans h₂.advances, h₁.keeps.trans h₂.keeps⟩

theorem Proceeds.ready {s t : PassState} (h : s.Proceeds M t) (hs : s.Ready M) : t.Ready M := by
  refine ⟨h.advances.within hs.within, fun v hv => ?_⟩
  rcases h.keeps.pushed v hv with hold | hnew
  · exact h.keeps.taintedValues v (hs.queued v hold)
  · exact hnew

theorem proceeds_of_forwardSteps {s t : PassState}
    (h : Relation.ReflTransGen (ForwardStep M cfg addr) s t) : s.Proceeds M t :=
  ⟨advances_of_steps (fun _ _ => advances_forwardStep) h,
    extends_of_steps (fun _ _ => ForwardStep.extends) h⟩

theorem proceeds_of_scanSteps {s t : PassState} (h : Relation.ReflTransGen (ScanStep M) s t) :
    s.Proceeds M t :=
  ⟨advances_of_steps (fun _ _ => advances_scanStep) h,
    extends_of_steps (fun _ _ => ScanStep.extends) h⟩

theorem proceeds_of_upwardSteps {start s t : PassState}
    (h : Relation.ReflTransGen (UpwardStep M start) s t) :
    s.Proceeds M t :=
  ⟨advances_of_steps (fun _ _ => advances_upwardStep) h,
    extends_of_steps (fun _ _ => UpwardStep.extends) h⟩

/-! ## The worklist loops -/

/-- A pop takes a value off what is left to do. -/
theorem pop_advances {s : PassState} {v : Value} {rest : List Value} (h : s.worklist = v :: rest) :
    s.Advances M { s with worklist := rest } ∧
      workLeft M { s with worklist := rest } < workLeft M s := by
  have hlt : workLeft M { s with worklist := rest } < workLeft M s := by
    rw [workLeft, workLeft, h, List.length_cons]
    exact Nat.add_lt_add_right (Nat.lt_succ_self _) _
  refine ⟨⟨⟨DenseSet.Subset.refl _, DenseSet.Subset.refl _, DenseSet.Subset.refl _,
    fun _ _ => id, fun _ _ => rfl⟩, fun hs => hs.congr rfl rfl rfl rfl, fun _ => Nat.le_of_lt hlt, .inl, .inl,
    rfl⟩, hlt⟩

/-- A pop and the visits of the users of its value. -/
structure PopSpec (M : Module) (s t : PassState) : Prop where
  advances : s.Advances M t
  ready : t.Ready M
  work : workLeft M t < workLeft M s

theorem pop_spec {user : PassState → InstId → PassState} {s : PassState} {v : Value}
    {rest : List Value} (huser : ∀ (t : PassState) i, v ∈ t.taintedValues → i ∈ M.users v →
      t.Proceeds M (user t i)) (hs : s.Ready M) (hwl : s.worklist = v :: rest) :
    s.PopSpec M ((M.getSortedUsers addr v).foldl user { s with worklist := rest }) := by
  have hv : v ∈ s.taintedValues := hs.queued v (by rw [hwl]; exact List.mem_cons_self)
  obtain ⟨hadv, hlt⟩ := pop_advances (M := M) hwl
  have hready : Ready M { s with worklist := rest } :=
    ⟨hadv.within hs.within, fun w hw => hs.queued w (by rw [hwl]; exact List.mem_cons_of_mem v hw)⟩
  have husers : Proceeds M { s with worklist := rest }
      ((M.getSortedUsers addr v).foldl user { s with worklist := rest }) := by
    refine (foldl_invariant (I := fun u : PassState =>
      Proceeds M { s with worklist := rest } u ∧ v ∈ u.taintedValues) (fun u i hi hu => ?_)
      ⟨.refl _, hv⟩).1
    have hstep := huser u i hu.2 (mem_sortOn.mp hi)
    exact ⟨hu.1.trans hstep, hstep.keeps.taintedValues v hu.2⟩
  exact ⟨hadv.trans husers.advances, husers.ready hready,
    Nat.lt_of_le_of_lt (husers.advances.work hready.within) hlt⟩

theorem forwardPop_spec {s : PassState} (hs : s.Ready M) (hwl : (!s.worklist.isEmpty) = true) :
    s.PopSpec M (s.forwardPop M cfg addr) := by
  cases hlist : s.worklist with
  | nil => simp [hlist] at hwl
  | cons v rest =>
    rw [forwardPop, hlist]
    exact pop_spec (fun t i hv hi => proceeds_of_forwardSteps (forwardUser_steps hv hi)) hs hlist

theorem upwardPop_spec {s : PassState} (hs : s.Ready M) (hwl : (!s.worklist.isEmpty) = true) :
    s.PopSpec M (s.upwardPop M addr) := by
  cases hlist : s.worklist with
  | nil => simp [hlist] at hwl
  | cons v rest =>
    rw [upwardPop, hlist]
    exact pop_spec (fun t i hv hi => proceeds_of_upwardSteps (upwardUser_steps hv hi)) hs hlist

/-- A loop of such pops drains the worklist. -/
theorem drain_returns {pop : PassState → PassState}
    (hpop : ∀ s : PassState, s.Ready M → (!s.worklist.isEmpty) = true → s.PopSpec M (pop s)) {s : PassState}
    (hs : s.Ready M) :
    ∃ t, Returns (fun n => whileLoop (fun s => !s.worklist.isEmpty) (fun s => some (pop s)) n s) t ∧
      s.Advances M t ∧ t.Ready M :=
  whileLoop_returns (I := fun t => s.Advances M t ∧ t.Ready M) (workLeft M) (fun t ht hwl => by
    have hspec := hpop t ht.2 hwl
    exact ⟨pop t, .pure _, ⟨ht.1.trans hspec.advances, hspec.ready⟩, hspec.work⟩) ⟨.refl s, hs⟩

theorem drain_spec {pop : PassState → PassState}
    (hpop : ∀ s : PassState, s.Ready M → (!s.worklist.isEmpty) = true → s.PopSpec M (pop s)) {n : Nat}
    {s t : PassState} (hs : s.Ready M)
    (h : whileLoop (fun s => !s.worklist.isEmpty) (fun s => some (pop s)) n s = some t) :
    s.Advances M t ∧ t.Ready M := by
  refine (whileLoop_invariant (I := fun t : PassState => s.Advances M t ∧ t.Ready M)
    (fun u w hu hwl huw => ?_) ⟨.refl s, hs⟩ h).1
  cases huw
  have hspec := hpop u hu.2 hwl
  exact ⟨hu.1.trans hspec.advances, hspec.ready⟩

theorem forwardDrain_returns (cfg : Config) (addr : Value → Nat) {s : PassState} (hs : s.Ready M) :
    ∃ t, Returns (fun n => s.forwardDrain M cfg addr n) t ∧ s.Advances M t ∧ t.Ready M :=
  drain_returns (fun _ => forwardPop_spec) hs

theorem upwardDrain_returns (addr : Value → Nat) {s : PassState} (hs : s.Ready M) :
    ∃ t, Returns (fun n => s.upwardDrain M addr n) t ∧ s.Advances M t ∧ t.Ready M :=
  drain_returns (fun _ => upwardPop_spec) hs

/-! ## The load scan -/

/-- The flag of the scan stands for a load that was tainted. -/
theorem scanLoads_proceeds (killTracking : Bool) (ptrs : List Value) {s : PassState}
    (hptrs : ∀ p ∈ ptrs, p ∈ s.taintedPointers) :
    s.Proceeds M (s.scanLoadsFromTaintedPointers M killTracking ptrs).1 ∧
      ((s.scanLoadsFromTaintedPointers M killTracking ptrs).2 = true →
        s.Gains (s.scanLoadsFromTaintedPointers M killTracking ptrs).1) := by
  let I := fun r : PassState × Bool => s.Proceeds M r.1 ∧ (r.2 = true → s.Gains r.1)
  refine foldl_invariant (I := I) (fun r p hp hr => ?_) ⟨.refl s, fun h => by cases h⟩
  refine foldl_invariant (I := I) (fun r i hi hr => ?_) hr
  have hscan := hr.1.trans (proceeds_of_scanSteps
    (scanLoad_steps killTracking (r := r) hi (hr.1.keeps.taintedPointers p (hptrs p hp))))
  refine ⟨hscan, fun hflag => ?_⟩
  have hstep := extends_scanLoad M killTracking p r i
  -- the flag was raised before, or this load raises it by a new value
  by_cases hold : r.2 = true
  · rcases hr.2 hold with ⟨v, hv, hnew⟩ | ⟨q, hq, hnew⟩
    · exact .inl ⟨v, hstep.taintedValues v hv, hnew⟩
    · exact .inr ⟨q, hstep.taintedPointers q hq, hnew⟩
  · unfold scanLoad at hflag ⊢
    split at hflag
    · exact absurd hflag hold
    · split at hflag
      · exact absurd hflag hold
      · rename_i hmatch hload
        rw [if_neg hmatch, if_neg hload]
        split at hflag
        · exact absurd hflag hold
        · split at hflag
          · exact absurd hflag hold
          · rename_i hkill horigin
            rw [if_neg hkill, if_neg horigin]
            exact .inl ⟨.inst i, DenseSet.mem_insert.mpr (.inl rfl),
              fun h => hload (hr.1.keeps.taintedValues _ h)⟩

theorem identifyKillStores_proceeds (s : PassState) : s.Proceeds M (s.identifyKillStores M) := by
  refine foldl_invariant (I := fun t : PassState => s.Proceeds M t) (fun t i hi ht => ?_) (.refl s)
  exact ht.trans (proceeds_of_scanSteps (identifyKillStore_steps hi t))

theorem forwardScan_ready (addr : Value → Nat) {s : PassState} (hs : s.Ready M) :
    (s.forwardScan M addr).Ready M ∧ s.Grows (s.forwardScan M addr) ∧
      ((s.forwardScan M addr).changed = true → s.changed = true ∨
        s.Gains (s.forwardScan M addr)) := by
  have hkills := identifyKillStores_proceeds (M := M) s
  have hscan := scanLoads_proceeds (M := M) true
    ((s.identifyKillStores M).pointersToScan addr (s.identifyKillStores M).scannedPointers)
    fun p hp => (mem_pointersToScan.mp hp).1
  have hboth := hkills.trans hscan.1
  have hready := hboth.ready hs
  refine ⟨⟨hready.within.congr rfl rfl rfl rfl, hready.queued⟩, ?_, fun hchanged => ?_⟩
  · exact ⟨hboth.advances.grows.values, hboth.advances.grows.pointers,
      hboth.advances.grows.returning, hboth.advances.grows.params, hboth.advances.grows.origin⟩
  · simp only [forwardScan, Bool.or_eq_true] at hchanged
    rcases hchanged with hold | hnew
    · exact hboth.advances.changed hold
    · rcases hscan.2 hnew with ⟨v, hv, hnew⟩ | ⟨p, hp, hnew⟩
      · exact .inr (.inl ⟨v, hv, fun h => hnew (hkills.keeps.taintedValues v h)⟩)
      · exact .inr (.inr ⟨p, hp, fun h => hnew (hkills.keeps.taintedPointers p h)⟩)

/-- What the scans of the upward phase have not seen. -/
def unscanned (M : Module) (s : PassState) : Nat := room M.pointable (· ∈ s.upwardScannedPointers)

theorem upwardScan_ready (addr : Value → Nat) {s : PassState} (hs : s.Ready M)
    (hptrs : (s.pointersToScan addr s.upwardScannedPointers).isEmpty = false) :
    (s.upwardScan M (s.pointersToScan addr s.upwardScannedPointers)).Ready M ∧
      s.Grows (s.upwardScan M (s.pointersToScan addr s.upwardScannedPointers)) ∧
      ((s.upwardScan M (s.pointersToScan addr s.upwardScannedPointers)).discoveredNewFunctions =
        true → s.discoveredNewFunctions = true ∨
          s.Learns (s.upwardScan M (s.pointersToScan addr s.upwardScannedPointers))) ∧
      unscanned M (s.upwardScan M (s.pointersToScan addr s.upwardScannedPointers)) <
        unscanned M s := by
  have hscan := (scanLoads_proceeds (M := M) false
    (s.pointersToScan addr s.upwardScannedPointers) fun p hp => (mem_pointersToScan.mp hp).1).1
  have hready := hscan.ready hs
  refine ⟨⟨hready.within.congr rfl rfl rfl rfl, hready.queued⟩, ?_, hscan.advances.discovered, ?_⟩
  · exact ⟨hscan.advances.grows.values, hscan.advances.grows.pointers,
      hscan.advances.grows.returning, hscan.advances.grows.params, hscan.advances.grows.origin⟩
  · -- every pointer of the scan is new to the set of scanned pointers
    obtain ⟨p, hp⟩ := List.exists_mem_of_ne_nil _
      (by simpa using hptrs : s.pointersToScan addr s.upwardScannedPointers ≠ [])
    obtain ⟨htainted, hnew⟩ := mem_pointersToScan.mp hp
    have hmem (q : Value) : q ∈ (s.upwardScan M (s.pointersToScan addr
        s.upwardScannedPointers)).upwardScannedPointers ↔
        q ∈ s.pointersToScan addr s.upwardScannedPointers ∨ q ∈ s.upwardScannedPointers := by
      show q ∈ List.foldl _ _ _ ↔ _
      rw [mem_foldl_insert, hscan.advances.upwardScanned]
    exact room_lt (fun q hq => (hmem q).mpr (.inr hq)) (hs.within.pointers p htainted) hnew
      ((hmem p).mpr (.inl hp))

/-! ## The forward loop -/

theorem forwardRound_returns (cfg : Config) (addr : Value → Nat) {s : PassState} (hs : s.Ready M)
    (hc : s.changed = true) :
    ∃ t, Returns (fun n => s.forwardRound M cfg addr n) t ∧ t.Ready M ∧
      2 * untainted M t + t.changed.toNat < 2 * untainted M s + s.changed.toNat := by
  have hreset : Ready M { s with changed := false } := ⟨hs.within.congr rfl rfl rfl rfl, hs.queued⟩
  obtain ⟨t, ht, hadv, hready⟩ := forwardDrain_returns cfg addr hreset
  obtain ⟨hscan, hgrows, hchanged⟩ := forwardScan_ready addr hready
  refine ⟨t.forwardScan M addr, ht.map _, hscan, ?_⟩
  have hall : s.Grows (t.forwardScan M addr) :=
    Grows.trans ⟨hadv.grows.values, hadv.grows.pointers, hadv.grows.returning, hadv.grows.params,
      hadv.grows.origin⟩ hgrows
  rw [hc, Bool.toNat_true]
  cases hflag : (t.forwardScan M addr).changed with
  | false =>
    have hle := untainted_le (M := M) hall
    rw [Bool.toNat_false]
    omega
  | true =>
    have hgain : s.Gains (t.forwardScan M addr) := by
      rcases hchanged hflag with hold | ⟨v, hv, hnew⟩ | ⟨p, hp, hnew⟩
      · rcases hadv.changed hold with hfalse | ⟨v, hv, hnew⟩ | ⟨p, hp, hnew⟩
        · cases hfalse
        · exact .inl ⟨v, hgrows.values v hv, hnew⟩
        · exact .inr ⟨p, hgrows.pointers p hp, hnew⟩
      · exact .inl ⟨v, hv, fun h => hnew (hadv.grows.values v h)⟩
      · exact .inr ⟨p, hp, fun h => hnew (hadv.grows.pointers p h)⟩
    have hlt := untainted_lt hall hscan.within hgain
    rw [Bool.toNat_true]
    omega

theorem forwardLoop_returns (cfg : Config) (addr : Value → Nat) {s : PassState} (hs : s.Ready M) :
    ∃ t, Returns (fun n => s.forwardLoop M cfg addr n) t ∧ t.Ready M := by
  have hstart : Ready M { s with changed := true } := ⟨hs.within.congr rfl rfl rfl rfl, hs.queued⟩
  exact whileLoop_returns (I := Ready M) (fun t => 2 * untainted M t + t.changed.toNat)
    (fun t ht hc => forwardRound_returns cfg addr ht hc) hstart

/-! ## The upward loop -/

/-- What a turn of the upward loop knows about its states, seen from its start. -/
structure Discovering (M : Module) (s t : PassState) : Prop where
  ready : t.Ready M
  grows : s.Grows t
  discovered : t.discoveredNewFunctions = true → s.discoveredNewFunctions = true ∨ s.Learns t

theorem Discovering.start {s : PassState} (hs : s.Ready M) : s.Discovering M s :=
  ⟨hs, (Extends.refl s).grows, .inl⟩

theorem Discovering.trans {s t u : PassState} (h : s.Discovering M t) (hu : u.Ready M)
    (hgrows : t.Grows u)
    (hd : u.discoveredNewFunctions = true → t.discoveredNewFunctions = true ∨ t.Learns u) :
    s.Discovering M u := by
  refine ⟨hu, h.grows.trans hgrows, fun hflag => ?_⟩
  rcases hd hflag with hold | ⟨f, hf, hnew⟩ | ⟨f, n, hn, hnew⟩
  · refine (h.discovered hold).imp_right fun hlearn => ?_
    rcases hlearn with ⟨f, hf, hnew⟩ | ⟨f, n, hn, hnew⟩
    · exact .inl ⟨f, hgrows.returning f hf, hnew⟩
    · exact .inr ⟨f, n, hgrows.params f n hn, hnew⟩
  · exact .inr (.inl ⟨f, hf, fun h' => hnew (h.grows.returning f h')⟩)
  · exact .inr (.inr ⟨f, n, hn, fun h' => hnew (h.grows.params f n h')⟩)

theorem Discovering.proceeds {s t u : PassState} (h : s.Discovering M t) (htu : t.Proceeds M u) :
    s.Discovering M u :=
  h.trans (htu.ready h.ready) htu.advances.grows htu.advances.discovered

theorem upwardReturns_proceeds (addr : Value → Nat) (s : PassState) :
    s.Proceeds M (s.upwardReturns M addr) := by
  refine foldl_invariant (I := fun t : PassState => s.Proceeds M t) (fun t f hf ht => ?_) (.refl s)
  refine foldl_invariant (I := fun t : PassState => s.Proceeds M t) (fun t i hi ht => ?_) ht
  have hf' : f ∈ t.functionsReturningTaint :=
    ht.keeps.functionsReturningTaint f (mem_sortOn.mp hf)
  exact ht.trans (proceeds_of_upwardSteps (taintReturningCall_steps hf' hi))

theorem upwardParams_proceeds (addr : Value → Nat) (s : PassState) :
    s.Proceeds M (s.upwardParams M addr) := by
  refine foldl_invariant (I := fun t : PassState => s.Proceeds M t) (fun t e he ht => ?_) (.refl s)
  refine foldl_invariant (I := fun t : PassState => s.Proceeds M t) (fun t i hi ht => ?_) ht
  have hlookup := DenseMap.mem_entries_iff.mp (mem_sortOn.mp he)
  have hparams : ∀ n ∈ e.2, t.TaintsParam e.1 n := by
    intro n hn
    apply ht.keeps.taintsParam
    rwa [TaintsParam, DenseMap.getD, hlookup]
  exact ht.trans (proceeds_of_upwardSteps (upwardCallSite_steps hparams hi))

theorem upwardSaturate_returns (addr : Value → Nat) {s t : PassState} (h : s.Discovering M t) :
    ∃ u, Returns (fun n => t.upwardSaturate M addr n) u ∧ s.Discovering M u := by
  refine loop_returns (I := s.Discovering M) (Q := s.Discovering M) (unscanned M) (fun t ht => ?_) h
  obtain ⟨u, hu, hadv, hready⟩ := upwardDrain_returns addr ht.ready
  have hdrained := ht.trans hready hadv.grows hadv.discovered
  refine ⟨_, hu.map _, fun w hw => ?_, fun w hw => ?_⟩
  · dsimp only at hw
    split at hw
    · cases hw
    · rename_i hptrs
      cases hw
      obtain ⟨hscan, hgrows, hd, hlt⟩ := upwardScan_ready addr hready (by simpa using hptrs)
      have hkept : unscanned M u = unscanned M t := by rw [unscanned, unscanned, hadv.upwardScanned]
      exact ⟨hdrained.trans hscan hgrows hd, by omega⟩
  · dsimp only at hw
    split at hw
    · cases hw
      exact hdrained
    · cases hw

theorem exists_new_of_length_lt {α : Type} [DecidableEq α] {xs ys : List α} (hys : ys.Nodup)
    (h : xs.length < ys.length) : ∃ y ∈ ys, y ∉ xs := by
  by_contra hall
  push Not at hall
  exact absurd (List.subperm_of_subset hys hall).length_le (by omega)

/-- Growth of one of the two counts is a function or a parameter that is new. -/
theorem learns_of_sizes {s t : PassState} (ht : t.Within M)
    (h : t.functionsReturningTaint.size > s.functionsReturningTaint.size ∨
      t.functionsTaintingPointerParams.entries.length >
        s.functionsTaintingPointerParams.entries.length) : s.Learns t := by
  rcases h with hsize | hsize
  · obtain ⟨f, hf, hnew⟩ := exists_new_of_length_lt t.functionsReturningTaint.nodup hsize
    exact .inl ⟨f, hf, hnew⟩
  · have hkeys : s.functionsTaintingPointerParams.keys.length <
        t.functionsTaintingPointerParams.keys.length := by
      simpa [AList.keys, List.keys] using hsize
    obtain ⟨f, hf, hnew⟩ :=
      exists_new_of_length_lt t.functionsTaintingPointerParams.keys_nodup hkeys
    obtain ⟨n, hn⟩ := ht.entries f hf
    refine .inr ⟨f, n, hn, fun hold => ?_⟩
    rw [TaintsParam, DenseMap.getD, AList.lookup_eq_none.mpr hnew] at hold
    exact DenseSet.not_mem_empty n hold

theorem upwardRound_returns (addr : Value → Nat) {s : PassState} (hs : s.Ready M)
    (hc : s.discoveredNewFunctions = true) :
    ∃ t, Returns (fun n => s.upwardRound M addr n) t ∧ t.Ready M ∧
      2 * undiscovered M t + t.discoveredNewFunctions.toNat <
        2 * undiscovered M s + s.discoveredNewFunctions.toNat := by
  let old : PassState := { s with discoveredNewFunctions := false }
  have hstart : old.Discovering M old := .start ⟨hs.within.congr rfl rfl rfl rfl, hs.queued⟩
  have hcalls := (hstart.proceeds (upwardReturns_proceeds addr old)).proceeds
    (upwardParams_proceeds addr _)
  obtain ⟨t, ht, hd⟩ := upwardSaturate_returns addr hcalls
  refine ⟨_, ht.map _, ?_⟩
  -- the flag raised by the comparison of the counts is one more way to have learned something
  have hend (u : PassState) (hu : old.Discovering M u) : u.Ready M ∧
      2 * undiscovered M u + u.discoveredNewFunctions.toNat <
        2 * undiscovered M s + s.discoveredNewFunctions.toNat := by
    refine ⟨hu.ready, ?_⟩
    have hsame : undiscovered M old = undiscovered M s := rfl
    rw [hc, Bool.toNat_true]
    cases hflag : u.discoveredNewFunctions with
    | false =>
      have hle := undiscovered_le (M := M) hu.grows
      rw [Bool.toNat_false]
      omega
    | true =>
      have hlearn : old.Learns u := (hu.discovered hflag).resolve_left (by simp [old])
      have hlt := undiscovered_lt hu.grows hu.ready.within hlearn
      rw [Bool.toNat_true]
      omega
  dsimp only
  split
  next hsize =>
    refine hend _ ⟨⟨hd.ready.within.congr rfl rfl rfl rfl, hd.ready.queued⟩, ?_, fun _ => ?_⟩
    · exact ⟨hd.grows.values, hd.grows.pointers, hd.grows.returning, hd.grows.params,
        hd.grows.origin⟩
    · have hlearn : old.Learns t := learns_of_sizes hd.ready.within hsize
      exact .inr hlearn
  next => exact hend t hd

theorem upwardLoop_returns (addr : Value → Nat) {s : PassState} (hs : s.Ready M) :
    ∃ t, Returns (fun n => s.upwardLoop M addr n) t ∧ t.Ready M := by
  have hstart : Ready M { s with discoveredNewFunctions := true } :=
    ⟨hs.within.congr rfl rfl rfl rfl, hs.queued⟩
  exact whileLoop_returns (I := Ready M)
    (fun t => 2 * undiscovered M t + t.discoveredNewFunctions.toNat)
    (fun t ht hc => upwardRound_returns addr ht hc) hstart

theorem upwardPhase_returns (cfg : Config) (addr : Value → Nat) {s : PassState} (hs : s.Ready M) :
    ∃ t, Returns (fun n => s.upwardPhase M addr cfg n) t := by
  unfold upwardPhase
  split
  · obtain ⟨t, ht, _⟩ := upwardLoop_returns addr hs
    exact ⟨t, ht⟩
  · exact ⟨s, .pure s⟩

/-! ## Every point of a run -/

theorem ready_of_reachable {m : Point} (h : Reachable M cfg addr m) : m.state.Ready M := by
  have hinitial : (initialPoint M cfg).state.Within M := by
    obtain ⟨targets, hstate⟩ := Point.initialPoint_state M cfg
    rw [hstate]
    refine ⟨fun v hv => ?_, fun p hp => ?_, fun f hf => ?_, fun f n hn => ?_, fun f hf => ?_⟩
    · exact absurd hv (DenseSet.not_mem_empty v)
    · exact absurd hp (DenseSet.not_mem_empty p)
    · exact absurd hf (DenseSet.not_mem_empty f)
    · exact absurd hn (DenseSet.not_mem_empty n)
    · exact absurd hf (AList.notMem_empty f)
  have hbook (s t : PassState) (hs : s.Within M) (h : s.Bookkeeping t) : t.Within M :=
    hs.congr h.taintedValues h.taintedPointers h.functionsReturningTaint
      h.functionsTaintingPointerParams
  have hinv := Point.invariant (F := Within M) (U := Within M)
    (fun _ _ => within_seedStep) (fun _ _ => within_forwardStep) (fun _ _ => within_scanStep) hbook
    (fun _ hs => hs) (fun _ _ _ _ => within_upwardStep) (fun _ _ => within_scanStep) hbook
    Point.valid_initialPoint (fun _ => hinitial) (fun _ => hinitial) h
  refine ⟨?_, (Point.valid_of_reachable h).queued⟩
  cases hphase : m.control.upward with
  | false => exact hinv.1 hphase
  | true => exact hinv.2 hphase

end PassState

theorem forwardPhase_returns (M : Module) (cfg : Config) (addr : Value → Nat) :
    ∃ t, Returns (forwardPhase M cfg addr) t ∧ t.Ready M := by
  have hstart : Reachable M cfg addr ⟨.forwardLoop, { seedWorklist M cfg with changed := true }⟩ :=
    seedWorklist_reaches
  obtain ⟨t, ht, hready⟩ :=
    PassState.forwardLoop_returns cfg addr (PassState.ready_of_reachable hstart)
  exact ⟨t, ht, hready⟩

/-- **Termination.**  The forward phase and the whole run return; so does each nested loop from every
state in which the run enters it, and the search for a pointer's parameter from every value. -/
theorem run_terminates (M : Module) (cfg : Config) (addr : Value → Nat) :
    (∃ t, Returns (forwardPhase M cfg addr) t) ∧
    (∃ t, Returns (run M cfg addr) t ∧ Reachable M cfg addr ⟨.finished, t⟩) ∧
    (∀ s, Reachable M cfg addr ⟨.forwardWorklist, s⟩ →
      ∃ t, Returns (fun n => s.forwardDrain M cfg addr n) t) ∧
    (∀ old s, Reachable M cfg addr ⟨.upwardWorklist old, s⟩ →
      (∃ t, Returns (fun n => s.upwardDrain M addr n) t) ∧
        ∃ t, Returns (fun n => s.upwardSaturate M addr n) t) ∧
    (∀ s, Reachable M cfg addr ⟨.upwardLoop, s⟩ →
      ∃ t, Returns (fun n => s.upwardLoop M addr n) t) ∧
    ∀ v visited, ∃ r, Returns (fun n => M.getPointerParameterOrigin? n v visited) r ∧
      M.getPointerParameterOriginAux M.originFuel v visited = r := by
  obtain ⟨s, hs, hready⟩ := forwardPhase_returns M cfg addr
  obtain ⟨t, ht⟩ := PassState.upwardPhase_returns cfg addr hready
  have hrun : Returns (run M cfg addr) t := hs.bind ht
  obtain ⟨n, hn⟩ := hrun.eq_some
  refine ⟨⟨s, hs⟩, ⟨t, hrun, run_reaches hn⟩, fun s hs => ?_, fun old s hs => ?_, fun s hs => ?_,
    Module.getPointerParameterOrigin?_returns⟩
  · obtain ⟨t, ht, _⟩ := PassState.forwardDrain_returns cfg addr (PassState.ready_of_reachable hs)
    exact ⟨t, ht⟩
  · have hready : s.Ready M := PassState.ready_of_reachable hs
    obtain ⟨t, ht, _⟩ := PassState.upwardDrain_returns addr hready
    obtain ⟨u, hu⟩ := PassState.upwardSaturate_returns addr (.start hready)
    exact ⟨⟨t, ht⟩, ⟨u, hu.1⟩⟩
  · obtain ⟨t, ht, _⟩ := PassState.upwardLoop_returns addr (PassState.ready_of_reachable hs)
    exact ⟨t, ht⟩

end LinuxAnalysis
