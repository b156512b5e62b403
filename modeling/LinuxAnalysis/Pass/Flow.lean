import LinuxAnalysis.Pass.DrainSpec
import LinuxAnalysis.Pass.Provenance

/-!
# Where the worklist carries taint

The visit of a user of a value taints the user or a parameter of a function it calls.  Both are known
before the run: they depend on the module, on the modes and on the order in which the addresses put
the targets of an indirect call.
-/

open LinuxAnalysis.Lib

namespace LinuxAnalysis

section Relation

variable (M : Module) (cfg : Config) (addr : Value → Nat)

/-- The functions that the forward loop enters at an indirect call. -/
def callTargets (called : Value) : List Nat :=
  (initialPoint M cfg).state.indirectTargets M addr called

/-- A visit of call `i` from `v` enters parameter `a`, whose number is the first position of `v`. -/
def EntersParameter (v : Value) (i : InstId) (a : ArgId) : Prop :=
  cfg.interprocMode = true ∧ HasParameter M a.func a.no ∧ ∃ called same args bundles,
    M.kind i = .call called same args bundles ∧ args.findIdx? (· == v) = some a.no ∧
    (M.calledFunction i = some a.func ∨ M.calledFunction i = none ∧ cfg.indirectCallMode = true ∧
      a.func ∈ callTargets M cfg addr called)

/-- A visit of user `u` of `v` taints `w`. -/
def FlowsVia (v : Value) (u : InstId) (w : Value) : Prop :=
  (w = .inst u ∧ M.kind u ≠ .ret (some v) ∧ ∀ ptr, M.kind u = .store v ptr → LocalPointer M ptr) ∨
    ∃ a, w = .arg a ∧ EntersParameter M cfg addr v u a

/-- Taint of `v` is passed on to `w`. -/
def FlowsTo (v w : Value) : Prop := ∃ u ∈ M.users v, FlowsVia M cfg addr v u w

end Relation

namespace PassState

variable {M : Module} {cfg : Config} {addr : Value → Nat}

/-! ## One visit -/

theorem mem_taintParameter_iff {a : ArgId} {level : Int} {s : PassState} {w : Value} :
    w ∈ (s.taintParameter a level).taintedValues ↔ w = .arg a ∨ w ∈ s.taintedValues := by
  unfold taintParameter
  split
  next h => exact ⟨.inr, fun hw => hw.elim (fun he => he ▸ h) id⟩
  next => exact DenseSet.mem_insert

theorem mem_enterCallee {v w : Value} {n callee : Nat} {s : PassState} :
    w ∈ (s.enterCallee M v n callee).taintedValues ↔
      w ∈ s.taintedValues ∨ HasParameter M callee n ∧ w = .arg ⟨callee, n⟩ := by
  unfold enterCallee HasParameter
  split
  next h =>
    rw [Bool.and_eq_true, Bool.not_eq_true', decide_eq_true_eq] at h
    rw [mem_taintParameter_iff, or_comm, and_iff_right h]
  next h =>
    rw [Bool.and_eq_true, Bool.not_eq_true', decide_eq_true_eq] at h
    exact ⟨.inl, fun hw => hw.resolve_right fun hp => h hp.1⟩

theorem mem_foldl_enterCallee {v w : Value} {n : Nat} {callees : List Nat} {s : PassState} :
    w ∈ (callees.foldl (enterCallee M v n) s).taintedValues ↔ w ∈ s.taintedValues ∨
      ∃ callee ∈ callees, HasParameter M callee n ∧ w = .arg ⟨callee, n⟩ := by
  induction callees generalizing s with
  | nil => simp
  | cons callee callees ih =>
    rw [List.foldl_cons, ih, mem_enterCallee, or_assoc, List.exists_mem_cons_iff]

theorem mem_propagate_iff {v w : Value} {u : InstId} {s : PassState} :
    w ∈ (s.propagate v u).taintedValues ↔ w ∈ s.taintedValues ∨ w = .inst u := by
  unfold propagate
  split
  next h => exact ⟨.inl, fun hw => hw.elim id fun he => he ▸ h⟩
  next =>
    rw [or_comm]
    exact DenseSet.mem_insert

/-- The table of function pointers is the one that was built before seeding. -/
def InitialTargets (M : Module) (cfg : Config) (s : PassState) : Prop :=
  s.functionPointerTargets = (initialPoint M cfg).state.functionPointerTargets

theorem mem_forwardCall {v w : Value} {i : InstId} {s : PassState} (hs : s.InitialTargets M cfg) :
    w ∈ (s.forwardCall M cfg addr v i).taintedValues ↔
      w ∈ s.taintedValues ∨ ∃ a, w = .arg a ∧ EntersParameter M cfg addr v i a := by
  have hnone (h : ∀ a, ¬ EntersParameter M cfg addr v i a) :
      w ∈ s.taintedValues ↔ w ∈ s.taintedValues ∨ ∃ a, w = .arg a ∧ EntersParameter M cfg addr v i a :=
    ⟨.inl, fun hw => hw.resolve_right fun ⟨a, _, ha⟩ => h a ha⟩
  unfold forwardCall
  split
  next called same args bundles hkind =>
    -- the call of an entered parameter is this one
    have hentered (a : ArgId) : EntersParameter M cfg addr v i a ↔
        cfg.interprocMode = true ∧ HasParameter M a.func a.no ∧
          args.findIdx? (· == v) = some a.no ∧ (M.calledFunction i = some a.func ∨
            M.calledFunction i = none ∧ cfg.indirectCallMode = true ∧
              a.func ∈ callTargets M cfg addr called) := by
      unfold EntersParameter
      rw [hkind]
      constructor
      · rintro ⟨hmode, hparam, called', same', args', bundles', heq, hrest⟩
        cases heq
        exact ⟨hmode, hparam, hrest⟩
      · rintro ⟨hmode, hparam, hrest⟩
        exact ⟨hmode, hparam, called, same, args, bundles, rfl, hrest⟩
    split
    next hidx =>
      apply hnone
      intro a ha
      have hidx' := ((hentered a).mp ha).2.2.1
      rw [hidx] at hidx'
      cases hidx'
    next n hidx =>
      have hno (a : ArgId) (ha : EntersParameter M cfg addr v i a) : a.no = n := by
        have hidx' := ((hentered a).mp ha).2.2.1
        rw [hidx] at hidx'
        exact (Option.some.inj hidx').symm
      split
      next callee hcallee =>
        have hfunc (a : ArgId) (ha : EntersParameter M cfg addr v i a) : a.func = callee := by
          rcases ((hentered a).mp ha).2.2.2 with h | ⟨h, _⟩
          · exact (Option.some.inj (hcallee.symm.trans h)).symm
          · rw [hcallee] at h
            cases h
        split
        next hdecl =>
          apply hnone
          intro a ha
          have hbody := ((hentered a).mp ha).2.1.1
          rw [hfunc a ha, hdecl] at hbody
          cases hbody
        next hdecl =>
          have hlevel : (if .inst i ∈ s.valueLevel then s
              else s.setValueLevel (.inst i) (s.getLevel v)).taintedValues = s.taintedValues := by
            split <;> rfl
          dsimp only
          split
          next hmode =>
            rw [mem_enterCallee, hlevel]
            apply or_congr_right
            constructor
            · rintro ⟨hparam, rfl⟩
              exact ⟨⟨callee, n⟩, rfl, (hentered _).mpr ⟨hmode, hparam, hidx, .inl hcallee⟩⟩
            · rintro ⟨a, rfl, ha⟩
              have hsame : a = ⟨callee, n⟩ := by
                rw [← hfunc a ha, ← hno a ha]
              have hparam := ((hentered a).mp ha).2.1
              rw [hfunc a ha, hno a ha] at hparam
              exact ⟨hparam, congrArg Value.arg hsame⟩
          next hmode =>
            rw [hlevel]
            exact hnone fun a ha => hmode ha.1
      next hcallee =>
        have hmodes (a : ArgId) (ha : EntersParameter M cfg addr v i a) :
            cfg.indirectCallMode = true ∧ a.func ∈ callTargets M cfg addr called := by
          rcases ((hentered a).mp ha).2.2.2 with h | ⟨_, h⟩
          · rw [hcallee] at h
            cases h
          · exact h
        split
        next hmode =>
          rw [Bool.and_eq_true] at hmode
          have htargets : s.indirectTargets M addr called = callTargets M cfg addr called :=
            indirectTargets_congr hs
          rw [mem_foldl_enterCallee, htargets]
          apply or_congr_right
          constructor
          · rintro ⟨callee, hmem, hparam, rfl⟩
            exact ⟨⟨callee, n⟩, rfl,
              (hentered _).mpr ⟨hmode.2, hparam, hidx, .inr ⟨hcallee, hmode.1, hmem⟩⟩⟩
          · rintro ⟨a, rfl, ha⟩
            have hsame : a = ⟨a.func, n⟩ := by rw [← hno a ha]
            exact ⟨a.func, (hmodes a ha).2, hno a ha ▸ ((hentered a).mp ha).2.1,
              congrArg Value.arg hsame⟩
        next hmode =>
          apply hnone
          intro a ha
          exact hmode (by rw [(hmodes a ha).1, ha.1]; rfl)
  next hkind =>
    apply hnone
    rintro a ⟨_, _, called, same, args, bundles, heq, _⟩
    exact hkind called same args bundles heq

theorem mem_forwardLocalStore_values {w p : Value} {store : InstId} {s : PassState} :
    w ∈ (s.forwardLocalStore store p).taintedValues ↔ w ∈ s.taintedValues := by
  unfold forwardLocalStore taintPointer
  split
  · exact Iff.rfl
  · exact Iff.rfl

/-- **One visit.**  The values tainted by the visit of a user. -/
theorem mem_forwardUser {v w : Value} {u : InstId} {s : PassState} (hs : s.InitialTargets M cfg) :
    w ∈ (s.forwardUser M cfg addr v u).taintedValues ↔
      w ∈ s.taintedValues ∨ FlowsVia M cfg addr v u w := by
  have hcall : w ∈ (s.forwardCall M cfg addr v u).taintedValues ↔
      w ∈ s.taintedValues ∨ ∃ a, w = .arg a ∧ EntersParameter M cfg addr v u a := mem_forwardCall hs
  -- what is left is whether the user itself is tainted
  have hpass (h : M.kind u ≠ .ret (some v) ∧ ∀ ptr, M.kind u = .store v ptr → LocalPointer M ptr) :
      w ∈ (s.forwardCall M cfg addr v u).taintedValues ∨ w = .inst u ↔
        w ∈ s.taintedValues ∨ FlowsVia M cfg addr v u w := by
    rw [hcall, FlowsVia, and_iff_left h, or_assoc, or_comm (a := ∃ a, _)]
  have hstay (h : ¬ (M.kind u ≠ .ret (some v) ∧
      ∀ ptr, M.kind u = .store v ptr → LocalPointer M ptr)) :
      w ∈ (s.forwardCall M cfg addr v u).taintedValues ↔
        w ∈ s.taintedValues ∨ FlowsVia M cfg addr v u w := by
    rw [hcall, FlowsVia]
    exact or_congr_right (or_iff_right fun hw => h hw.2).symm
  unfold forwardUser
  dsimp only
  split
  next value hkind =>
    split
    next hv =>
      subst hv
      exact hstay fun h => h.1 hkind
    next hv =>
      rw [mem_propagate_iff]
      refine hpass ⟨fun h => hv ?_, fun ptr h => ?_⟩
      · rw [hkind] at h
        exact Option.some.inj (InstKind.ret.inj h)
      · rw [hkind] at h
        cases h
  next value ptr hkind =>
    have hnoret : M.kind u ≠ .ret (some v) := by
      rw [hkind]
      exact fun h => by cases h
    split
    next hv =>
      subst hv
      split
      next hglobal =>
        apply hstay
        intro h
        have hlocal := (h.2 ptr hkind).1
        rw [hglobal] at hlocal
        cases hlocal
      next hglobal =>
        split
        next a horigin =>
          apply hstay
          intro h
          have hlocal := (h.2 ptr hkind).2
          rw [horigin] at hlocal
          cases hlocal
        next horigin =>
          rw [mem_propagate_iff, mem_forwardLocalStore_values]
          refine hpass ⟨hnoret, fun ptr' h => ?_⟩
          rw [hkind] at h
          cases h
          exact ⟨by simpa using hglobal, horigin⟩
    next hv =>
      rw [mem_propagate_iff]
      refine hpass ⟨hnoret, fun ptr' h => ?_⟩
      rw [hkind] at h
      exact absurd (InstKind.store.inj h).1 hv
  next hret hstore =>
    rw [mem_propagate_iff]
    exact hpass ⟨fun h => hret v h, fun ptr h => absurd h (hstore v ptr)⟩

end PassState

/-! ## Along the run -/

namespace Control

/-- The users of `v` that the visit in progress has still to come to. -/
def unvisited (v : Value) : Control → List InstId
  | forwardUsers w rest => if v = w then rest else []
  | _ => []

end Control

namespace Point

variable {M : Module} {cfg : Config} {addr : Value → Nat}

theorem initialTargets_of_reachable {m : Point} (h : Reachable M cfg addr m)
    (hphase : m.control.upward = false) : m.state.InitialTargets M cfg := by
  refine (Point.invariant (F := PassState.InitialTargets M cfg) (U := fun _ => True)
    (fun s t hs hst => ?_) (fun s t hs hst => ?_) (fun s t hs hst => ?_) (fun s t hs hst => ?_)
    (fun _ _ => trivial) (fun _ _ _ _ _ _ => trivial) (fun _ _ _ _ => trivial)
    (fun _ _ _ _ => trivial) valid_initialPoint (fun _ => rfl) (fun _ => trivial) h).1 hphase
  · exact hst.targets.trans hs
  · exact hst.targets.trans hs
  · exact hst.targets.trans hs
  · exact hst.functionPointerTargets.trans hs

/-- Every tainted value is queued or its users visited so far are done with. -/
def QueuedOrDone (M : Module) (D : Value → InstId → PassState → Prop) (m : Point) : Prop :=
  ∀ v ∈ m.state.taintedValues, v ∈ m.state.worklist ∨
    ∀ u ∈ M.users v, u ∈ m.control.unvisited v ∨ D v u m.state

section Worklist

variable {D : Value → InstId → PassState → Prop}

/-- Growth keeps this when no visit is skipped. -/
theorem QueuedOrDone.extend (hmono : ∀ v u s t, s.Extends t → D v u s → D v u t)
    {m m' : Point} (h : m.QueuedOrDone M D) (hext : m.state.Extends m'.state)
    (hrest : ∀ v, ∀ u ∈ m.control.unvisited v,
      u ∈ m'.control.unvisited v ∨ D v u m'.state) : m'.QueuedOrDone M D := by
  intro v hv
  rcases hext.queued v hv with hold | hqueued
  · rcases h v hold with hqueued | hvisited
    · exact .inl (hext.worklist v hqueued)
    · right
      intro u hu
      rcases hvisited u hu with hmem | hdone
      · exact hrest v u hmem
      · exact .inr (hmono v u _ _ hext hdone)
  · exact .inl hqueued

theorem QueuedOrDone.step (hmono : ∀ v u s t, s.Extends t → D v u s → D v u t)
    (hbook : ∀ v u s t, s.Bookkeeping t → D v u s → D v u t)
    (hvisit : ∀ v u rest s, Reachable M cfg addr ⟨.forwardUsers v (u :: rest), s⟩ →
      D v u (s.forwardUser M cfg addr v u))
    {m m' : Point} (hreach : Reachable M cfg addr m)
    (hphase : m.control.upward = false) (h : m.QueuedOrDone M D)
    (hstep : LinuxAnalysis.step M cfg addr m = some m') : m'.QueuedOrDone M D := by
  -- the flags and the marks of a scan are no part of what is done
  have hchange {control' : Control} {t : PassState} (hst : m.state.Bookkeeping t)
      (hworklist : t.worklist = m.state.worklist)
      (hrest : ∀ v, ∀ u ∈ m.control.unvisited v, u ∈ control'.unvisited v) :
      (⟨control', t⟩ : Point).QueuedOrDone M D := by
    intro v hv
    have hv' : v ∈ m.state.taintedValues := hst.taintedValues ▸ hv
    rcases h v hv' with hqueued | hvisited
    · left
      show v ∈ t.worklist
      rwa [hworklist]
    · exact .inr fun u hu => (hvisited u hu).imp (hrest v u) (hbook v u _ _ hst)
  cases transition_of_step hstep with
  | @seedOperand i op rest n found s =>
    exact h.extend hmono (extends_seedOperand M cfg i ⟨s, n, found⟩ op) fun v u hu => by cases hu
  | seeded | forwardTurn | forwardLoadsEnd =>
    exact hchange ⟨rfl, rfl, rfl, rfl, rfl, rfl, rfl, rfl, rfl⟩ rfl fun v u hu => by cases hu
  | forwardEnd | forwardDrained | killStoresEnd => exact h
  | @forwardPop v rest s hwl =>
    intro w hw
    rcases h w hw with hqueued | hvisited
    · rw [show s.worklist = v :: rest from hwl, List.mem_cons] at hqueued
      rcases hqueued with rfl | hqueued
      · -- the popped value has all its users before it
        refine .inr fun u hu => .inl ?_
        show u ∈ if w = w then M.getSortedUsers addr w else []
        rw [if_pos rfl]
        exact mem_sortOn.mpr hu
      · exact .inl hqueued
    · refine .inr fun u hu => .inr ?_
      exact hbook w u s _ ⟨rfl, rfl, rfl, rfl, rfl, rfl, rfl, rfl, rfl⟩
        ((hvisited u hu).resolve_left List.not_mem_nil)
  | @forwardUser v i rest s =>
    refine h.extend hmono (PassState.extends_forwardUser M cfg addr v s i) fun w u hu => ?_
    have hmem : u ∈ if w = v then i :: rest else [] := hu
    by_cases hw : w = v
    · subst hw
      rw [if_pos rfl] at hmem
      rcases List.mem_cons.mp hmem with rfl | hmem
      · exact .inr (hvisit w u rest s hreach)
      · left
        show u ∈ if w = w then rest else []
        rwa [if_pos rfl]
    · -- only the users of the value being visited are unvisited
      rw [if_neg hw] at hmem
      exact absurd hmem List.not_mem_nil
  | @forwardUsersEnd v s =>
    refine h.extend hmono (.refl s) fun w u hu => ?_
    have hnil : u ∈ if w = v then ([] : List InstId) else [] := hu
    rw [ite_self] at hnil
    exact absurd hnil List.not_mem_nil
  | @killStore i rest s =>
    exact h.extend hmono (PassState.extends_identifyKillStore M s i) fun v u hu => by cases hu
  | @forwardLoad ptrs p i rest changed s =>
    exact h.extend hmono (PassState.extends_scanLoad M true p (s, changed) i)
      fun v u hu => by cases hu
  | _ => cases hphase

/-- **Worklist rule.**  What every visit of the forward worklist establishes for its value and user,
and growth keeps, holds at each point of the forward phase of all users visited of values not queued. -/
theorem queuedOrDone_of_reachable (hmono : ∀ v u s t, s.Extends t → D v u s → D v u t)
    (hbook : ∀ v u s t, s.Bookkeeping t → D v u s → D v u t)
    (hvisit : ∀ v u rest s, Reachable M cfg addr ⟨.forwardUsers v (u :: rest), s⟩ →
      D v u (s.forwardUser M cfg addr v u))
    {m : Point} (h : Reachable M cfg addr m) (hphase : m.control.upward = false) :
    m.QueuedOrDone M D := by
  have hinv := h.invariant (I := fun m => Reachable M cfg addr m ∧
    (m.control.upward = false → m.QueuedOrDone M D)) (fun m m' hm hstep => ?_) ⟨.refl _, ?_⟩
  · exact hinv.2 hphase
  · refine ⟨hm.1.trans (.single hstep), fun hphase' => ?_⟩
    cases hbefore : m.control.upward with
    | false => exact (hm.2 hbefore).step hmono hbook hvisit hm.1 hbefore hstep
    | true =>
      rw [((step_spec (valid_of_reachable hm.1) hstep).upward hbefore).1] at hphase'
      cases hphase'
  · intro _ v hv
    obtain ⟨targets, hstate⟩ := initialPoint_state M cfg
    rw [hstate] at hv
    exact absurd hv (DenseSet.not_mem_empty v)

/-- All users of all tainted values are done with when the forward loop exits. -/
theorem forwardPhase_done (hmono : ∀ v u s t, s.Extends t → D v u s → D v u t)
    (hbook : ∀ v u s t, s.Bookkeeping t → D v u s → D v u t)
    (hvisit : ∀ v u rest s, Reachable M cfg addr ⟨.forwardUsers v (u :: rest), s⟩ →
      D v u (s.forwardUser M cfg addr v u))
    {fuel : Nat} {t : PassState} (h : forwardPhase M cfg addr fuel = some t) {v : Value}
    (hv : v ∈ t.taintedValues) {u : InstId} (hu : u ∈ M.users v) : D v u t := by
  rcases queuedOrDone_of_reachable hmono hbook hvisit (forwardLoop_reaches h).1 rfl v hv with
    hqueued | hvisited
  · rw [show (⟨.forwardLoop, t⟩ : Point).state.worklist = [] from (forwardPhase_processed h).1]
      at hqueued
    exact absurd hqueued List.not_mem_nil
  · exact (hvisited u hu).resolve_left List.not_mem_nil

end Worklist

/-- Every tainted value is queued or has been passed on by all users visited. -/
def PassedOn (M : Module) (cfg : Config) (addr : Value → Nat) (m : Point) : Prop :=
  ∀ v ∈ m.state.taintedValues, v ∈ m.state.worklist ∨
    ∀ u ∈ M.users v, u ∈ m.control.unvisited v ∨
      ∀ w, FlowsVia M cfg addr v u w → w ∈ m.state.taintedValues

theorem passedOn_of_reachable {m : Point} (h : Reachable M cfg addr m)
    (hphase : m.control.upward = false) : m.PassedOn M cfg addr := by
  apply queuedOrDone_of_reachable (D := fun v u s => ∀ w, FlowsVia M cfg addr v u w →
    w ∈ s.taintedValues) _ _ _ h hphase
  · intro v u s t hext hdone w hw
    exact hext.taintedValues w (hdone w hw)
  · intro v u s t hst hdone w hw
    rw [hst.taintedValues]
    exact hdone w hw
  · intro v u rest s hreach w hw
    exact (PassState.mem_forwardUser (initialTargets_of_reachable hreach rfl)).mpr (.inr hw)

end Point

/-- **Closure.**  When the forward loop exits, all that tainted values flow to is tainted. -/
theorem forwardPhase_flowsTo {M : Module} {cfg : Config} {addr : Value → Nat} {fuel : Nat}
    {t : PassState} (h : forwardPhase M cfg addr fuel = some t) {v w : Value}
    (hv : v ∈ t.taintedValues) (hvw : FlowsTo M cfg addr v w) : w ∈ t.taintedValues := by
  obtain ⟨u, hu, hvia⟩ := hvw
  have hpassed := Point.passedOn_of_reachable (forwardLoop_reaches h).1 rfl v hv
  rw [show (⟨.forwardLoop, t⟩ : Point).state.worklist = [] from (forwardPhase_processed h).1] at hpassed
  rcases hpassed with hqueued | hvisited
  · exact absurd hqueued List.not_mem_nil
  · rcases hvisited u hu with hmem | hflow
    · exact absurd hmem List.not_mem_nil
    · exact hflow w hvia

end LinuxAnalysis
