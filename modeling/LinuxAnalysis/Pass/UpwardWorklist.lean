import LinuxAnalysis.Pass.Progress
import LinuxAnalysis.Pass.Visit

/-!
# The upward worklist

The upward drains take from the worklist what was tainted since the upward phase began, and nothing
else.  A value that was taken has had all its users visited when the visit of it is over, so what
every visit establishes holds at the end of all users of all values tainted in the phase.
-/

open LinuxAnalysis.Lib

namespace LinuxAnalysis

namespace Control

/-- The users of `v` that a visit in progress of the upward worklist has still to come to. -/
def upwardUnvisited (v : Value) : Control → List InstId
  | upwardUsers _ w rest => if v = w then rest else []
  | _ => []

/-- Nothing is queued between the turns of the upward loop. -/
def betweenTurns : Control → Bool
  | upwardEntry | upwardLoop | finished => true
  | _ => false

end Control

namespace PassState

variable {M : Module} {cfg : Config} {addr : Value → Nat}

/-- The sets grow, and only values not tainted before are put on the worklist. -/
structure PushesFresh (s t : PassState) : Prop where
  values : s.taintedValues ⊆ t.taintedValues
  fresh : ∀ v ∈ t.worklist, v ∈ s.worklist ∨ v ∉ s.taintedValues

theorem PushesFresh.trans {s t u : PassState} (h₁ : s.PushesFresh t) (h₂ : t.PushesFresh u) :
    s.PushesFresh u := by
  refine ⟨DenseSet.Subset.trans h₁.values h₂.values, fun v hv => ?_⟩
  rcases h₂.fresh v hv with hv | hv
  · exact h₁.fresh v hv
  · exact .inr fun hs => hv (h₁.values v hs)

theorem pushesFresh_of_steps {R : PassState → PassState → Prop}
    (hR : ∀ s t, R s t → s.PushesFresh t) {s t : PassState} (h : Relation.ReflTransGen R s t) :
    s.PushesFresh t := by
  induction h with
  | refl => exact ⟨DenseSet.Subset.refl _, fun v hv => .inl hv⟩
  | tail _ hstep ih => exact ih.trans (hR _ _ hstep)

/-- An update that pushes nothing. -/
theorem Extends.pushesNothing {s t : PassState} (h : s.Extends t) (hw : t.worklist = s.worklist) :
    s.PushesFresh t := by
  refine ⟨h.taintedValues, fun v hv => ?_⟩
  rw [hw] at hv
  exact .inl hv

/-- An update that pushes the one value it taints. -/
theorem Extends.pushesOne {s t : PassState} {v : Value} (h : s.Extends t) (hnew : v ∉ s.taintedValues)
    (hw : t.worklist = v :: s.worklist) : s.PushesFresh t := by
  refine ⟨h.taintedValues, fun w hv => ?_⟩
  rw [hw] at hv
  rcases List.mem_cons.mp hv with rfl | hv
  · exact .inr hnew
  · exact .inl hv

theorem worklist_ensureLevelSet (i : InstId) (s : PassState) :
    (s.ensureLevelSet i).worklist = s.worklist := by
  unfold ensureLevelSet
  split
  · rfl
  · split <;> rfl

theorem UpwardStep.pushesFresh {start s t : PassState} (h : UpwardStep M start s t) : s.PushesFresh t := by
  have hext := h.extends
  cases h with
  | call _ _ _ hnew =>
    exact hext.pushesOne hnew (congrArg (List.cons _) (worklist_initFunctionLevel _ _ _))
  | passThrough _ _ _ _ _ => exact hext.pushesNothing (worklist_initFunctionLevel _ _ _)
  | pointed _ _ _ _ _ =>
    exact hext.pushesNothing
      ((worklist_taintPointer _ _ _).trans (worklist_initFunctionLevel _ _ s))
  | field _ _ _ _ _ _ _ _ _ _ _ => exact hext.pushesNothing (worklist_taintPointer _ _ s)
  | use _ _ hnew => exact hext.pushesOne hnew rfl
  | store _ _ _ => exact hext.pushesNothing (worklist_taintPointer _ _ s)
  | parameterStore _ _ _ _ => exact hext.pushesNothing rfl
  | @fields f n indices =>
    refine hext.pushesNothing ?_
    unfold recordFieldAccess
    split <;> rfl
  | returned _ _ _ => exact hext.pushesNothing rfl

theorem ScanStep.pushesFresh {s t : PassState} (h : ScanStep M s t) : s.PushesFresh t := by
  have hext := h.extends
  cases h with
  | kill _ _ => exact hext.pushesNothing rfl
  | level _ _ _ _ => exact hext.pushesNothing (worklist_ensureLevelSet _ s)
  | load _ _ _ hnew =>
    exact hext.pushesOne hnew (congrArg (List.cons _) (worklist_ensureLevelSet _ s))

end PassState

namespace Point

variable {M : Module} {cfg : Config} {addr : Value → Nat}

/-- The upward phase is entered once: its points come after the entry. -/
theorem reaches_of_upward {m : Point} {s : PassState}
    (hentry : Reachable M cfg addr ⟨.upwardEntry, s⟩) (hm : Reachable M cfg addr m)
    (hphase : m.control.upward = true) : Reaches (step M cfg addr) ⟨.upwardEntry, s⟩ m := by
  rcases Reaches.linear hentry hm with hreach | hreach
  · exact hreach
  · rcases Relation.ReflTransGen.cases_tail hreach with heq | ⟨a, ha, hstep⟩
    · exact heq ▸ .refl _
    · -- no step of the phase leads to its entry
      have hup := upward_of_reaches (valid_of_reachable hm) hphase ha
      cases transition_of_step hstep
      cases hup

/-! ## What is taken from the worklist -/

/-- Nothing tainted before the phase is queued or being visited. -/
structure TakesFresh (before : DenseSet Value) (m : Point) : Prop where
  values : before ⊆ m.state.taintedValues
  queued : ∀ v ∈ m.state.worklist, v ∉ before
  visiting : ∀ old v rest, m.control = .upwardUsers old v rest → v ∉ before

theorem TakesFresh.extend {before : DenseSet Value} {m m' : Point} (h : m.TakesFresh before)
    (hpush : m.state.PushesFresh m'.state)
    (hvisiting : ∀ old v rest, m'.control = .upwardUsers old v rest → v ∉ before) :
    m'.TakesFresh before := by
  refine ⟨DenseSet.Subset.trans h.values hpush.values, fun v hv => ?_, hvisiting⟩
  rcases hpush.fresh v hv with hv | hv
  · exact h.queued v hv
  · exact fun hbefore => hv (h.values v hbefore)

theorem TakesFresh.step {before : DenseSet Value} {m m' : Point} (hvalid : m.Valid M cfg)
    (hphase : m.control.upward = true) (h : m.TakesFresh before)
    (hstep : LinuxAnalysis.step M cfg addr m = some m') : m'.TakesFresh before := by
  have hpending := hvalid.pending
  -- steps that touch neither the values nor the worklist
  have hsame {t : PassState} (hv : t.taintedValues = m.state.taintedValues)
      (hw : t.worklist = m.state.worklist) : m.state.PushesFresh t := by
    refine ⟨?_, fun v hmem => ?_⟩
    · rw [hv]
    · rw [hw] at hmem
      exact .inl hmem
  have hupdates {t : PassState}
      (hsteps : Relation.ReflTransGen (PassState.UpwardStep M m.state) m.state t) :
      m.state.PushesFresh t :=
    PassState.pushesFresh_of_steps (fun _ _ => PassState.UpwardStep.pushesFresh) hsteps
  cases transition_of_step hstep with
  | returningCall =>
    obtain ⟨hf, hi⟩ := hpending _ List.mem_cons_self
    exact h.extend (hupdates (PassState.taintReturningCall_steps hf hi))
      fun old v rest hc => by cases hc
  | paramCall =>
    obtain ⟨hparams, hi⟩ := hpending _ List.mem_cons_self
    exact h.extend (hupdates (PassState.upwardCallSite_steps hparams hi))
      fun old v rest hc => by cases hc
  | @upwardPop old v rest s hwl =>
    have hmem : ∀ w ∈ v :: rest, w ∉ before := fun w hw => h.queued w (hwl ▸ hw)
    refine ⟨h.values, fun w hw => hmem w (List.mem_cons_of_mem v hw), fun old w us hc => ?_⟩
    cases hc
    exact hmem v List.mem_cons_self
  | @upwardTurnEnd old s =>
    refine h.extend ?_ fun old v rest hc => by cases hc
    show s.PushesFresh (s.compareSizes old)
    unfold PassState.compareSizes
    split <;> exact hsame rfl rfl
  | @upwardUser old v u rest s =>
    refine h.extend (hupdates (PassState.upwardUser_steps hpending.1
      (hpending.2 u List.mem_cons_self))) fun old w us hc => ?_
    -- the value being visited stays the same
    cases hc
    exact h.visiting old v (u :: rest) rfl
  | @upwardLoad old ptrs p i rest changed s =>
    obtain ⟨hp, hi⟩ := hpending _ List.mem_cons_self
    have hsteps := PassState.scanLoad_steps false (r := (s, changed)) hi hp
    exact h.extend (PassState.pushesFresh_of_steps (fun _ _ => PassState.ScanStep.pushesFresh)
      hsteps) fun old v rest hc => by cases hc
  | upwardStart | upwardSkip | upwardTurn | upwardEnd | returningCallsEnd | paramCallsEnd | upwardScan
  | upwardUsersEnd | upwardLoadsEnd =>
    exact h.extend (hsame rfl rfl) fun old v rest hc => by cases hc
  | _ => cases hphase

/-! ## What is left of the worklist -/

/-- Every value tainted since `before` is queued or its users visited so far are done with. -/
structure DoneSince (M : Module) (before : DenseSet Value) (D : Value → InstId → PassState → Prop)
    (m : Point) : Prop where
  users : ∀ v ∈ m.state.taintedValues, v ∈ before ∨ v ∈ m.state.worklist ∨
    ∀ u ∈ M.users v, u ∈ m.control.upwardUnvisited v ∨ D v u m.state
  empty : m.control.betweenTurns = true → m.state.worklist = []

section Rule

variable {D : Value → InstId → PassState → Prop} {before : DenseSet Value}

/-- Growth keeps this when no visit is skipped. -/
theorem DoneSince.extend (hmono : ∀ v u s t, s.Extends t → D v u s → D v u t) {m m' : Point}
    (h : m.DoneSince M before D) (hext : m.state.Extends m'.state)
    (hrest : ∀ v, ∀ u ∈ m.control.upwardUnvisited v,
      u ∈ m'.control.upwardUnvisited v ∨ D v u m'.state)
    (hempty : m'.control.betweenTurns = true → m'.state.worklist = []) :
    m'.DoneSince M before D := by
  refine ⟨fun v hv => ?_, hempty⟩
  rcases hext.queued v hv with hold | hqueued
  · rcases h.users v hold with hbefore | hqueued | hvisited
    · exact .inl hbefore
    · exact .inr (.inl (hext.worklist v hqueued))
    · refine .inr (.inr fun u hu => ?_)
      rcases hvisited u hu with hmem | hdone
      · exact hrest v u hmem
      · exact .inr (hmono v u _ _ hext hdone)
  · exact .inr (.inl hqueued)

theorem DoneSince.step (hmono : ∀ v u s t, s.Extends t → D v u s → D v u t)
    (hbook : ∀ v u s t, s.Bookkeeping t → D v u s → D v u t)
    (hvisit : ∀ old v u rest s, Reachable M cfg addr ⟨.upwardUsers old v (u :: rest), s⟩ →
      D v u (s.upwardUser M v u))
    {m m' : Point} (hreach : Reachable M cfg addr m) (hphase : m.control.upward = true)
    (h : m.DoneSince M before D) (hstep : LinuxAnalysis.step M cfg addr m = some m') :
    m'.DoneSince M before D := by
  have hpending := (valid_of_reachable hreach).pending
  -- the update steps only add, so `DoneSince.extend` carries them
  have hupdates {t : PassState}
      (hsteps : Relation.ReflTransGen (PassState.UpwardStep M m.state) m.state t) : m.state.Extends t :=
    PassState.extends_of_steps (fun _ _ => PassState.UpwardStep.extends) hsteps
  cases transition_of_step hstep with
  | @upwardStart s =>
    exact h.extend hmono (PassState.extends_discovered s true) (fun v u hu => by cases hu)
      fun _ => h.empty rfl
  | @upwardSkip s =>
    exact h.extend hmono (.refl s) (fun v u hu => by cases hu) fun _ => h.empty rfl
  | @upwardTurn s =>
    exact h.extend hmono (PassState.extends_discovered s false) (fun v u hu => by cases hu)
      fun hbetween => by cases hbetween
  | @upwardEnd s =>
    exact h.extend hmono (.refl s) (fun v u hu => by cases hu) fun _ => h.empty rfl
  | returningCall =>
    obtain ⟨hf, hi⟩ := hpending _ List.mem_cons_self
    exact h.extend hmono (hupdates (PassState.taintReturningCall_steps hf hi))
      (fun v u hu => by cases hu) fun hbetween => by cases hbetween
  | paramCall =>
    obtain ⟨hparams, hi⟩ := hpending _ List.mem_cons_self
    exact h.extend hmono (hupdates (PassState.upwardCallSite_steps hparams hi))
      (fun v u hu => by cases hu) fun hbetween => by cases hbetween
  | @returningCallsEnd _ s | @paramCallsEnd _ s | @upwardScan _ s =>
    exact h.extend hmono (.refl s) (fun v u hu => by cases hu) fun hbetween => by cases hbetween
  | @upwardTurnEnd old s hempty =>
    have hcompare : s.Extends (s.compareSizes old) ∧
        (s.compareSizes old).worklist = s.worklist := by
      unfold PassState.compareSizes
      split
      · exact ⟨PassState.extends_discovered s true, rfl⟩
      · exact ⟨.refl s, rfl⟩
    exact h.extend hmono hcompare.1 (fun v u hu => by cases hu) fun _ => hcompare.2.trans hempty
  | @upwardPop old v rest s hwl =>
    refine ⟨fun w hw => ?_, fun hbetween => by cases hbetween⟩
    rcases h.users w hw with hbefore | hqueued | hvisited
    · exact .inl hbefore
    · rw [show s.worklist = v :: rest from hwl, List.mem_cons] at hqueued
      rcases hqueued with rfl | hqueued
      · -- the popped value has all its users before it
        refine .inr (.inr fun u hu => .inl ?_)
        show u ∈ if w = w then M.getSortedUsers addr w else []
        rw [if_pos rfl]
        exact mem_sortOn.mpr hu
      · exact .inr (.inl hqueued)
    · refine .inr (.inr fun u hu => .inr ?_)
      exact hbook w u s _ ⟨rfl, rfl, rfl, rfl, rfl, rfl, rfl, rfl, rfl⟩
        ((hvisited u hu).resolve_left List.not_mem_nil)
  | @upwardUser old v i rest s =>
    have hext : s.Extends (s.upwardUser M v i) :=
      hupdates (PassState.upwardUser_steps hpending.1 (hpending.2 i List.mem_cons_self))
    refine h.extend hmono hext (fun w u hu => ?_) fun hbetween => by cases hbetween
    have hmem : u ∈ if w = v then i :: rest else [] := hu
    by_cases hw : w = v
    · subst hw
      rw [if_pos rfl] at hmem
      rcases List.mem_cons.mp hmem with rfl | hmem
      · exact .inr (hvisit old w u rest s hreach)
      · left
        show u ∈ if w = w then rest else []
        rwa [if_pos rfl]
    · -- only the users of the value being visited are unvisited
      rw [if_neg hw] at hmem
      exact absurd hmem List.not_mem_nil
  | @upwardUsersEnd old v s =>
    refine h.extend hmono (.refl s) (fun w u hu => ?_) fun hbetween => by cases hbetween
    have hnil : u ∈ if w = v then ([] : List InstId) else [] := hu
    rw [ite_self] at hnil
    exact absurd hnil List.not_mem_nil
  | @upwardLoad old ptrs p i rest changed s =>
    exact h.extend hmono (PassState.extends_scanLoad M false p (s, changed) i)
      (fun v u hu => by cases hu) fun hbetween => by cases hbetween
  | @upwardLoadsEnd old ptrs changed s =>
    exact h.extend hmono { PassState.Extends.refl s with } (fun v u hu => by cases hu)
      fun hbetween => by cases hbetween
  | _ => cases hphase

end Rule

end Point

/-- **Upward worklist rule.**  What every visit of the upward worklist establishes for its value and
user, and growth keeps, holds at the end of all users of the values tainted in the upward phase. -/
theorem upwardPhase_done {M : Module} {cfg : Config} {addr : Value → Nat}
    {D : Value → InstId → PassState → Prop}
    (hmono : ∀ v u s t, s.Extends t → D v u s → D v u t)
    (hbook : ∀ v u s t, s.Bookkeeping t → D v u s → D v u t)
    (hvisit : ∀ old v u rest s, Reachable M cfg addr ⟨.upwardUsers old v (u :: rest), s⟩ →
      D v u (s.upwardUser M v u))
    {fuel : Nat} {s t : PassState} (hs : forwardPhase M cfg addr fuel = some s)
    (ht : run M cfg addr fuel = some t) {v : Value} (hnew : v ∉ s.taintedValues)
    (hv : v ∈ t.taintedValues) {u : InstId} (hu : u ∈ M.users v) : D v u t := by
  have hentry := forwardPhase_reaches hs
  have hstart : (⟨.upwardEntry, s⟩ : Point).DoneSince M s.taintedValues D :=
    ⟨fun v hv => .inl hv, fun _ => (forwardPhase_processed hs).1⟩
  have hinv := (Point.reaches_finished hentry ht).invariant
    (I := fun m => Reachable M cfg addr m ∧ m.control.upward = true ∧
      m.DoneSince M s.taintedValues D) (fun m m' hm hstep => ?_) ⟨hentry, rfl, hstart⟩
  · obtain ⟨_, _, hdone⟩ := hinv
    rcases hdone.users v hv with hbefore | hqueued | hvisited
    · exact absurd hbefore hnew
    · rw [hdone.empty rfl] at hqueued
      exact absurd hqueued List.not_mem_nil
    · exact (hvisited u hu).resolve_left List.not_mem_nil
  · have hspec := Point.step_spec (Point.valid_of_reachable hm.1) hstep
    exact ⟨hm.1.trans (.single hstep), (hspec.upward hm.2.1).1,
      hm.2.2.step hmono hbook hvisit hm.1 hm.2.1 hstep⟩

/-- What the upward worklist visits was tainted in the upward phase. -/
theorem fresh_of_upwardUsers {M : Module} {cfg : Config} {addr : Value → Nat} {fuel : Nat}
    {s : PassState} (hs : forwardPhase M cfg addr fuel = some s) {old : Nat × Nat} {v : Value}
    {rest : List InstId} {t : PassState}
    (h : Reachable M cfg addr ⟨.upwardUsers old v rest, t⟩) : v ∉ s.taintedValues := by
  have hentry := forwardPhase_reaches hs
  have hstart : (⟨.upwardEntry, s⟩ : Point).TakesFresh s.taintedValues := by
    refine ⟨DenseSet.Subset.refl _, fun w hw => ?_, fun old w us hc => by cases hc⟩
    rw [show (⟨.upwardEntry, s⟩ : Point).state.worklist = [] from (forwardPhase_processed hs).1] at hw
    exact absurd hw List.not_mem_nil
  have hafter := Point.reaches_of_upward hentry h rfl
  have hinv := hafter.invariant (I := fun m => m.Valid M cfg ∧ m.control.upward = true ∧
    m.TakesFresh s.taintedValues) (fun m m' hm hstep => ?_)
    ⟨Point.valid_of_reachable hentry, rfl, hstart⟩
  · exact hinv.2.2.visiting old v rest rfl
  · have hspec := Point.step_spec hm.1 hstep
    exact ⟨hspec.valid, (hspec.upward hm.2.1).1, hm.2.2.step hm.1 hm.2.1 hstep⟩

end LinuxAnalysis
