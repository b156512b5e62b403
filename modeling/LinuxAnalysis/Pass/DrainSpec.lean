import LinuxAnalysis.Pass.ScanSpec
import Mathlib.Logic.Relation

/-!
# What draining the worklist does

Without interprocedural tracking, a drain adds exactly the values that the tainted ones reach through
their uses, and the pointers these are stored to.  Nothing but the choice of the recorded origins
depends on the order of the visits.
-/

open LinuxAnalysis.Lib

namespace LinuxAnalysis

/-! ## Uses that pass taint on -/

/-- Neither a global variable nor derived from a pointer parameter. -/
def LocalPointer (M : Module) (ptr : Value) : Prop :=
  (M.stripPointerCasts ptr).isGlobalVariable = false ∧ M.getPointerParameterOrigin ptr = none

/-- `w` is a user of `v` other than a return of it or a store of it that leaves the function. -/
def PassesTo (M : Module) (v w : Value) : Prop :=
  ∃ u ∈ M.users v, w = .inst u ∧ M.kind u ≠ .ret (some v) ∧
    ∀ ptr, M.kind u = .store v ptr → LocalPointer M ptr

/-- `store` puts `v` into the local variable behind `p`. -/
def StoresTo (M : Module) (v : Value) (store : InstId) (p : Value) : Prop :=
  store ∈ M.users v ∧ ∃ ptr, M.kind store = .store v ptr ∧ LocalPointer M ptr ∧
    M.stripPointerCasts ptr = p

theorem StoresTo.mem_insts {M : Module} {v p : Value} {store : InstId}
    (h : StoresTo M v store p) : store ∈ M.insts :=
  (Module.mem_users.mp h.1).1

/-- `v` is reached from the values of `start` along uses none of whose values before `v` is stored to
`p`. -/
def ReachAvoiding (M : Module) (start : DenseSet Value) (p v : Value) : Prop :=
  ∃ w ∈ start, Relation.ReflTransGen
    (fun x y => PassesTo M x y ∧ ∀ store, ¬ StoresTo M x store p) w v

namespace PassState

variable {M : Module} {cfg : Config} {addr : Value → Nat}

theorem UseRecorded.passes {s : PassState} {v w : Value}
    (h : ∀ u ∈ M.users v, UseRecorded M s v u) (hvw : PassesTo M v w) : w ∈ s.taintedValues := by
  obtain ⟨u, hu, rfl, hret, hstore⟩ := hvw
  rcases (h u hu).user with ht | ⟨hr, _⟩ | ⟨ptr, hs, hg⟩ | ⟨ptr, a, hs, ho, _⟩
  · exact ht
  · exact absurd hr hret
  · rw [(hstore ptr hs).1] at hg
    cases hg
  · rw [(hstore ptr hs).2] at ho
    cases ho

theorem UseRecorded.stores {s : PassState} {v p : Value} {store : InstId}
    (h : ∀ u ∈ M.users v, UseRecorded M s v u) (hs : StoresTo M v store p) :
    p ∈ s.taintedPointers := by
  obtain ⟨hu, ptr, hkind, ⟨hg, ho⟩, rfl⟩ := hs
  exact (h store hu).pointer ptr hkind hg ho

/-! ## The drain invariant -/

/-- A state on the way of a drain that started in `s₀`; `current` is the value whose users are being
visited.  A value pushed by that visit is known to avoid a pointer only when the visit is over. -/
structure Drained (M : Module) (s₀ : PassState) (current : Option Value) (s : PassState) : Prop where
  values : s₀.taintedValues ⊆ s.taintedValues
  pointers : s₀.taintedPointers ⊆ s.taintedPointers
  oldOrigins : ∀ p ∈ s₀.taintedPointers,
    s.pointerTaintOrigin.lookup p = s₀.pointerTaintOrigin.lookup p
  reached : ∀ v ∈ s.taintedValues, ∃ w ∈ s₀.taintedValues, Relation.ReflTransGen (PassesTo M) w v
  visiting : ∀ v ∈ current, v ∈ s.taintedValues ∧
    ∀ p, p ∉ s.taintedPointers → ReachAvoiding M s₀.taintedValues p v
  avoiding : ∀ p, p ∉ s.taintedPointers → ∀ w ∈ s.taintedValues,
    ReachAvoiding M s₀.taintedValues p w ∨ ∃ v ∈ current, PassesTo M v w
  queued : ∀ v ∈ s.worklist, v ∈ s.taintedValues
  newOrigins : ∀ p ∈ s.taintedPointers, p ∉ s₀.taintedPointers →
    ∃ v ∈ s.taintedValues, ReachAvoiding M s₀.taintedValues p v ∧
      ∃ store, StoresTo M v store p ∧ s.pointerTaintOrigin.lookup p = some store
  changed : s.changed = true ↔ ∃ p ∈ s.taintedPointers, p ∉ s₀.taintedPointers
  keeps : s₀.KeepsScans s

theorem Drained.init {s : PassState} (hqueued : ∀ v ∈ s.worklist, v ∈ s.taintedValues)
    (hchanged : s.changed = false) : Drained M s none s where
  values := DenseSet.Subset.refl _
  pointers := DenseSet.Subset.refl _
  oldOrigins _ _ := rfl
  reached v hv := ⟨v, hv, .refl⟩
  visiting v hv := by cases hv
  avoiding p _ w hw := .inl ⟨w, hw, .refl⟩
  queued := hqueued
  newOrigins p hp hnew := absurd hp hnew
  changed := by
    rw [hchanged]
    refine iff_of_false (by decide) ?_
    rintro ⟨p, hp, hnew⟩
    exact hnew hp
  keeps := .refl s

theorem Drained.propagate {s₀ s : PassState} {v : Value} {user : InstId}
    (h : Drained M s₀ (some v) s) (hpass : PassesTo M v (.inst user)) :
    Drained M s₀ (some v) (s.propagate v user) := by
  unfold PassState.propagate
  split
  next => exact h
  next =>
    have hv := (h.visiting v rfl).1
    have hgrow : s.taintedValues ⊆ s.taintedValues.insert (.inst user) :=
      DenseSet.subset_insert _ _
    -- only the instruction is new, and it is reached through the visited value
    refine { h with
      values := DenseSet.Subset.trans h.values hgrow
      reached := fun w hw => ?_
      visiting := fun w hw => (h.visiting w hw).imp_left (hgrow w)
      avoiding := fun p hp w hw => ?_
      queued := fun w hw => ?_
      newOrigins := fun p hp hnew => ?_
      keeps := h.keeps.trans ⟨rfl, rfl⟩ }
    · rcases DenseSet.mem_insert.mp hw with rfl | hw
      · obtain ⟨x, hx, hxv⟩ := h.reached v hv
        exact ⟨x, hx, hxv.tail hpass⟩
      · exact h.reached w hw
    · rcases DenseSet.mem_insert.mp hw with rfl | hw
      · exact .inr ⟨v, rfl, hpass⟩
      · exact h.avoiding p hp w hw
    · rcases List.mem_cons.mp hw with rfl | hw
      · exact DenseSet.mem_insert.mpr (.inl rfl)
      · exact hgrow w (h.queued w hw)
    · obtain ⟨x, hx, hreach, hstore⟩ := h.newOrigins p hp hnew
      exact ⟨x, hgrow x hx, hreach, hstore⟩

theorem Drained.forwardLocalStore {s₀ s : PassState} {v p : Value} {store : InstId}
    (h : Drained M s₀ (some v) s) (hstore : StoresTo M v store p) :
    Drained M s₀ (some v) (s.forwardLocalStore store p) := by
  unfold PassState.forwardLocalStore
  split
  next => exact h
  next hp =>
    obtain ⟨hv, havoid⟩ := h.visiting v rfl
    -- the new pointer gets its origin and the old ones keep theirs
    have hold (q : Value) (hq : q ≠ p) :
        (s.taintPointer p store).pointerTaintOrigin.lookup q = s.pointerTaintOrigin.lookup q := by
      rw [taintPointer, if_neg hp]
      exact AList.lookup_insert_ne hq
    have hself : (s.taintPointer p store).pointerTaintOrigin.lookup p = some store := by
      rw [taintPointer, if_neg hp]
      exact AList.lookup_insert _
    have hsame : (s.taintPointer p store).taintedValues = s.taintedValues ∧
        (s.taintPointer p store).worklist = s.worklist := by
      rw [taintPointer, if_neg hp]
      exact ⟨rfl, rfl⟩
    have hext := extends_taintPointer p store s
    -- the values are the same, so every field about them follows from growth
    exact {
      values := DenseSet.Subset.trans h.values hext.taintedValues
      pointers := DenseSet.Subset.trans h.pointers hext.taintedPointers
      oldOrigins := fun q hq => (hext.origin q (h.pointers q hq)).trans (h.oldOrigins q hq)
      reached := fun w hw => h.reached w (by rwa [← hsame.1])
      visiting := fun w hw => ⟨hext.taintedValues w (h.visiting w hw).1,
        fun q hq => (h.visiting w hw).2 q fun hq' => hq (hext.taintedPointers q hq')⟩
      avoiding := fun q hq w hw =>
        h.avoiding q (fun hq' => hq (hext.taintedPointers q hq')) w (by rwa [← hsame.1])
      queued := fun w hw => hext.taintedValues w (h.queued w (by rwa [← hsame.2]))
      newOrigins := fun q hq hnew => by
        by_cases hqp : q = p
        · subst hqp
          exact ⟨v, hext.taintedValues v hv, havoid q hp, store, hstore, hself⟩
        · have hq := (mem_taintPointer.mp hq).resolve_left hqp
          obtain ⟨x, hx, hreach, store', hstore', hlookup⟩ := h.newOrigins q hq hnew
          exact ⟨x, hext.taintedValues x hx, hreach, store', hstore', (hold q hqp).trans hlookup⟩
      changed := ⟨fun _ => ⟨p, mem_taintPointer.mpr (.inl rfl), fun hp₀ => hp (h.pointers p hp₀)⟩,
        fun _ => rfl⟩
      keeps := h.keeps.trans ((keepsScans_taintPointer p store s).trans ⟨rfl, rfl⟩) }

/-- Without interprocedural tracking a call site only gets a level. -/
theorem forwardCall_intraprocedural (hmode : cfg.interprocMode = false) (v : Value) (call : InstId)
    (s : PassState) :
    ∃ levels, s.forwardCall M cfg addr v call = { s with valueLevel := levels } := by
  unfold forwardCall
  rw [hmode]
  split
  · split
    · exact ⟨s.valueLevel, rfl⟩
    · split
      · split
        · exact ⟨s.valueLevel, rfl⟩
        · dsimp only
          rw [if_neg (by decide)]
          split
          · exact ⟨s.valueLevel, rfl⟩
          · exact ⟨_, rfl⟩
      · rw [Bool.and_false, if_neg (by decide)]
        exact ⟨s.valueLevel, rfl⟩
  · exact ⟨s.valueLevel, rfl⟩

theorem Drained.forwardUser (hmode : cfg.interprocMode = false) {s₀ s : PassState} {v : Value}
    {user : InstId} (h : Drained M s₀ (some v) s) (huser : user ∈ M.users v) :
    Drained M s₀ (some v) (s.forwardUser M cfg addr v user) := by
  -- within one function the call handling sets levels only
  obtain ⟨levels, hcall⟩ : ∃ levels, s.forwardCall M cfg addr v user =
      { s with valueLevel := levels } := forwardCall_intraprocedural hmode v user s
  have h' : Drained M s₀ (some v) { s with valueLevel := levels } :=
    { h with keeps := h.keeps.trans ⟨rfl, rfl⟩ }
  unfold PassState.forwardUser
  rw [hcall]
  dsimp only
  split
  next value hkind =>
    split
    next hval =>
      exact { h' with keeps := h'.keeps.trans ⟨rfl, rfl⟩ }
    next hval =>
      refine h'.propagate ⟨user, huser, rfl, fun hk => ?_, fun ptr hk => ?_⟩
      · rw [hkind] at hk
        cases hk
        exact hval rfl
      · rw [hkind] at hk
        cases hk
  -- a store: a global and a parameter keep the state, a local pointer becomes tainted
  next value ptr hkind =>
    have hnoret : M.kind user ≠ .ret (some v) := fun hk => by
      rw [hkind] at hk
      cases hk
    split
    next hval =>
      subst hval
      split
      next => exact h'
      next hglobal =>
        split
        next a horigin => exact { h' with keeps := h'.keeps.trans ⟨rfl, rfl⟩ }
        next horigin =>
          have hlocal : LocalPointer M ptr := ⟨by simpa using hglobal, horigin⟩
          have hstore := h'.forwardLocalStore ⟨huser, ptr, hkind, hlocal, rfl⟩
          refine hstore.propagate ⟨user, huser, rfl, hnoret, fun q hk => ?_⟩
          rw [hkind] at hk
          cases hk
          exact hlocal
    next hval =>
      refine h'.propagate ⟨user, huser, rfl, hnoret, fun q hk => ?_⟩
      rw [hkind] at hk
      cases hk
      exact absurd rfl hval
  next hret hstore =>
    exact h'.propagate ⟨user, huser, rfl, hret v, fun ptr hk => absurd hk (hstore v ptr)⟩

theorem Drained.forwardPop (hmode : cfg.interprocMode = false) {s₀ s : PassState}
    (h : Drained M s₀ none s) : Drained M s₀ none (s.forwardPop M cfg addr) := by
  unfold PassState.forwardPop
  split
  next => exact h
  next v rest hwl =>
    have hv : v ∈ s.taintedValues := h.queued v (by rw [hwl]; exact List.mem_cons_self)
    have havoid (p : Value) (hp : p ∉ s.taintedPointers) (w : Value) (hw : w ∈ s.taintedValues) :
        ReachAvoiding M s₀.taintedValues p w :=
      (h.avoiding p hp w hw).resolve_right fun ⟨_, hcur, _⟩ => by cases hcur
    have hpop : Drained M s₀ (some v) { s with worklist := rest } :=
      { h with
        visiting := fun w hw => by
          cases hw
          exact ⟨hv, fun p hp => havoid p hp v hv⟩
        avoiding := fun p hp w hw => .inl (havoid p hp w hw)
        queued := fun w hw => h.queued w (by rw [hwl]; exact List.mem_cons_of_mem v hw)
        keeps := h.keeps.trans ⟨rfl, rfl⟩ }
    have hend : Drained M s₀ (some v) ((M.getSortedUsers addr v).foldl
        (PassState.forwardUser M cfg addr v) { s with worklist := rest }) :=
      foldl_invariant (I := Drained M s₀ (some v))
        (fun t u hu ht => ht.forwardUser hmode (mem_sortOn.mp hu)) hpop
    have hvisit := foldl_visits (P := fun u t => UseRecorded M t v u) (M.getSortedUsers addr v)
      (fun t u _ => forwardUser_records v t u)
      (fun t u _ w hw => hw.mono (extends_forwardUser M cfg addr v t u)) { s with worklist := rest }
    refine { hend with
      visiting := fun w hw => by cases hw
      avoiding := fun p hp w hw => .inl ?_ }
    rcases hend.avoiding p hp w hw with hw | ⟨x, hx, hpass⟩
    · exact hw
    · cases hx
      -- all stores of `v` are visited by now, so none of them goes to `p`
      obtain ⟨y, hy, hyv⟩ := (hend.visiting v rfl).2 p hp
      refine ⟨y, hy, hyv.tail ⟨hpass, fun store hstore => hp ?_⟩⟩
      exact UseRecorded.stores (fun u hu => hvisit u (mem_sortOn.mpr hu)) hstore

/-! ## The result of a drain -/

/-- **Effect of a drain.**  The tainted values at the end are those reached from the tainted values
at the start, and the new tainted pointers are those they are stored to. -/
theorem forwardDrain_exact (hmode : cfg.interprocMode = false) {fuel : Nat} {s t : PassState}
    (hproc : Processed M s) (hqueued : ∀ v ∈ s.worklist, v ∈ s.taintedValues)
    (hchanged : s.changed = false) (h : s.forwardDrain M cfg addr fuel = some t) :
    Drained M s none t ∧
      (∀ v, v ∈ t.taintedValues ↔
        ∃ w ∈ s.taintedValues, Relation.ReflTransGen (PassesTo M) w v) ∧
      ∀ p, p ∈ t.taintedPointers ↔
        p ∈ s.taintedPointers ∨ ∃ v ∈ t.taintedValues, ∃ store, StoresTo M v store p := by
  have hdrained : Drained M s none t := (whileLoop_invariant (I := Drained M s none)
    (fun u w hu _ huw => by cases huw; exact hu.forwardPop hmode) (.init hqueued hchanged) h).1
  obtain ⟨hproc', hempty⟩ := forwardDrain_spec hproc h
  have hrec (v : Value) (hv : v ∈ t.taintedValues) : ∀ u ∈ M.users v, UseRecorded M t v u :=
    (hproc' v hv).resolve_left (by rw [hempty]; exact List.not_mem_nil)
  refine ⟨hdrained, fun v => ⟨hdrained.reached v, ?_⟩, fun p => ⟨fun hp => ?_, ?_⟩⟩
  · rintro ⟨w, hw, hwv⟩
    induction hwv with
    | refl => exact hdrained.values w hw
    | tail _ hstep ih => exact UseRecorded.passes (hrec _ ih) hstep
  · by_cases hold : p ∈ s.taintedPointers
    · exact .inl hold
    · obtain ⟨v, hv, _, store, hstore, _⟩ := hdrained.newOrigins p hp hold
      exact .inr ⟨v, hv, store, hstore⟩
  · rintro (hp | ⟨v, hv, store, hstore⟩)
    · exact hdrained.pointers p hp
    · exact UseRecorded.stores (hrec v hv) hstore

end PassState

end LinuxAnalysis
