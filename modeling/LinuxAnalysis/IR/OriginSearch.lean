import LinuxAnalysis.IR.OriginFuel
import LinuxAnalysis.Lib.Search

/-!
# What the search for a pointer's parameter finds

The steps that `getPointerParameterOrigin` follows as a relation.  The search answers with a parameter
reached by such steps, and it answers with none only when no parameter is reached.
-/

open LinuxAnalysis.Lib

namespace LinuxAnalysis.Module

/-- The values that a nested call is made on. -/
inductive OriginStep (M : Module) : Value → Value → Prop where
  | phi {v i incoming w} : M.stripPointerCasts v = .inst i → M.kind i = .phi incoming →
      w ∈ incoming → OriginStep M v w
  | base {v i type ptr indices} : M.stripPointerCasts v = .inst i →
      M.kind i = .getElementPtr type ptr indices → OriginStep M v ptr
  | load {v i ptr} : M.stripPointerCasts v = .inst i → M.kind i = .load ptr →
      M.isAlloca (M.stripPointerCasts ptr) = false → OriginStep M v (M.stripPointerCasts ptr)
  | stored {v i ptr u value q} : M.stripPointerCasts v = .inst i → M.kind i = .load ptr →
      M.isAlloca (M.stripPointerCasts ptr) = true → u ∈ M.users (M.stripPointerCasts ptr) →
      M.kind u = .store value q → OriginStep M v (M.stripPointerCasts value)

/-- `v` is pointer parameter `a` itself, or is loaded from a variable that `a` is stored to. -/
inductive OriginAt (M : Module) : Value → ArgId → Prop where
  | param {v a} : M.stripPointerCasts v = .arg a → M.argIsPointerTy a = true → OriginAt M v a
  | stored {v i ptr u value q a} : M.stripPointerCasts v = .inst i → M.kind i = .load ptr →
      M.isAlloca (M.stripPointerCasts ptr) = true → u ∈ M.users (M.stripPointerCasts ptr) →
      M.kind u = .store value q → M.stripPointerCasts value = .arg a →
      M.argIsPointerTy a = true → OriginAt M v a

/-- Pointer parameter `a` is reached from `v`. -/
def OriginReaches (M : Module) (v : Value) (a : ArgId) : Prop :=
  ∃ w, Relation.ReflTransGen (M.OriginStep) v w ∧ M.OriginAt w a

variable {M : Module}

theorem OriginStep.reaches {v w : Value} {a : ArgId} (h : M.OriginStep v w)
    (hw : M.OriginReaches w a) : M.OriginReaches v a := by
  obtain ⟨x, hx, hat⟩ := hw
  exact ⟨x, .head h hx, hat⟩

/-! ## Soundness -/

/-- A parameter found by a call is reached when those found by the nested calls are. -/
theorem originCall_sound {nested : Value → DenseSet Value → Option (Option ArgId × DenseSet Value)}
    (hnested : ∀ w seen a seen', nested w seen = some (some a, seen') → M.OriginReaches w a)
    {v : Value} {visited seen : DenseSet Value} {a : ArgId}
    (h : M.originCall nested v visited = some (some a, seen)) : M.OriginReaches v a := by
  -- a fold finds what one of its turns found
  have hfold {α : Type} {f : Option ArgId × DenseSet Value → α →
      Option (Option ArgId × DenseSet Value)} {xs : List α} {acc r : Option ArgId × DenseSet Value}
      (hf : ∀ acc, ∀ x ∈ xs, ∀ r, f acc x = some r → r.1 = some a →
        acc.1 = some a ∨ M.OriginReaches v a)
      (hr : xs.foldlM f acc = some r) (hfound : r.1 = some a) :
      acc.1 = some a ∨ M.OriginReaches v a :=
    foldlM_backward (I := fun acc : Option ArgId × DenseSet Value =>
      acc.1 = some a ∨ M.OriginReaches v a)
      (fun acc r x hx hr hI => hI.elim (hf acc x hx r hr) .inr) (.inl hfound) hr
  unfold originCall at h
  split at h
  next => cases h
  next =>
    dsimp only at h
    split at h
    next b harg =>
      split at h
      next hptr =>
        cases h
        exact ⟨v, .refl, .param harg hptr⟩
      next => cases h
    next i hi =>
      split at h
      next incoming hkind =>
        refine (hfold (fun acc inc hinc r hr hfound => ?_) h rfl).resolve_left fun h => by cases h
        obtain ⟨⟨found, seen'⟩, hr', rfl⟩ := Option.map_eq_some_iff.mp hr
        rcases Option.or_eq_some_iff.mp hfound with hacc | ⟨_, hnew⟩
        · exact .inl hacc
        · right
          have hnew' : found = some a := hnew
          subst hnew'
          exact (OriginStep.phi hi hkind hinc).reaches (hnested inc acc.2 a seen' hr')
      next type ptr indices hkind =>
        exact (OriginStep.base hi hkind).reaches (hnested _ _ a seen h)
      next ptr hkind =>
        split at h
        next halloca =>
          refine (hfold (fun acc u hu r hr hfound => ?_) h rfl).resolve_left fun h => by cases h
          split at hr
          next value q hnone hstore =>
            right
            split at hr
            next b harg =>
              split at hr
              next hptr =>
                cases hr
                cases hfound
                exact ⟨v, .refl, .stored hi hkind halloca hu hstore harg hptr⟩
              next =>
                obtain ⟨found, seen'⟩ := r
                cases hfound
                have hstep := OriginStep.stored hi hkind halloca hu hstore
                rw [harg] at hstep
                exact hstep.reaches (hnested _ _ a seen' hr)
            next =>
              obtain ⟨found, seen'⟩ := r
              cases hfound
              exact (OriginStep.stored hi hkind halloca hu hstore).reaches (hnested _ _ a seen' hr)
          next =>
            cases hr
            exact .inl hfound
        next halloca =>
          rw [Bool.not_eq_true] at halloca
          exact (OriginStep.load hi hkind halloca).reaches (hnested _ _ a seen h)
      next => cases h
    next => cases h

theorem getPointerParameterOrigin?_sound {n : Nat} {v : Value} {visited seen : DenseSet Value}
    {a : ArgId} (h : M.getPointerParameterOrigin? n v visited = some (some a, seen)) :
    M.OriginReaches v a := by
  induction n generalizing v visited seen a with
  | zero => cases h
  | succ n ih => exact originCall_sound (fun w seen a seen' hw => ih hw) h

/-! ## Completeness -/

/-- Some parameter is at `v`. -/
def OriginFoundAt (M : Module) (v : Value) : Prop := ∃ a, M.OriginAt v a

theorem OriginStep.mem_incoming {v w : Value} {i : InstId} {incoming : List Value}
    (h : M.OriginStep v w) (hi : M.stripPointerCasts v = .inst i) (hkind : M.kind i = .phi incoming) :
    w ∈ incoming := by
  cases h with
  | phi hj hkind' hmem =>
    cases hi.symm.trans hj
    cases hkind.symm.trans hkind'
    exact hmem
  | base hj hkind' | load hj hkind' | stored hj hkind' =>
    cases hi.symm.trans hj
    cases hkind.symm.trans hkind'

theorem OriginStep.eq_base {v w ptr : Value} {i : InstId} {type : Nat} {indices : List Value}
    (h : M.OriginStep v w) (hi : M.stripPointerCasts v = .inst i)
    (hkind : M.kind i = .getElementPtr type ptr indices) : w = ptr := by
  cases h with
  | base hj hkind' =>
    cases hi.symm.trans hj
    cases hkind.symm.trans hkind'
    rfl
  | phi hj hkind' | load hj hkind' | stored hj hkind' =>
    cases hi.symm.trans hj
    cases hkind.symm.trans hkind'

/-- A step from a load goes to the pointer, or to what is stored to the variable it points to. -/
theorem OriginStep.of_load {v w ptr : Value} {i : InstId} (h : M.OriginStep v w)
    (hi : M.stripPointerCasts v = .inst i) (hkind : M.kind i = .load ptr) :
    M.isAlloca (M.stripPointerCasts ptr) = false ∧ w = M.stripPointerCasts ptr ∨
      M.isAlloca (M.stripPointerCasts ptr) = true ∧ ∃ u ∈ M.users (M.stripPointerCasts ptr),
        ∃ value q, M.kind u = .store value q ∧ w = M.stripPointerCasts value := by
  cases h with
  | load hj hkind' halloca =>
    cases hi.symm.trans hj
    cases hkind.symm.trans hkind'
    exact .inl ⟨halloca, rfl⟩
  | stored hj hkind' halloca hu hstore =>
    cases hi.symm.trans hj
    cases hkind.symm.trans hkind'
    exact .inr ⟨halloca, _, hu, _, _, hstore, rfl⟩
  | phi hj hkind' | base hj hkind' =>
    cases hi.symm.trans hj
    cases hkind.symm.trans hkind'

/-- No step leaves any other instruction. -/
theorem not_originStep {v w : Value} {i : InstId} (hi : M.stripPointerCasts v = .inst i)
    (hphi : ∀ incoming, M.kind i ≠ .phi incoming)
    (hgep : ∀ type ptr indices, M.kind i ≠ .getElementPtr type ptr indices)
    (hload : ∀ ptr, M.kind i ≠ .load ptr) : ¬ M.OriginStep v w := by
  intro h
  cases h with
  | phi hj hkind =>
    cases hi.symm.trans hj
    exact hphi _ hkind
  | base hj hkind =>
    cases hi.symm.trans hj
    exact hgep _ _ _ hkind
  | load hj hkind | stored hj hkind =>
    cases hi.symm.trans hj
    exact hload _ hkind

/-- A parameter at an instruction is stored to the variable the instruction loads. -/
theorem OriginAt.of_inst {v : Value} {i : InstId} {a : ArgId} (h : M.OriginAt v a)
    (hi : M.stripPointerCasts v = .inst i) :
    ∃ ptr u value q, M.kind i = .load ptr ∧ M.isAlloca (M.stripPointerCasts ptr) = true ∧
      u ∈ M.users (M.stripPointerCasts ptr) ∧ M.kind u = .store value q ∧
      M.stripPointerCasts value = .arg a ∧ M.argIsPointerTy a = true := by
  cases h with
  | param harg _ =>
    rw [hi] at harg
    cases harg
  | stored hj hkind halloca hu hstore harg hptr =>
    cases hi.symm.trans hj
    exact ⟨_, _, _, _, hkind, halloca, hu, hstore, harg, hptr⟩

theorem not_originFoundAt {v : Value} {i : InstId} (hi : M.stripPointerCasts v = .inst i)
    (hload : ∀ ptr, M.kind i ≠ .load ptr) : ¬ M.OriginFoundAt v := by
  rintro ⟨a, hat⟩
  obtain ⟨ptr, _, _, _, hkind, _⟩ := hat.of_inst hi
  exact hload ptr hkind

/-- The loop over the users of a variable: if it finds nothing, no store to the variable stores a
pointer parameter, and a nested call was made on each value stored. -/
theorem storedValues_explored
    {nested : Value → DenseSet Value → Option (Option ArgId × DenseSet Value)}
    (hnested : ∀ w seen seen', nested w seen = some (none, seen') →
      w ∈ seen' ∧ Explores M.OriginStep M.OriginFoundAt seen seen')
    {users : List InstId} {acc : Option ArgId × DenseSet Value} {seen : DenseSet Value}
    (h : users.foldlM (fun (acc : Option ArgId × DenseSet Value) u =>
      match acc.1, M.kind u with
      | none, .store value _ =>
        match M.stripPointerCasts value with
        | .arg a => if M.argIsPointerTy a then some (some a, acc.2) else nested (.arg a) acc.2
        | stored => nested stored acc.2
      | _, _ => some acc) acc = some (none, seen)) :
    Explores M.OriginStep M.OriginFoundAt acc.2 seen ∧
      ∀ u ∈ users, ∀ value q, M.kind u = .store value q → M.stripPointerCasts value ∈ seen ∧
        ∀ a, M.stripPointerCasts value = .arg a → M.argIsPointerTy a ≠ true := by
  refine (Explores.of_foldlM (P := fun u seen => ∀ value q, M.kind u = .store value q →
      M.stripPointerCasts value ∈ seen ∧
        ∀ a, M.stripPointerCasts value = .arg a → M.argIsPointerTy a ≠ true)
    (fun u s t hx hst value q hstore => ⟨hst _ (hx value q hstore).1, (hx value q hstore).2⟩)
    (fun acc u _ r hr hnone => ?_) h rfl).2
  split at hr
  next value q haccnone hstore =>
    split at hr
    next a harg =>
      split at hr
      next =>
        cases hr
        cases hnone
      next hptr =>
        -- a parameter that is no pointer is followed, and leads nowhere
        obtain ⟨found, seen'⟩ := r
        cases hnone
        obtain ⟨hmem, hexp⟩ := hnested _ _ _ hr
        refine ⟨haccnone, hexp, fun value' q' hstore' => ?_⟩
        rw [hstore] at hstore'
        cases hstore'
        rw [harg]
        refine ⟨hmem, fun b hb => ?_⟩
        cases hb
        exact hptr
    next hother =>
      obtain ⟨found, seen'⟩ := r
      cases hnone
      obtain ⟨hmem, hexp⟩ := hnested _ _ _ hr
      refine ⟨haccnone, hexp, fun value' q' hstore' => ?_⟩
      rw [hstore] at hstore'
      cases hstore'
      exact ⟨hmem, fun b hb => absurd hb (hother b)⟩
  next hother =>
    cases hr
    refine ⟨hnone, .refl _, fun value q hstore => ?_⟩
    exact absurd hstore (hother value q hnone)

/-- A call that finds nothing has explored what it was made on. -/
theorem originCall_complete
    {nested : Value → DenseSet Value → Option (Option ArgId × DenseSet Value)}
    (hnested : ∀ w seen seen', nested w seen = some (none, seen') →
      w ∈ seen' ∧ Explores M.OriginStep M.OriginFoundAt seen seen')
    {v : Value} {visited seen : DenseSet Value}
    (h : M.originCall nested v visited = some (none, seen)) :
    v ∈ seen ∧ Explores M.OriginStep M.OriginFoundAt visited seen := by
  have hstart : v ∈ visited.insert v := DenseSet.mem_insert.mpr (.inl rfl)
  unfold originCall at h
  split at h
  -- a visited value is explored already
  next hseen =>
    cases h
    exact ⟨hseen, .refl _⟩
  next =>
    dsimp only at h
    split at h
    -- a parameter that fails the type test has no successors
    next a harg =>
      split at h
      next => cases h
      next hptr =>
        cases h
        refine ⟨hstart, (Explores.refl _).visit ?_ ?_⟩
        · rintro ⟨b, hat⟩
          cases hat with
          | param hb hptr' =>
            rw [harg] at hb
            cases hb
            exact hptr hptr'
          | stored hi => rw [harg] at hi; cases hi
        · intro b hb
          cases hb with
          | phi hi | base hi | load hi | stored hi => rw [harg] at hi; cases hi
    next i hi =>
      split at h
      -- a phi: the fold ends without a result only if every incoming value did
      next incoming hkind =>
        have hnoload (ptr : Value) : M.kind i ≠ .load ptr := by rw [hkind]; nofun
        obtain ⟨_, hexp, hall⟩ := Explores.of_foldlM (P := fun inc seen => inc ∈ seen)
          (fun _ _ _ hx hst => hst _ hx) (fun acc inc _ r hr hnone => by
            obtain ⟨⟨found, seen'⟩, hr', rfl⟩ := Option.map_eq_some_iff.mp hr
            obtain ⟨hacc, hfound⟩ := Option.or_eq_none_iff.mp hnone
            have hfound' : found = none := hfound
            subst hfound'
            obtain ⟨hmem, hexp⟩ := hnested inc acc.2 seen' hr'
            exact ⟨hacc, hexp, hmem⟩) h rfl
        exact ⟨hexp.subset v hstart, hexp.visit (not_originFoundAt hi hnoload)
          fun w hw => hall w (hw.mem_incoming hi hkind)⟩
      -- a field access leads to its base pointer alone
      next type ptr indices hkind =>
        have hnoload (ptr : Value) : M.kind i ≠ .load ptr := by rw [hkind]; nofun
        obtain ⟨hmem, hexp⟩ := hnested _ _ _ h
        exact ⟨hexp.subset v hstart, hexp.visit (not_originFoundAt hi hnoload)
          fun w hw => (hw.eq_base hi hkind) ▸ hmem⟩
      next ptr hkind =>
        split at h
        -- a load from a local slot leads to the values stored there
        next halloca =>
          obtain ⟨hexp, hall⟩ := storedValues_explored hnested h
          refine ⟨hexp.subset v hstart, hexp.visit ?_ fun w hw => ?_⟩
          · rintro ⟨a, hat⟩
            obtain ⟨ptr', u, value, q, hload, _, hu, hstore, harg, hptr⟩ := hat.of_inst hi
            cases hkind.symm.trans hload
            exact (hall u hu value q hstore).2 a harg hptr
          · rcases hw.of_load hi hkind with ⟨hno, _⟩ | ⟨_, u, hu, value, q, hstore, rfl⟩
            · rw [halloca] at hno
              cases hno
            · exact (hall u hu value q hstore).1
        -- a load from any other pointer leads to that pointer
        next halloca =>
          obtain ⟨hmem, hexp⟩ := hnested _ _ _ h
          refine ⟨hexp.subset v hstart, hexp.visit ?_ fun w hw => ?_⟩
          · rintro ⟨a, hat⟩
            obtain ⟨ptr', u, value, q, hload, halloca', _⟩ := hat.of_inst hi
            cases hkind.symm.trans hload
            exact halloca halloca'
          · rcases hw.of_load hi hkind with ⟨_, rfl⟩ | ⟨halloca', _⟩
            · exact hmem
            · exact absurd halloca' halloca
      next hphi hgep hload =>
        cases h
        exact ⟨hstart, (Explores.refl _).visit (not_originFoundAt hi hload)
          fun w hw => absurd hw (not_originStep hi hphi hgep hload)⟩
    -- a constant or a global ends the search
    next harg hinst =>
      cases h
      refine ⟨hstart, (Explores.refl _).visit ?_ fun w hw => ?_⟩
      · rintro ⟨a, hat⟩
        cases hat with
        | param hstrip => exact harg _ hstrip
        | stored hstrip => exact hinst _ hstrip
      · cases hw with
        | phi hstrip | base hstrip | load hstrip | stored hstrip => exact absurd hstrip (hinst _)

theorem getPointerParameterOrigin?_complete {n : Nat} {v : Value} {visited seen : DenseSet Value}
    (h : M.getPointerParameterOrigin? n v visited = some (none, seen)) :
    v ∈ seen ∧ Explores M.OriginStep M.OriginFoundAt visited seen := by
  induction n generalizing v visited seen with
  | zero => cases h
  | succ n ih => exact originCall_complete (fun w seen seen' hw => ih hw) h

/-- **The search.**  A parameter is found exactly when one is reached, and the one found is reached. -/
theorem getPointerParameterOrigin_spec (v : Value) :
    (∀ a, M.getPointerParameterOrigin v = some a → M.OriginReaches v a) ∧
      (M.getPointerParameterOrigin v = none → ∀ a, ¬ M.OriginReaches v a) := by
  obtain ⟨⟨found, seen⟩, ⟨n, hreturns⟩, haux⟩ := getPointerParameterOrigin?_returns (M := M) v ∅
  have hn := hreturns n (Nat.le_refl n)
  have hfound : M.getPointerParameterOrigin v = found := by
    rw [getPointerParameterOrigin, haux]
  rw [hfound]
  constructor
  · intro a ha
    subst ha
    exact getPointerParameterOrigin?_sound hn
  · intro hnone a hreaches
    subst hnone
    obtain ⟨hmem, hexp⟩ := getPointerParameterOrigin?_complete hn
    obtain ⟨w, hw, hat⟩ := hreaches
    exact hexp.not_goal hmem hw ⟨a, hat⟩

/-- **Exact reachability.**  From every value the search comes to an end; it answers with a parameter if
and only if a pointer parameter is reached, and then with one that is. -/
theorem getPointerParameterOrigin_exact (M : Module) (v : Value) :
    ∃ r, Returns (fun n => M.getPointerParameterOrigin? n v ∅) r ∧
      M.getPointerParameterOrigin v = r.1 ∧
      (r.1 ≠ none ↔ ∃ a, M.OriginReaches v a) ∧ ∀ a, r.1 = some a → M.OriginReaches v a := by
  obtain ⟨r, hreturns, haux⟩ := getPointerParameterOrigin?_returns (M := M) v ∅
  have hfound : M.getPointerParameterOrigin v = r.1 := by
    rw [getPointerParameterOrigin, haux]
  obtain ⟨hsound, hcomplete⟩ := getPointerParameterOrigin_spec (M := M) v
  rw [hfound] at hsound hcomplete
  refine ⟨r, hreturns, hfound, ⟨fun hne => ?_, ?_⟩, hsound⟩
  · obtain ⟨a, ha⟩ := Option.ne_none_iff_exists'.mp hne
    exact ⟨a, hsound a ha⟩
  · rintro ⟨a, ha⟩ hnone
    exact hcomplete hnone a ha

end LinuxAnalysis.Module
