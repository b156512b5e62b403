import LinuxAnalysis.IR.OriginFuel
import LinuxAnalysis.Pass.Invariant

/-!
# Progress

The sets of a run stay inside finite universes taken from the module.  An update that pushes a value
or raises a flag uses up some of what is left of them.
-/

open LinuxAnalysis.Lib

namespace LinuxAnalysis

namespace Module

variable (M : Module)

/-- The instructions and the parameters of the module. -/
def taintable : Finset Value :=
  (M.insts.map Value.inst ++ (List.range M.functions.length).flatMap fun f =>
    (List.range (M.argSize f)).map fun n => Value.arg ⟨f, n⟩).toFinset

/-- A function of the module with a parameter number of some function. -/
def taintableParams : Finset (Nat × Nat) :=
  ((List.range M.functions.length).flatMap fun f => (List.range M.functions.length).flatMap fun g =>
    (List.range (M.argSize g)).map fun n => (f, n)).toFinset

variable {M}

theorem inst_mem_taintable {i : InstId} (hi : i ∈ M.insts) : .inst i ∈ M.taintable := by
  rw [taintable, List.mem_toFinset]
  exact List.mem_append_left _ (List.mem_map_of_mem hi)

theorem func_lt_of_mem_insts {i : InstId} (hi : i ∈ M.insts) : i.func < M.functions.length := by
  simp only [insts, instIds, funcInstIds, List.mem_flatMap, List.mem_range,
    mem_blockInstIds] at hi
  obtain ⟨f, hf, _, _, rfl, _⟩ := hi
  exact hf

theorem func_lt_of_lt_argSize {f n : Nat} (h : n < M.argSize f) : f < M.functions.length := by
  by_contra hf
  rw [argSize, List.getElem?_eq_none (by omega)] at h
  exact absurd h (Nat.not_lt_zero n)

theorem arg_mem_taintable {f n : Nat} (h : n < M.argSize f) : .arg ⟨f, n⟩ ∈ M.taintable := by
  rw [taintable, List.mem_toFinset]
  refine List.mem_append_right _ (List.mem_flatMap.mpr ⟨f, ?_, List.mem_map.mpr ⟨n, ?_, rfl⟩⟩)
  · exact List.mem_range.mpr (func_lt_of_lt_argSize h)
  · exact List.mem_range.mpr h

/-- The search for a pointer's parameter finds parameters of pointer type. -/
theorem argIsPointerTy_of_originAux (n : Nat) (v : Value) (visited : DenseSet Value) (a : ArgId)
    (h : (M.getPointerParameterOriginAux n v visited).1 = some a) : M.argIsPointerTy a = true := by
  -- both folds return what one of the nested searches returned
  have hfold {α : Type} (f : Option ArgId × DenseSet Value → α → Option ArgId × DenseSet Value)
      (hf : ∀ acc x, (∀ a, acc.1 = some a → M.argIsPointerTy a = true) →
        ∀ a, (f acc x).1 = some a → M.argIsPointerTy a = true) (xs : List α)
      (seen : DenseSet Value) (a : ArgId) (h : (xs.foldl f (none, seen)).1 = some a) :
      M.argIsPointerTy a = true :=
    foldl_invariant (I := fun acc => ∀ a, acc.1 = some a → M.argIsPointerTy a = true)
      (fun acc x _ hacc => hf acc x hacc) (fun a h => by cases h) a h
  have hself (a b : ArgId) (seen : DenseSet Value)
      (h : ((if M.argIsPointerTy b then some b else none : Option ArgId), seen).1 = some a) :
      M.argIsPointerTy a = true := by
    dsimp only at h
    split at h
    next hb => cases h; exact hb
    next => cases h
  induction n generalizing v visited a with
  | zero => cases h
  | succ n ih =>
    rw [getPointerParameterOriginAux] at h
    split at h
    next => cases h
    next =>
      dsimp only at h
      split at h
      next b _ => exact hself a b _ h
      next i _ =>
        split at h
        next incoming _ =>
          refine hfold _ (fun acc inc hacc b hb => ?_) _ _ a h
          dsimp only at hb
          cases hfound : acc.1 with
          | none =>
            rw [hfound, Option.none_or] at hb
            exact ih _ _ b hb
          | some c =>
            rw [hfound, Option.some_or] at hb
            exact hacc b (hfound.trans hb)
        next => exact ih _ _ a h
        next ptr _ =>
          split at h
          next =>
            refine hfold _ (fun acc u hacc b hb => ?_) _ _ a h
            split at hb
            next =>
              split at hb
              next c _ =>
                split at hb
                -- a stored parameter is tested for its type before it is returned
                next hc => cases hb; exact hc
                next => exact ih _ _ b hb
              next => exact ih _ _ b hb
            next => exact hacc b hb
          next => exact ih _ _ a h
        next => cases h
      next => cases h

theorem lt_argSize_of_origin {v : Value} {a : ArgId}
    (h : M.getPointerParameterOrigin v = some a) : a.no < M.argSize a.func := by
  have hptr := argIsPointerTy_of_originAux _ _ _ a h
  rw [argIsPointerTy] at hptr
  rw [argSize]
  cases hfunc : M.functions[a.func]? with
  | none => simp [hfunc] at hptr
  | some F =>
    rw [hfunc] at hptr
    by_contra hno
    simp only [Option.map_some, Option.getD_some] at hptr hno
    rw [List.getElem?_eq_none (by omega)] at hptr
    cases hptr

theorem mem_taintableParams {i : InstId} {v : Value} {a : ArgId} (hi : i ∈ M.insts)
    (h : M.getPointerParameterOrigin v = some a) : (i.func, a.no) ∈ M.taintableParams := by
  have ha := lt_argSize_of_origin h
  rw [taintableParams, List.mem_toFinset]
  simp only [List.mem_flatMap, List.mem_map, List.mem_range]
  exact ⟨i.func, func_lt_of_mem_insts hi, a.func, func_lt_of_lt_argSize ha, a.no, ha, rfl⟩

end Module

namespace PassState

variable {M : Module} {cfg : Config} {addr : Value → Nat}

/-- The sets of the state stay inside the module. -/
structure Within (M : Module) (s : PassState) : Prop where
  values : ∀ v ∈ s.taintedValues, v ∈ M.taintable
  pointers : ∀ p ∈ s.taintedPointers, p ∈ M.pointable
  returning : ∀ f ∈ s.functionsReturningTaint, f < M.functions.length
  params : ∀ f n, s.TaintsParam f n → (f, n) ∈ M.taintableParams
  entries : ∀ f ∈ s.functionsTaintingPointerParams, ∃ n, s.TaintsParam f n

theorem within_taintValue {v : Value} {s : PassState} (h : s.Within M) (hv : v ∈ M.taintable) :
    (s.taintValue v).Within M :=
  { h with values := fun _ hw => (DenseSet.mem_insert.mp hw).elim (fun he => he ▸ hv) (h.values _) }

theorem within_taintPointer {p : Value} {i : InstId} {s : PassState} (h : s.Within M)
    (hp : p ∈ M.pointable) : (s.taintPointer p i).Within M := by
  refine ⟨?_, fun q hq => (mem_taintPointer.mp hq).elim (fun he => he ▸ hp) (h.pointers q), ?_, ?_,
    ?_⟩
  all_goals
    unfold taintPointer
    split
  · exact h.values
  · exact h.values
  · exact h.returning
  · exact h.returning
  · exact h.params
  · exact h.params
  · exact h.entries
  · exact h.entries

theorem within_addFunctionReturningTaint {f : Nat} {s : PassState} (h : s.Within M)
    (hf : f < M.functions.length) : (s.addFunctionReturningTaint f).Within M :=
  { h with
    returning := fun _ hg => (DenseSet.mem_insert.mp hg).elim (fun he => he ▸ hf) (h.returning _) }

theorem within_addTaintingPointerParam {f n : Nat} {s : PassState} (h : s.Within M)
    (hf : (f, n) ∈ M.taintableParams) : (s.addTaintingPointerParam f n).Within M := by
  refine { h with params := fun g m hg => ?_, entries := fun g hg => ?_ }
  · rcases taintsParam_addTaintingPointerParam.mp hg with ⟨rfl, rfl⟩ | hg
    · exact hf
    · exact h.params g m hg
  · rw [addTaintingPointerParam, AList.mem_insert] at hg
    rcases hg with rfl | hg
    · exact ⟨n, taintsParam_addTaintingPointerParam.mpr (.inl ⟨rfl, rfl⟩)⟩
    · obtain ⟨m, hm⟩ := h.entries g hg
      exact ⟨m, taintsParam_addTaintingPointerParam.mpr (.inr hm)⟩

/-- An update of the other fields. -/
theorem Within.congr {s t : PassState} (h : s.Within M) (hv : t.taintedValues = s.taintedValues)
    (hp : t.taintedPointers = s.taintedPointers)
    (hr : t.functionsReturningTaint = s.functionsReturningTaint)
    (hq : t.functionsTaintingPointerParams = s.functionsTaintingPointerParams) : t.Within M := by
  have hparam (f n : Nat) : t.TaintsParam f n ↔ s.TaintsParam f n := by
    rw [TaintsParam, hq]
    exact Iff.rfl
  refine ⟨fun v hm => h.values v (hv ▸ hm), fun p hm => h.pointers p (hp ▸ hm),
    fun f hm => h.returning f (hr ▸ hm), fun f n hm => h.params f n ((hparam f n).mp hm),
    fun f hm => ?_⟩
  rw [hq] at hm
  obtain ⟨n, hn⟩ := h.entries f hm
  exact ⟨n, (hparam f n).mpr hn⟩

theorem within_initFunctionLevel {f : Nat} {level : Int} {s : PassState} (h : s.Within M) :
    (s.initFunctionLevel f level).Within M := by
  unfold initFunctionLevel
  split
  · exact h
  · exact h.congr rfl rfl rfl rfl

theorem within_recordFieldAccess {f n : Nat} {fields : List Int} {s : PassState}
    (h : s.Within M) : (s.recordFieldAccess f n fields).Within M := by
  unfold recordFieldAccess
  split
  · exact h
  · exact h.congr rfl rfl rfl rfl

theorem within_ensureLevelSet {i : InstId} {s : PassState} (h : s.Within M) :
    (s.ensureLevelSet i).Within M := by
  unfold ensureLevelSet
  split
  · exact h
  · split
    · exact h.congr rfl rfl rfl rfl
    · exact h

theorem within_taintParameter {a : ArgId} {level : Int} {s : PassState} (h : s.Within M)
    (ha : a.no < M.argSize a.func) : (s.taintParameter a level).Within M := by
  unfold taintParameter
  split
  · exact h
  · have hset : ((s.setValueLevel (.arg a) (level - 1)).setFunctionLevel a.func
        (level - 1)).Within M := h.congr rfl rfl rfl rfl
    exact (within_taintValue hset (Module.arg_mem_taintable ha)).congr rfl rfl rfl rfl

theorem user_mem_insts {v : Value} {i : InstId} (h : i ∈ M.users v) : i ∈ M.insts :=
  (Module.mem_users.mp h).1

theorem storePointer_mem_pointable {i : InstId} {value ptr : Value}
    (h : M.kind i = .store value ptr) : M.stripPointerCasts ptr ∈ M.pointable := by
  refine (Module.operand_mem_pointable (i := i) ?_).2
  rw [Module.operands, h]
  exact List.mem_cons_of_mem _ List.mem_cons_self

theorem storeValue_mem_pointable {i : InstId} {value ptr : Value}
    (h : M.kind i = .store value ptr) : M.stripPointerCasts value ∈ M.pointable := by
  refine (Module.operand_mem_pointable (i := i) ?_).2
  rw [Module.operands, h]
  exact List.mem_cons_self

theorem pointedVar_mem_pointable {i : InstId} {actual var : Value} {n callee : Nat}
    (h : PassesTaintTo M i actual n callee) (hvar : pointedVar M actual = some var) :
    var ∈ M.pointable := by
  obtain ⟨called, same, args, bundles, hkind, hactual, _⟩ := h
  have hop : actual ∈ M.operands i := by
    rw [Module.operands, hkind]
    exact List.mem_append_left _ (List.mem_append_left _ (List.mem_of_getElem? hactual))
  unfold pointedVar at hvar
  split at hvar
  next =>
    cases hvar
    exact (Module.operand_mem_pointable hop).1
  next =>
    cases actual with
    | inst gep =>
      dsimp only [gepBase] at hvar
      split at hvar
      next type ptr indices hgep =>
        cases hvar
        refine (Module.operand_mem_pointable (i := gep) ?_).2
        rw [Module.operands, hgep]
        exact List.mem_cons_self
      next => cases hvar
    | _ => cases hvar

/-! ## Every update stays inside the module -/

theorem within_seedStep {s t : PassState} (hs : s.Within M) (h : SeedStep M cfg s t) :
    t.Within M := by
  cases h with
  | source hseed _ =>
    have hi := Module.mem_insts_of_mem_operands hseed.operand
    exact (within_taintValue hs (Module.inst_mem_taintable hi)).congr rfl rfl rfl rfl
  | returned hseed _ _ =>
    exact within_addFunctionReturningTaint hs
      (Module.func_lt_of_mem_insts (Module.mem_insts_of_mem_operands hseed.operand))
  | parameterStore hseed _ _ horigin =>
    have hi := Module.mem_insts_of_mem_operands hseed.operand
    exact within_recordFieldAccess
      (within_addTaintingPointerParam hs (Module.mem_taintableParams hi horigin))
  | pointer _ _ hkind => exact within_taintPointer hs (storePointer_mem_pointable hkind)
  | parameter _ _ _ _ hparam _ => exact within_taintParameter hs hparam.2

theorem within_forwardStep {s t : PassState} (hs : s.Within M) (h : ForwardStep M cfg addr s t) :
    t.Within M := by
  cases h with
  | callLevel _ _ _ _ => exact hs.congr rfl rfl rfl rfl
  | parameter _ _ _ _ hparam _ => exact within_taintParameter hs hparam.2
  | returned _ hi _ =>
    exact within_addFunctionReturningTaint hs (Module.func_lt_of_mem_insts (user_mem_insts hi))
  | parameterStore _ hi _ horigin =>
    exact within_addTaintingPointerParam hs
      (Module.mem_taintableParams (user_mem_insts hi) horigin)
  | pointer _ _ hkind _ =>
    exact (within_taintPointer hs (storePointer_mem_pointable hkind)).congr rfl rfl rfl rfl
  | use _ hi _ =>
    exact within_taintValue (hs.congr rfl rfl rfl rfl)
      (Module.inst_mem_taintable (user_mem_insts hi))

theorem within_scanStep {s t : PassState} (hs : s.Within M) (h : ScanStep M s t) :
    t.Within M := by
  cases h with
  | kill _ _ => exact hs.congr rfl rfl rfl rfl
  | level _ _ _ _ => exact within_ensureLevelSet hs
  | load hi _ _ _ =>
    exact within_taintValue (within_ensureLevelSet hs) (Module.inst_mem_taintable hi)

theorem within_discoverTaintingPointerParam {f n : Nat} {s : PassState} (hs : s.Within M)
    (hf : (f, n) ∈ M.taintableParams) : (s.discoverTaintingPointerParam f n).Within M :=
  (within_addTaintingPointerParam hs hf).congr rfl rfl rfl rfl

theorem within_upwardStep {start s t : PassState} (hs : s.Within M) (h : UpwardStep M start s t) :
    t.Within M := by
  cases h with
  | call _ hi _ _ =>
    exact within_taintValue (within_initFunctionLevel (hs.congr rfl rfl rfl rfl))
      (Module.inst_mem_taintable hi)
  | passThrough _ hi _ horigin _ =>
    exact within_initFunctionLevel
      (within_discoverTaintingPointerParam hs (Module.mem_taintableParams hi horigin))
  | pointed _ _ hcall hvar _ =>
    exact within_taintPointer (within_initFunctionLevel hs) (pointedVar_mem_pointable hcall hvar)
  | field _ _ _ _ _ _ _ _ _ hkind _ => exact within_taintPointer hs (storeValue_mem_pointable hkind)
  | use _ hi _ =>
    exact within_taintValue (hs.congr rfl rfl rfl rfl)
      (Module.inst_mem_taintable (user_mem_insts hi))
  | store _ _ hkind => exact within_taintPointer hs (storePointer_mem_pointable hkind)
  | parameterStore _ hi _ horigin =>
    exact within_discoverTaintingPointerParam hs
      (Module.mem_taintableParams (user_mem_insts hi) horigin)
  | fields => exact within_recordFieldAccess hs
  | returned _ hi _ =>
    exact (within_addFunctionReturningTaint hs
      (Module.func_lt_of_mem_insts (user_mem_insts hi))).congr rfl rfl rfl rfl

/-! ## What is left -/

/-- Values not tainted yet, counted with the length of the worklist. -/
def workLeft (M : Module) (s : PassState) : Nat :=
  s.worklist.length + room M.taintable (· ∈ s.taintedValues)

/-- Values and pointers not tainted yet. -/
def untainted (M : Module) (s : PassState) : Nat :=
  room M.taintable (· ∈ s.taintedValues) + room M.pointable (· ∈ s.taintedPointers)

/-- Functions and parameters not on record yet. -/
def undiscovered (M : Module) (s : PassState) : Nat :=
  room (Finset.range M.functions.length) (· ∈ s.functionsReturningTaint) +
    room M.taintableParams fun e => s.TaintsParam e.1 e.2

/-- The sets of `s` are kept in `t`, and so are the origins of its pointers. -/
structure Grows (s t : PassState) : Prop where
  values : s.taintedValues ⊆ t.taintedValues
  pointers : s.taintedPointers ⊆ t.taintedPointers
  returning : s.functionsReturningTaint ⊆ t.functionsReturningTaint
  params : ∀ f n, s.TaintsParam f n → t.TaintsParam f n
  origin : ∀ p ∈ s.taintedPointers, t.pointerTaintOrigin.lookup p = s.pointerTaintOrigin.lookup p

theorem Extends.grows {s t : PassState} (h : s.Extends t) : s.Grows t :=
  ⟨h.taintedValues, h.taintedPointers, h.functionsReturningTaint, h.taintsParam, h.origin⟩

theorem Grows.trans {s t u : PassState} (h₁ : s.Grows t) (h₂ : t.Grows u) : s.Grows u :=
  ⟨DenseSet.Subset.trans h₁.values h₂.values, DenseSet.Subset.trans h₁.pointers h₂.pointers,
    DenseSet.Subset.trans h₁.returning h₂.returning,
    fun f n h => h₂.params f n (h₁.params f n h),
    fun p hp => (h₂.origin p (h₁.pointers p hp)).trans (h₁.origin p hp)⟩

theorem untainted_le {s t : PassState} (h : s.Grows t) : untainted M t ≤ untainted M s :=
  Nat.add_le_add (room_le h.values) (room_le h.pointers)

theorem undiscovered_le {s t : PassState} (h : s.Grows t) : undiscovered M t ≤ undiscovered M s :=
  Nat.add_le_add (room_le h.returning) (room_le fun e => h.params e.1 e.2)

/-- Some value or pointer is new in `t`. -/
def Gains (s t : PassState) : Prop :=
  (∃ v ∈ t.taintedValues, v ∉ s.taintedValues) ∨ ∃ p ∈ t.taintedPointers, p ∉ s.taintedPointers

/-- Some function or parameter on record is new in `t`. -/
def Learns (s t : PassState) : Prop :=
  (∃ f ∈ t.functionsReturningTaint, f ∉ s.functionsReturningTaint) ∨
    ∃ f n, t.TaintsParam f n ∧ ¬ s.TaintsParam f n

theorem untainted_lt {s t : PassState} (h : s.Grows t) (ht : t.Within M) (hnew : s.Gains t) :
    untainted M t < untainted M s := by
  rcases hnew with ⟨v, hv, hold⟩ | ⟨p, hp, hold⟩
  · exact Nat.add_lt_add_of_lt_of_le (room_lt h.values (ht.values v hv) hold hv)
      (room_le h.pointers)
  · exact Nat.add_lt_add_of_le_of_lt (room_le h.values)
      (room_lt h.pointers (ht.pointers p hp) hold hp)

theorem undiscovered_lt {s t : PassState} (h : s.Grows t) (ht : t.Within M)
    (hnew : s.Learns t) : undiscovered M t < undiscovered M s := by
  rcases hnew with ⟨f, hf, hold⟩ | ⟨f, n, hn, hold⟩
  · exact Nat.add_lt_add_of_lt_of_le (room_lt h.returning
      (Finset.mem_range.mpr (ht.returning f hf)) hold hf) (room_le fun e => h.params e.1 e.2)
  · exact Nat.add_lt_add_of_le_of_lt (room_le h.returning)
      (room_lt (a := (f, n)) (fun e => h.params e.1 e.2) (ht.params f n hn) hold hn)

/-- What the updates of a visit have in common: a value pushed is a value less to be tainted, and a
raised flag stands for something new. -/
structure Advances (M : Module) (s t : PassState) : Prop where
  grows : s.Grows t
  within : s.Within M → t.Within M
  work : s.Within M → workLeft M t ≤ workLeft M s
  changed : t.changed = true → s.changed = true ∨ s.Gains t
  discovered : t.discoveredNewFunctions = true → s.discoveredNewFunctions = true ∨ s.Learns t
  upwardScanned : t.upwardScannedPointers = s.upwardScannedPointers

theorem Advances.refl (s : PassState) : s.Advances M s :=
  ⟨(Extends.refl s).grows, id, fun _ => Nat.le_refl _, .inl, .inl, rfl⟩

theorem Advances.trans {s t u : PassState} (h₁ : s.Advances M t) (h₂ : t.Advances M u) :
    s.Advances M u where
  grows := h₁.grows.trans h₂.grows
  within hs := h₂.within (h₁.within hs)
  work hs := (h₂.work (h₁.within hs)).trans (h₁.work hs)
  changed hu := by
    rcases h₂.changed hu with ht | ⟨v, hv, hnew⟩ | ⟨p, hp, hnew⟩
    · refine (h₁.changed ht).imp_right fun hgain => ?_
      rcases hgain with ⟨v, hv, hnew⟩ | ⟨p, hp, hnew⟩
      · exact .inl ⟨v, h₂.grows.values v hv, hnew⟩
      · exact .inr ⟨p, h₂.grows.pointers p hp, hnew⟩
    · exact .inr (.inl ⟨v, hv, fun h => hnew (h₁.grows.values v h)⟩)
    · exact .inr (.inr ⟨p, hp, fun h => hnew (h₁.grows.pointers p h)⟩)
  discovered hu := by
    rcases h₂.discovered hu with ht | ⟨f, hf, hnew⟩ | ⟨f, n, hn, hnew⟩
    · refine (h₁.discovered ht).imp_right fun hlearn => ?_
      rcases hlearn with ⟨f, hf, hnew⟩ | ⟨f, n, hn, hnew⟩
      · exact .inl ⟨f, h₂.grows.returning f hf, hnew⟩
      · exact .inr ⟨f, n, h₂.grows.params f n hn, hnew⟩
    · exact .inr (.inl ⟨f, hf, fun h => hnew (h₁.grows.returning f h)⟩)
    · exact .inr (.inr ⟨f, n, hn, fun h => hnew (h₁.grows.params f n h)⟩)
  upwardScanned := h₂.upwardScanned.trans h₁.upwardScanned

theorem advances_of_steps {R : PassState → PassState → Prop}
    (hR : ∀ s t, R s t → s.Advances M t) {s t : PassState} (h : Relation.ReflTransGen R s t) :
    s.Advances M t := by
  induction h with
  | refl => exact .refl s
  | tail _ hstep ih => exact ih.trans (hR _ _ hstep)

/-- An update that pushes nothing. -/
theorem work_le_of_worklist {s t : PassState} (h : s.Grows t) (hw : t.worklist = s.worklist) :
    workLeft M t ≤ workLeft M s := by
  rw [workLeft, workLeft, hw]
  exact Nat.add_le_add_left (room_le h.values) _

/-- An update that pushes the one value it taints. -/
theorem work_le_of_push {s t : PassState} {v : Value} (h : s.Grows t) (ht : t.Within M)
    (hv : v ∈ t.taintedValues) (hnew : v ∉ s.taintedValues) (hw : t.worklist = v :: s.worklist) :
    workLeft M t ≤ workLeft M s := by
  have hroom : room M.taintable (· ∈ t.taintedValues) < room M.taintable (· ∈ s.taintedValues) :=
    room_lt h.values (ht.values v hv) hnew hv
  rw [workLeft, workLeft, hw, List.length_cons]
  omega

theorem mem_taintParameter (a : ArgId) (level : Int) (s : PassState) :
    .arg a ∈ (s.taintParameter a level).taintedValues := by
  unfold taintParameter
  split
  next h => exact h
  next => exact DenseSet.mem_insert.mpr (.inl rfl)

theorem worklist_taintPointer (p : Value) (i : InstId) (s : PassState) :
    (s.taintPointer p i).worklist = s.worklist := by
  unfold taintPointer
  split <;> rfl

theorem worklist_initFunctionLevel (f : Nat) (level : Int) (s : PassState) :
    (s.initFunctionLevel f level).worklist = s.worklist := by
  unfold initFunctionLevel
  split <;> rfl

theorem advances_forwardStep {s t : PassState} (h : ForwardStep M cfg addr s t) :
    s.Advances M t := by
  have hgrows := h.extends.grows
  have hin (hs : s.Within M) := within_forwardStep hs h
  cases h with
  | callLevel _ _ _ _ =>
    exact ⟨hgrows, hin, fun _ => work_le_of_worklist hgrows rfl, .inl, .inl, rfl⟩
  | @parameter v i n callee _ _ _ _ _ hnew =>
    have hmem := mem_taintParameter ⟨callee, n⟩ (s.getLevel v) s
    -- a new parameter joins the worklist and asks for another turn
    have hfields : (s.taintParameter ⟨callee, n⟩ (s.getLevel v)).worklist =
          .arg ⟨callee, n⟩ :: s.worklist ∧
        (s.taintParameter ⟨callee, n⟩ (s.getLevel v)).discoveredNewFunctions =
          s.discoveredNewFunctions ∧
        (s.taintParameter ⟨callee, n⟩ (s.getLevel v)).upwardScannedPointers =
          s.upwardScannedPointers := by
      rw [taintParameter, if_neg hnew]
      exact ⟨rfl, rfl, rfl⟩
    refine ⟨hgrows, hin, fun hs => work_le_of_push hgrows (hin hs) hmem hnew hfields.1,
      fun _ => .inr (.inl ⟨_, hmem, hnew⟩), fun hd => .inl ?_, hfields.2.2⟩
    rwa [← hfields.2.1]
  | returned _ _ _ => exact ⟨hgrows, hin, fun _ => work_le_of_worklist hgrows rfl, .inl, .inl, rfl⟩
  | parameterStore _ _ _ _ =>
    exact ⟨hgrows, hin, fun _ => work_le_of_worklist hgrows rfl, .inl, .inl, rfl⟩
  -- a new pointer asks for another turn as well, to be scanned
  | @pointer v i ptr _ _ _ hnew =>
    refine ⟨hgrows, hin, fun _ => work_le_of_worklist hgrows (worklist_taintPointer _ _ s),
      fun _ => .inr (.inr ⟨_, mem_taintPointer.mpr (.inl rfl), hnew⟩), fun hd => .inl ?_, ?_⟩
    · rw [taintPointer, if_neg hnew] at hd
      exact hd
    · rw [taintPointer, if_neg hnew]
  | use _ _ hnew =>
    exact ⟨hgrows, hin, fun hs => work_le_of_push hgrows (hin hs) (DenseSet.mem_insert.mpr (.inl rfl))
      hnew rfl, .inl, .inl, rfl⟩

theorem advances_scanStep {s t : PassState} (h : ScanStep M s t) : s.Advances M t := by
  have hgrows := h.extends.grows
  have hin (hs : s.Within M) := within_scanStep hs h
  have hlevel (i : InstId) : (s.ensureLevelSet i).worklist = s.worklist ∧
      (s.ensureLevelSet i).changed = s.changed ∧
      (s.ensureLevelSet i).discoveredNewFunctions = s.discoveredNewFunctions ∧
      (s.ensureLevelSet i).upwardScannedPointers = s.upwardScannedPointers := by
    unfold ensureLevelSet
    split
    · exact ⟨rfl, rfl, rfl, rfl⟩
    · split <;> exact ⟨rfl, rfl, rfl, rfl⟩
  cases h with
  | kill _ _ => exact ⟨hgrows, hin, fun _ => work_le_of_worklist hgrows rfl, .inl, .inl, rfl⟩
  | @level i _ _ _ _ _ =>
    exact ⟨hgrows, hin, fun _ => work_le_of_worklist hgrows (hlevel i).1,
      fun hc => .inl ((hlevel i).2.1.symm.trans hc),
      fun hd => .inl ((hlevel i).2.2.1.symm.trans hd), (hlevel i).2.2.2⟩
  | @load i _ _ _ _ hnew =>
    exact ⟨hgrows, hin, fun hs => work_le_of_push hgrows (hin hs)
      (DenseSet.mem_insert.mpr (.inl rfl)) hnew (congrArg (List.cons _) (hlevel i).1),
      fun hc => .inl ((hlevel i).2.1.symm.trans hc),
      fun hd => .inl ((hlevel i).2.2.1.symm.trans hd), (hlevel i).2.2.2⟩

theorem advances_upwardStep {start s t : PassState} (h : UpwardStep M start s t) : s.Advances M t := by
  have hgrows := h.extends.grows
  have hin (hs : s.Within M) := within_upwardStep hs h
  -- setting a level and tainting a pointer leave both loop flags alone
  have hquiet (f : Nat) (level : Int) (u : PassState) :
      (u.initFunctionLevel f level).changed = u.changed ∧
      (u.initFunctionLevel f level).discoveredNewFunctions = u.discoveredNewFunctions ∧
      (u.initFunctionLevel f level).upwardScannedPointers = u.upwardScannedPointers := by
    unfold initFunctionLevel
    split <;> exact ⟨rfl, rfl, rfl⟩
  have hquiet' (p : Value) (i : InstId) (u : PassState) :
      (u.taintPointer p i).changed = u.changed ∧
      (u.taintPointer p i).discoveredNewFunctions = u.discoveredNewFunctions ∧
      (u.taintPointer p i).upwardScannedPointers = u.upwardScannedPointers := by
    unfold taintPointer
    split <;> exact ⟨rfl, rfl, rfl⟩
  -- the discovery flag is raised for a parameter that was not known
  have hlearn (f n : Nat) (u : PassState)
      (hd : (u.discoverTaintingPointerParam f n).discoveredNewFunctions = true) :
      u.discoveredNewFunctions = true ∨ ¬ u.TaintsParam f n := by
    simpa [discoverTaintingPointerParam] using hd
  have htaints (f n : Nat) (u : PassState) : (u.discoverTaintingPointerParam f n).TaintsParam f n :=
    taintsParam_addTaintingPointerParam.mpr (.inl ⟨rfl, rfl⟩)
  cases h with
  -- a new value is pushed: the work left goes down with the values outside
  | @call f i _ _ _ hnew =>
    have hset := hquiet i.func (s.calleeLevel f + 1)
      (s.setValueLevel (.inst i) (s.calleeLevel f + 1))
    refine ⟨hgrows, hin, fun hs => work_le_of_push hgrows (hin hs) (DenseSet.mem_insert.mpr (.inl rfl))
      hnew ?_, fun hc => .inl (hset.1.symm.trans hc), fun hd => .inl (hset.2.1.symm.trans hd),
      hset.2.2⟩
    exact congrArg (List.cons _) (worklist_initFunctionLevel _ _ _)
  | @passThrough f n i actual a _ _ _ _ hnew =>
    have hset := hquiet i.func (s.calleeLevel f + 1) (s.discoverTaintingPointerParam i.func a.no)
    refine ⟨hgrows, hin, fun _ => work_le_of_worklist hgrows (worklist_initFunctionLevel _ _ _),
      fun hc => .inl (hset.1.symm.trans hc), fun hd => .inr (.inr ⟨i.func, a.no, ?_, hnew⟩),
      hset.2.2⟩
    exact (extends_initFunctionLevel _ _ _).taintsParam _ _ (htaints i.func a.no s)
  | @pointed f n i actual var _ _ _ _ _ =>
    have hset := hquiet i.func (s.calleeLevel f + 1) s
    have hset' := hquiet' var i (s.initFunctionLevel i.func (s.calleeLevel f + 1))
    exact ⟨hgrows, hin, fun _ => work_le_of_worklist hgrows
      ((worklist_taintPointer _ _ _).trans (worklist_initFunctionLevel _ _ s)),
      fun hc => .inl (hset.1.symm.trans (hset'.1.symm.trans hc)),
      fun hd => .inl (hset.2.1.symm.trans (hset'.2.1.symm.trans hd)), hset'.2.2.trans hset.2.2⟩
  | field _ _ _ _ _ _ _ _ _ _ _ =>
    exact ⟨hgrows, hin, fun _ => work_le_of_worklist hgrows (worklist_taintPointer _ _ s),
      fun hc => .inl ((hquiet' _ _ s).1.symm.trans hc),
      fun hd => .inl ((hquiet' _ _ s).2.1.symm.trans hd), (hquiet' _ _ s).2.2⟩
  | use _ _ hnew =>
    exact ⟨hgrows, hin, fun hs => work_le_of_push hgrows (hin hs) (DenseSet.mem_insert.mpr (.inl rfl))
      hnew rfl, .inl, .inl, rfl⟩
  | store _ _ _ =>
    exact ⟨hgrows, hin, fun _ => work_le_of_worklist hgrows (worklist_taintPointer _ _ s),
      fun hc => .inl ((hquiet' _ _ s).1.symm.trans hc),
      fun hd => .inl ((hquiet' _ _ s).2.1.symm.trans hd), (hquiet' _ _ s).2.2⟩
  | @parameterStore v i ptr a _ _ _ _ =>
    exact ⟨hgrows, hin, fun _ => work_le_of_worklist hgrows rfl, .inl,
      fun hd => (hlearn _ _ s hd).imp_right fun hnew => .inr ⟨_, _, htaints _ _ s, hnew⟩, rfl⟩
  | @fields f n indices =>
    have hset : (s.recordFieldAccess f n indices).worklist = s.worklist ∧
        (s.recordFieldAccess f n indices).changed = s.changed ∧
        (s.recordFieldAccess f n indices).discoveredNewFunctions = s.discoveredNewFunctions ∧
        (s.recordFieldAccess f n indices).upwardScannedPointers = s.upwardScannedPointers := by
      unfold recordFieldAccess
      split <;> exact ⟨rfl, rfl, rfl, rfl⟩
    exact ⟨hgrows, hin, fun _ => work_le_of_worklist hgrows hset.1,
      fun hc => .inl (hset.2.1.symm.trans hc), fun hd => .inl (hset.2.2.1.symm.trans hd),
      hset.2.2.2⟩
  | @returned v i _ _ _ =>
    refine ⟨hgrows, hin, fun _ => work_le_of_worklist hgrows rfl, .inl, fun hd => ?_, rfl⟩
    -- only a function that was not known to return taint raises the flag
    by_cases hf : i.func ∈ s.functionsReturningTaint
    · left
      simpa [discoverReturningFunction, hf] using hd
    · exact .inr (.inl ⟨i.func, DenseSet.mem_insert.mpr (.inl rfl), hf⟩)

end PassState

end LinuxAnalysis
