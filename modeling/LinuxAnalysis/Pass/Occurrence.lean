import LinuxAnalysis.Pass.Seed

/-!
# Which instruction an occurrence index selects

The pass counts pairs of an instruction with the selected opcode and an operand that is the constant.
A positive index selects the instruction of the pair with that number.
-/

open LinuxAnalysis.Lib

namespace LinuxAnalysis

namespace PassState

variable {M : Module} {cfg : Config}

/-- Seeding puts one instruction into `TaintedValues`; the rest it adds are parameters. -/
theorem inst_mem_seedInst {i j : InstId} {ci : Value} {s : PassState}
    (hempty : s.taintedValues = ∅) :
    .inst j ∈ (s.seedInst M cfg i ci).taintedValues ↔ j = i := by
  -- after the seed itself only parameters become tainted, and they are no instructions
  have hreturn (t : PassState) : (t.seedReturn M i ci).taintedValues = t.taintedValues := by
    unfold seedReturn
    split
    · split <;> rfl
    · rfl
  have hstore (t : PassState) : (t.seedStore M i).taintedValues = t.taintedValues := by
    unfold seedStore recordParameterStore recordFieldAccess taintPointer
    split
    · split
      · rfl
      · split
        · split <;> rfl
        · split <;> rfl
    · rfl
  have hcall (t : PassState) : .inst j ∈ (t.seedCall M cfg i ci).taintedValues ↔
      .inst j ∈ t.taintedValues := by
    unfold seedCall
    split
    · refine foldl_rel (R := fun s t : PassState => .inst j ∈ t.taintedValues ↔
        .inst j ∈ s.taintedValues) (fun _ => Iff.rfl) (fun _ _ _ h₁ h₂ => h₂.trans h₁)
        (fun t n _ => ?_) t
      unfold seedCallArgument
      split
      · unfold taintParameter
        split
        · rfl
        · exact DenseSet.mem_insert.trans (or_iff_right (by simp))
      · rfl
    · rfl
  unfold seedInst
  rw [hempty, if_neg (DenseSet.not_mem_empty _)]
  dsimp only
  rw [hcall, hstore, hreturn]
  show .inst j ∈ s.taintedValues.insert (.inst i) ↔ _
  rw [DenseSet.mem_insert, hempty, or_iff_left (DenseSet.not_mem_empty _), Value.inst.injEq]

theorem taintedValues_buildFunctionPointerTargets (s : PassState) :
    (s.buildFunctionPointerTargets M cfg).taintedValues = s.taintedValues := by
  unfold buildFunctionPointerTargets
  split
  · refine foldl_invariant (I := fun t : PassState => t.taintedValues = s.taintedValues)
      (fun t i _ ht => ?_) rfl
    unfold functionPointerStore
    split
    · dsimp only
      split <;> exact ht
    · exact ht
  · rfl

end PassState

section Occurrences

variable (M : Module) (cfg : Config)

/-- The operand is an integer constant of the tracked value. -/
def isTrackedConstant (op : Value) : Bool :=
  match op with
  | .constantInt _ c => c == cfg.constantToTrack
  | _ => false

/-- The pairs that `currentOccurrence` counts, in order. -/
def occurrences : List (InstId × Value) :=
  (seedCandidates M cfg).flatMap fun i =>
    ((M.operands i).filter (isTrackedConstant cfg)).map fun op => (i, op)

/-- The number of pairs of one instruction. -/
def pairsIn (i : InstId) : Nat := (M.operands i).countP (isTrackedConstant cfg)

/-- The number of pairs of the instructions that are visited before `i`. -/
def pairsBefore (i : InstId) : Nat :=
  (((seedCandidates M cfg).takeWhile fun j => j ≠ i).map (pairsIn M cfg)).sum

variable {M cfg}

theorem seedOperand_of_not_tracked {i : InstId} {op : Value} (h : isTrackedConstant cfg op = false)
    (s : SeedState) : seedOperand M cfg i s op = s := by
  unfold seedOperand
  split
  · rfl
  · split
    next c =>
      rw [if_neg (by simpa [isTrackedConstant] using h)]
    next => rfl

/-- The five nested loops visit the pairs one after the other. -/
theorem foldl_seedInstruction (s : SeedState) :
    (seedCandidates M cfg).foldl (seedInstruction M cfg) s =
      (occurrences M cfg).foldl (fun s x => seedOperand M cfg x.1 s x.2) s := by
  rw [occurrences, List.foldl_flatMap]
  congr 1
  funext s i
  rw [List.foldl_map, List.foldl_filter, seedInstruction]
  congr 1
  funext s op
  split
  next => rfl
  next h => exact seedOperand_of_not_tracked (by simpa using h) s

/-- Once the pair is found the loops are left. -/
theorem foldl_seedOperand_found (xs : List (InstId × Value)) {s : SeedState}
    (h : s.found = true) : xs.foldl (fun s x => seedOperand M cfg x.1 s x.2) s = s := by
  induction xs with
  | nil => rfl
  | cons x xs ih =>
    have hskip : seedOperand M cfg x.1 s x.2 = s := by
      unfold seedOperand
      rw [if_pos h]
    rw [List.foldl_cons, hskip]
    exact ih

/-- Counting up to a positive index: the pair with that number is seeded, if there is one. -/
theorem foldl_seedOperand_index (hindex : cfg.occurrenceIndex ≠ 0) (xs : List (InstId × Value))
    (hxs : ∀ x ∈ xs, isTrackedConstant cfg x.2 = true) (s : PassState) (n : Nat)
    (hn : n < cfg.occurrenceIndex) :
    (xs.foldl (fun s x => seedOperand M cfg x.1 s x.2) ⟨s, n, false⟩).pass =
      match xs[cfg.occurrenceIndex - 1 - n]? with
      | some x => s.seedInst M cfg x.1 x.2
      | none => s := by
  induction xs generalizing n with
  | nil => rfl
  | cons x xs ih =>
    obtain ⟨i, op⟩ := x
    have htracked := hxs (i, op) List.mem_cons_self
    have hstep : seedOperand M cfg i ⟨s, n, false⟩ op =
        if n + 1 ≠ cfg.occurrenceIndex then ⟨s, n + 1, false⟩
        else ⟨s.seedInst M cfg i op, n + 1, true⟩ := by
      cases op with
      | constantInt type c =>
        have hc : c = cfg.constantToTrack := by simpa [isTrackedConstant] using htracked
        simp only [seedOperand, Bool.false_eq_true, if_false, if_pos hc]
        by_cases hlast : n + 1 = cfg.occurrenceIndex <;> simp [hlast, hindex]
      | _ => cases htracked
    rw [List.foldl_cons, hstep]
    by_cases hlast : n + 1 = cfg.occurrenceIndex
    · rw [if_neg (by omega), foldl_seedOperand_found xs rfl,
        show cfg.occurrenceIndex - 1 - n = 0 by omega, List.getElem?_cons_zero]
    · rw [if_pos hlast, ih (fun x hx => hxs x (List.mem_cons_of_mem _ hx)) (n + 1) (by omega),
        show cfg.occurrenceIndex - 1 - n = cfg.occurrenceIndex - 1 - (n + 1) + 1 by omega,
        List.getElem?_cons_succ]

theorem seedWorklist_eq (hindex : cfg.occurrenceIndex ≠ 0) :
    seedWorklist M cfg =
      match (occurrences M cfg)[cfg.occurrenceIndex - 1]? with
      | some x => (PassState.buildFunctionPointerTargets M cfg {}).seedInst M cfg x.1 x.2
      | none => PassState.buildFunctionPointerTargets M cfg {} := by
  rw [seedWorklist, foldl_seedInstruction, foldl_seedOperand_index hindex _ _ _ 0 (by omega)]
  · rfl
  · intro x hx
    obtain ⟨i, _, hx⟩ := List.mem_flatMap.mp hx
    obtain ⟨op, hop, rfl⟩ := List.mem_map.mp hx
    exact (List.mem_filter.mp hop).2

/-- The seed is one instruction exactly when that instruction's pairs take in the index. -/
theorem seeds_iff_occurrence (hindex : cfg.occurrenceIndex ≠ 0) (i : InstId) :
    (∀ j, .inst j ∈ (seedWorklist M cfg).taintedValues ↔ j = i) ↔
      ((occurrences M cfg).map Prod.fst)[cfg.occurrenceIndex - 1]? = some i := by
  have hempty : (PassState.buildFunctionPointerTargets M cfg {}).taintedValues = ∅ :=
    PassState.taintedValues_buildFunctionPointerTargets {}
  rw [seedWorklist_eq hindex, List.getElem?_map]
  cases hx : (occurrences M cfg)[cfg.occurrenceIndex - 1]? with
  | none =>
    refine iff_of_false (fun h => ?_) (by simp)
    have hi := (h i).mpr rfl
    dsimp only at hi
    rw [hempty] at hi
    exact DenseSet.not_mem_empty _ hi
  | some x =>
    dsimp only
    simp only [PassState.inst_mem_seedInst hempty, Option.map_some, Option.some.injEq]
    constructor
    · intro h
      exact (h x.1).mp rfl
    · intro h j
      rw [h]

/-- Position `n` of a list of runs lies in the run of `x` exactly when the runs before it leave off at
or before `n` and the run of `x` does not. -/
theorem getElem?_flatMap_replicate {α : Type} [DecidableEq α] {m : α → Nat} {x : α} {xs : List α}
    (hx : x ∈ xs) (hnodup : xs.Nodup) (n : Nat) :
    (xs.flatMap fun y => List.replicate (m y) y)[n]? = some x ↔
      ((xs.takeWhile fun y => y ≠ x).map m).sum ≤ n ∧
        n < ((xs.takeWhile fun y => y ≠ x).map m).sum + m x := by
  induction xs generalizing n with
  | nil => cases hx
  | cons y ys ih =>
    obtain ⟨hy, hnodup⟩ := List.nodup_cons.mp hnodup
    rw [List.flatMap_cons, List.getElem?_append, List.length_replicate]
    by_cases hyx : y = x
    · subst hyx
      rw [List.takeWhile_cons_of_neg (by simp), List.map_nil, List.sum_nil, Nat.zero_add]
      by_cases hn : n < m y
      · rw [if_pos hn, List.getElem?_replicate_of_lt hn]
        exact iff_of_true rfl ⟨Nat.zero_le n, hn⟩
      · rw [if_neg hn]
        refine iff_of_false (fun h => ?_) (fun h => hn h.2)
        obtain ⟨z, hz, hyz⟩ := List.mem_flatMap.mp (List.mem_of_getElem? h)
        rw [(List.mem_replicate.mp hyz).2] at hy
        exact hy hz
    · have hx := (List.mem_cons.mp hx).resolve_left (Ne.symm hyx)
      rw [List.takeWhile_cons_of_pos (by simpa using hyx), List.map_cons, List.sum_cons]
      by_cases hn : n < m y
      · rw [if_pos hn, List.getElem?_replicate_of_lt hn]
        refine iff_of_false (fun h => hyx (Option.some.inj h)) (fun h => ?_)
        omega
      · rw [if_neg hn, ih hx hnodup (n - m y)]
        omega

/-- **Occurrence selection.**  With a positive index, exactly instruction `i` is seeded if and only if
the index is above the number of pairs before `i` and at most that number plus its own pairs. -/
theorem seeds_iff_index {i : InstId} (hindex : cfg.occurrenceIndex ≠ 0)
    (hi : i ∈ seedCandidates M cfg) :
    (∀ j, .inst j ∈ (seedWorklist M cfg).taintedValues ↔ j = i) ↔
      pairsBefore M cfg i < cfg.occurrenceIndex ∧
        cfg.occurrenceIndex ≤ pairsBefore M cfg i + pairsIn M cfg i := by
  have hmap : (occurrences M cfg).map Prod.fst =
      (seedCandidates M cfg).flatMap fun i => List.replicate (pairsIn M cfg i) i := by
    rw [occurrences, List.map_flatMap]
    congr 1
    funext i
    rw [List.map_map, pairsIn, List.countP_eq_length_filter]
    exact List.map_const'
  have hnodup : (seedCandidates M cfg).Nodup := nodup_instIds.filter _
  rw [seeds_iff_occurrence hindex, hmap, getElem?_flatMap_replicate hi hnodup]
  show pairsBefore M cfg i ≤ _ ∧ _ < pairsBefore M cfg i + _ ↔ _
  omega

end Occurrences

end LinuxAnalysis
