import LinuxAnalysis.Pass.Report
import Mathlib.Algebra.Order.BigOperators.Group.List
import Mathlib.Algebra.Order.Group.Nat

/-!
# The instruction counts and the span details

After the earliest and latest instructions the report gives instruction counts and the block and
instruction index of both ends of each function.  They are computed by scans of their own, from the
levels again and function by function.
-/

open LinuxAnalysis.Lib

namespace LinuxAnalysis

/-- `I->getFunction()` and `Arg->getParent()`. -/
def Value.getFunction : Value → Option Nat
  | .inst i => some i.func
  | .arg a => some a.func
  | _ => none

/-- `for (BasicBlock &BB : F)` -/
def Module.funcBlocks (M : Module) (f : Nat) : List (List InstId) :=
  (List.range ((M.functions[f]?.map Function.blocks).getD []).length).map (blockInstIds M.functions f)

namespace InstId

theorem le_total (i j : InstId) : i.le j ∨ j.le i := by
  unfold le
  omega

theorem le_antisymm {i j : InstId} (hf : i.func = j.func) (h₁ : i.le j) (h₂ : j.le i) : i = j := by
  cases i
  cases j
  simp only [le, mk.injEq] at *
  omega

end InstId

namespace Module

variable {M : Module} {f : Nat}

theorem flatten_funcBlocks : (M.funcBlocks f).flatten = M.funcInsts f := rfl

theorem mem_funcInsts {i : InstId} : i ∈ M.funcInsts f ↔ i ∈ M.insts ∧ i.func = f := by
  rw [mem_insts, funcInsts, funcInstIds]
  simp only [List.mem_flatMap, List.mem_range, mem_blockInstIds]
  constructor
  · rintro ⟨b, _, rfl, rfl, hi⟩
    exact ⟨hi, rfl⟩
  · rintro ⟨hi, rfl⟩
    refine ⟨i.block, ?_, rfl, rfl, hi⟩
    by_contra hb
    rw [blockAt, List.getElem?_eq_none (by omega)] at hi
    exact Nat.not_lt_zero _ hi

theorem pairwise_funcInsts : (M.funcInsts f).Pairwise fun i j => ¬ j.le i := by
  refine List.pairwise_flatMap.mpr ⟨fun b _ => ?_, ?_⟩
  · refine List.pairwise_map.mpr (List.pairwise_lt_range.imp ?_)
    intro n n' hn
    simp only [InstId.le]
    omega
  · refine List.pairwise_lt_range.imp ?_
    intro b b' hb i hi j hj
    rw [mem_blockInstIds] at hi hj
    simp only [InstId.le]
    omega

end Module

/-- The instructions of a function from `first` to `last`, in block order. -/
def Module.instsBetween (M : Module) (f : Nat) (first last : InstId) : List InstId :=
  (M.funcInsts f).filter fun i => first.le i ∧ i.le last

/-! ## Counting a range -/

/-- A basic block of the count, up to the last instruction of the range: whether the range has begun,
whether its last instruction is met, and the count. -/
def countBlock (first last : InstId) : List InstId → Bool → Nat → Bool × Bool × Nat
  | [], inRange, count => (inRange, false, count)
  | i :: rest, inRange, count =>
    let inRange := inRange || decide (i = first)
    let count := if inRange then count + 1 else count
    if i = last then (inRange, true, count) else countBlock first last rest inRange count

/-- The instructions of a range, added to `count`.  `if (foundLast) break` leaves the later blocks. -/
def countRange (first last : InstId) : List (List InstId) → Bool → Nat → Nat
  | [], _, count => count
  | block :: rest, inRange, count =>
    let r := countBlock first last block inRange count
    if r.2.1 then r.2.2 else countRange first last rest r.1 r.2.2

/-- The scan of two parts one after the other, as the scan of both with its early exit. -/
theorem countBlock_append (first last : InstId) (xs ys : List InstId) (inRange : Bool) (count : Nat) :
    countBlock first last (xs ++ ys) inRange count =
      let r := countBlock first last xs inRange count
      if r.2.1 then r else countBlock first last ys r.1 r.2.2 := by
  induction xs generalizing inRange count with
  | nil => rfl
  | cons x xs ih =>
    rw [List.cons_append, countBlock, countBlock]
    by_cases hx : x = last
    · simp only [if_pos hx, if_true]
    · simp only [if_neg hx]
      exact ih _ _

theorem countRange_eq (first last : InstId) (blocks : List (List InstId)) (inRange : Bool)
    (count : Nat) :
    countRange first last blocks inRange count =
      (countBlock first last blocks.flatten inRange count).2.2 := by
  induction blocks generalizing inRange count with
  | nil => rfl
  | cons block blocks ih =>
    rw [countRange, List.flatten_cons, countBlock_append]
    dsimp only
    split
    · rfl
    · exact ih _ _

/-- Inside the range, every instruction up to the last one is counted. -/
theorem countBlock_inRange (first : InstId) {last : InstId} {xs : List InstId} (hlast : last ∈ xs)
    (hsorted : xs.Pairwise fun i j => ¬ j.le i) (count : Nat) :
    (countBlock first last xs true count).2.2 = count + (xs.filter fun i => i.le last).length := by
  induction xs generalizing count with
  | nil => cases hlast
  | cons x xs ih =>
    obtain ⟨hx, hxs⟩ := List.pairwise_cons.mp hsorted
    rw [countBlock]
    by_cases hend : x = last
    · subst hend
      have hnone : xs.filter (fun i => i.le x) = [] := by
        rw [List.filter_eq_nil_iff]
        intro i hi
        simpa using hx i hi
      simp [hnone, x.le_refl]
    · have hmem : last ∈ xs := (List.mem_cons.mp hlast).resolve_left (Ne.symm hend)
      have hle : x.le last := (x.le_total last).resolve_right (hx last hmem)
      simp only [Bool.true_or, if_true, if_neg hend]
      rw [ih hmem hxs, List.filter_cons_of_pos (by simpa using hle), List.length_cons]
      omega

/-- Before the range nothing is counted, and the scan is not left. -/
theorem countBlock_spec {first last : InstId} {xs : List InstId} (hfirst : first ∈ xs)
    (hlast : last ∈ xs) (hle : first.le last) (hsorted : xs.Pairwise fun i j => ¬ j.le i)
    (count : Nat) :
    (countBlock first last xs false count).2.2 =
      count + (xs.filter fun i => first.le i ∧ i.le last).length := by
  induction xs generalizing count with
  | nil => cases hfirst
  | cons x xs ih =>
    obtain ⟨hx, hxs⟩ := List.pairwise_cons.mp hsorted
    by_cases hstart : x = first
    · subst hstart
      -- from the first instruction on every later one is in the range
      have hfilter : (x :: xs).filter (fun i => x.le i ∧ i.le last) =
          (x :: xs).filter fun i => i.le last := by
        apply List.filter_congr
        intro i hi
        have hxi : x.le i := by
          rcases List.mem_cons.mp hi with rfl | hi
          · exact i.le_refl
          · exact (x.le_total i).resolve_right (hx i hi)
        simp [hxi]
      rw [hfilter, ← countBlock_inRange x hlast hsorted, countBlock, countBlock]
      simp
    -- before the first instruction nothing is counted
    · have hmem : first ∈ xs := (List.mem_cons.mp hfirst).resolve_left (Ne.symm hstart)
      have hbefore : ¬ first.le x := hx first hmem
      have hend : x ≠ last := by
        rintro rfl
        exact hbefore hle
      rw [countBlock]
      simp only [hstart, decide_false, Bool.or_false, Bool.false_eq_true, if_false, if_neg hend]
      rw [ih hmem ((List.mem_cons.mp hlast).resolve_left (Ne.symm hend)) hxs,
        List.filter_cons_of_neg (by simp [hbefore])]

/-- A range of a function, counted over its blocks. -/
theorem countRange_funcBlocks {M : Module} {f : Nat} {first last : InstId}
    (hfirst : first ∈ M.funcInsts f) (hlast : last ∈ M.funcInsts f) (hle : first.le last)
    (count : Nat) :
    countRange first last (M.funcBlocks f) false count =
      count + (M.instsBetween f first last).length := by
  rw [countRange_eq, Module.flatten_funcBlocks]
  exact countBlock_spec hfirst hlast hle Module.pairwise_funcInsts count

/-! ## Index recovery -/

structure SpanIndices where
  startBBIdx : Nat
  startInstIdx : Nat
  endBBIdx : Nat
  endInstIdx : Nat
  deriving DecidableEq

/-- One instruction of the search for both ends, with the current indices. -/
def SpanIndices.visit (first last : InstId) (bbIdx instIdx : Nat) (i : InstId) (x : SpanIndices) :
    SpanIndices :=
  let x := if i = first then { x with startBBIdx := bbIdx, startInstIdx := instIdx } else x
  if i = last then { x with endBBIdx := bbIdx, endInstIdx := instIdx } else x

/-- One basic block of the search, its instructions being counted from `0`. -/
def SpanIndices.visitBlock (first last : InstId) (bbIdx : Nat) (block : List InstId)
    (x : SpanIndices) : SpanIndices :=
  (block.foldl (fun r i => (r.1.visit first last bbIdx r.2 i, r.2 + 1)) (x, 0)).1

def spanIndices (first last : InstId) (blocks : List (List InstId)) : SpanIndices :=
  (blocks.foldl (fun r block => (r.1.visitBlock first last r.2 block, r.2 + 1)) (⟨0, 0, 0, 0⟩, 0)).1

namespace SpanIndices

theorem start_visit (first last : InstId) (bbIdx instIdx : Nat) (i : InstId) (x : SpanIndices) :
    ((x.visit first last bbIdx instIdx i).startBBIdx,
        (x.visit first last bbIdx instIdx i).startInstIdx) =
      if i = first then (bbIdx, instIdx) else (x.startBBIdx, x.startInstIdx) := by
  unfold visit
  by_cases hend : i = last
  · simp only [if_pos hend]
    split <;> rfl
  · simp only [if_neg hend]
    split <;> rfl

theorem end_visit (first last : InstId) (bbIdx instIdx : Nat) (i : InstId) (x : SpanIndices) :
    ((x.visit first last bbIdx instIdx i).endBBIdx,
        (x.visit first last bbIdx instIdx i).endInstIdx) =
      if i = last then (bbIdx, instIdx) else (x.endBBIdx, x.endInstIdx) := by
  unfold visit
  by_cases hend : i = last
  · simp only [if_pos hend]
  · simp only [if_neg hend]
    split <;> rfl

/-- The coordinates of both ends. -/
def ofRange (first last : InstId) : SpanIndices := ⟨first.block, first.idx, last.block, last.idx⟩

/-- The current indices are those of the instruction looked at. -/
theorem visitBlock_eq (M : Module) (first last : InstId) (f b : Nat) (x : SpanIndices) :
    x.visitBlock first last b (blockInstIds M.functions f b) =
      (blockInstIds M.functions f b).foldl (fun x i => x.visit first last i.block i.idx i) x := by
  have aux (n : Nat) : ((List.range n).map (InstId.mk f b)).foldl
      (fun (r : SpanIndices × Nat) i => (r.1.visit first last b r.2 i, r.2 + 1)) (x, 0) =
      (((List.range n).map (InstId.mk f b)).foldl
        (fun x i => x.visit first last i.block i.idx i) x, n) := by
    induction n with
    | zero => rfl
    | succ n ih =>
      rw [List.range_succ, List.map_append, List.foldl_append, List.foldl_append, ih]
      rfl
  rw [visitBlock, blockInstIds, aux]

theorem spanIndices_eq_foldl (M : Module) (first last : InstId) (f : Nat) :
    spanIndices first last (M.funcBlocks f) =
      (M.funcInsts f).foldl (fun x i => x.visit first last i.block i.idx i) ⟨0, 0, 0, 0⟩ := by
  have aux (n : Nat) : ((List.range n).map (blockInstIds M.functions f)).foldl
      (fun (r : SpanIndices × Nat) block => (r.1.visitBlock first last r.2 block, r.2 + 1))
        (⟨0, 0, 0, 0⟩, 0) =
      (((List.range n).flatMap (blockInstIds M.functions f)).foldl
        (fun x i => x.visit first last i.block i.idx i) ⟨0, 0, 0, 0⟩, n) := by
    induction n with
    | zero => rfl
    | succ n ih =>
      rw [List.range_succ, List.map_append, List.foldl_append, ih, List.flatMap_append,
        List.foldl_append]
      show ((SpanIndices.visitBlock ..), _) = _
      rw [visitBlock_eq, List.flatMap_singleton]
  rw [spanIndices, Module.funcBlocks, aux]
  rfl

/-- Each end is found where it is. -/
theorem spanIndices_funcBlocks {M : Module} {f : Nat} {first last : InstId}
    (hfirst : first ∈ M.funcInsts f) (hlast : last ∈ M.funcInsts f) :
    spanIndices first last (M.funcBlocks f) = ofRange first last := by
  let visit (x : SpanIndices) (i : InstId) := x.visit first last i.block i.idx i
  have hstart := foldl_visits (f := visit)
    (P := fun i x => i = first → (x.startBBIdx, x.startInstIdx) = (i.block, i.idx)) (M.funcInsts f)
    (fun x i _ h => by rw [start_visit, if_pos h])
    (fun x i _ j hj h => by
      rw [start_visit]
      split
      next hi => rw [hi, h]
      next => exact hj h) ⟨0, 0, 0, 0⟩ first hfirst rfl
  have hend := foldl_visits (f := visit)
    (P := fun i x => i = last → (x.endBBIdx, x.endInstIdx) = (i.block, i.idx)) (M.funcInsts f)
    (fun x i _ h => by rw [end_visit, if_pos h])
    (fun x i _ j hj h => by
      rw [end_visit]
      split
      next hi => rw [hi, h]
      next => exact hj h) ⟨0, 0, 0, 0⟩ last hlast rfl
  rw [spanIndices_eq_foldl]
  simp only [Prod.mk.injEq] at hstart hend
  unfold ofRange
  rw [← hstart.1, ← hstart.2, ← hend.1, ← hend.2]

end SpanIndices

namespace PassState

variable (M : Module) (s : PassState)

def maxLevelCountPerFunction : DenseMap Nat Nat :=
  s.maxLevelValues.foldl (fun m v =>
    match v.getFunction with
    | some f => m.insert f (DenseMap.getD m f 0 + 1)
    | none => m) ∅

def allVisitedFunctions : DenseSet Nat :=
  s.taintedLevels.foldl (fun fs e =>
    match e.1.getFunction with
    | some f => fs.insert f
    | none => fs) ∅

/-- The functions that both scans look at: `isDeclaration` and unvisited ones are passed over. -/
def visitedDefinitions : List Nat :=
  (List.range M.functions.length).filter fun f =>
    !M.isDeclaration f && decide (f ∈ s.allVisitedFunctions)

/-- One instruction of the scan of a function for its `first` and `last`. -/
def visitRange (r : Option InstId × Option InstId) (i : InstId) : Option InstId × Option InstId :=
  if .inst i ∈ s.taintedValues ∧ s.valueLevel.lookup (.inst i) = some s.maxLevel then
    (if r.1.isNone then some i else r.1, some i)
  else r

def functionRange (f : Nat) : Option (InstId × InstId) :=
  match (M.funcInsts f).foldl s.visitRange (none, none) with
  | (some first, some last) => some (first, last)
  | _ => none

def maxLevelFunctionRanges : DenseMap Nat (InstId × InstId) :=
  (s.visitedDefinitions M).foldl (fun m f =>
    if f ∈ s.maxLevelCountPerFunction then
      match s.functionRange M f with
      | some r => m.insert f r
      | none => m
    else m) ∅

/-- `maxLevelFunctionInstructionCount` and `otherFunctionInstructionCount` -/
def instructionCounts : Nat × Nat :=
  (s.visitedDefinitions M).foldl (fun n f =>
    match (s.maxLevelFunctionRanges M).lookup f with
    | some (first, last) => (countRange first last (M.funcBlocks f) false n.1, n.2)
    | none => (n.1, n.2 + (M.funcInsts f).length)) (0, 0)

/-- `SortedMaxLevelFunctions` -/
def sortedMaxLevelFunctions : List Nat :=
  (s.maxLevelFunctionRanges M).entries.map Sigma.fst |>.insertionSort
    fun f g => M.functionName f ≤ M.functionName g

/-- The lines with indices. -/
def spanLines : List (Text × SpanIndices) :=
  (s.sortedMaxLevelFunctions M).filterMap fun f =>
    ((s.maxLevelFunctionRanges M).lookup f).map fun r =>
      (M.functionName f, spanIndices r.1 r.2 (M.funcBlocks f))

/-- `SortedOtherFunctions` -/
def sortedOtherFunctions : List Nat :=
  (s.allVisitedFunctions.elems.filter fun f => f ∉ s.maxLevelFunctionRanges M).insertionSort
    fun f g => M.functionName f ≤ M.functionName g

variable {M s}

/-! ## Both scans -/

theorem mem_taintedLevels {i : InstId} (hi : i ∈ s.maxLevelInstructions) :
    ⟨.inst i, s.maxLevel⟩ ∈ s.taintedLevels := by
  obtain ⟨htainted, hlevel⟩ := mem_maxLevelInstructions.mp hi
  exact List.mem_filter.mpr ⟨DenseMap.mem_entries_iff.mpr hlevel, decide_eq_true htainted⟩

theorem func_mem_allVisitedFunctions {i : InstId} (hi : i ∈ s.maxLevelInstructions) :
    i.func ∈ s.allVisitedFunctions := by
  have hvisits := foldl_visits (f := fun (fs : DenseSet Nat) (e : Σ _ : Value, Int) =>
      match e.1.getFunction with
      | some f => fs.insert f
      | none => fs)
    (P := fun e fs => ∀ f, e.1.getFunction = some f → f ∈ fs) s.taintedLevels
    (fun fs e _ f hf => by
      rw [hf]
      exact DenseSet.mem_insert.mpr (.inl rfl))
    (fun fs e _ e' h f hf => by
      split
      · exact DenseSet.subset_insert fs _ f (h f hf)
      · exact h f hf) ∅
  exact hvisits _ (mem_taintedLevels hi) i.func rfl

theorem mem_maxLevelCountPerFunction {f : Nat} : f ∈ s.maxLevelCountPerFunction ↔
    ∃ v ∈ s.maxLevelValues, v.getFunction = some f := by
  have hfold (vs : List Value) (m : DenseMap Nat Nat) :
      f ∈ vs.foldl (fun (m : DenseMap Nat Nat) v => match v.getFunction with
        | some f => m.insert f (DenseMap.getD m f 0 + 1)
        | none => m) m ↔ f ∈ m ∨ ∃ v ∈ vs, v.getFunction = some f := by
    induction vs generalizing m with
    | nil => simp
    | cons v vs ih =>
      rw [List.foldl_cons, ih, List.exists_mem_cons_iff, ← or_assoc]
      refine or_congr_left ?_
      split
      next g hg => rw [AList.mem_insert, hg, Option.some.injEq, or_comm, eq_comm]
      next hnone => simp [hnone]
  rw [maxLevelCountPerFunction, hfold]
  simp

theorem func_mem_maxLevelCountPerFunction {i : InstId} (hi : i ∈ s.maxLevelInstructions) :
    i.func ∈ s.maxLevelCountPerFunction :=
  mem_maxLevelCountPerFunction.mpr
    ⟨.inst i, mem_maxLevelValues.mpr (mem_maxLevelInstructions.mp hi), rfl⟩

theorem func_mem_visitedDefinitions {i : InstId} (hmem : i ∈ M.insts)
    (hi : i ∈ s.maxLevelInstructions) : i.func ∈ s.visitedDefinitions M := by
  have hidx := Module.mem_insts.mp hmem
  have hblocks : ((M.functions[i.func]?.map Function.blocks).getD [])[i.block]?.isSome := by
    by_contra hnone
    rw [Option.not_isSome_iff_eq_none] at hnone
    rw [blockAt, hnone] at hidx
    exact Nat.not_lt_zero _ hidx
  refine List.mem_filter.mpr ⟨List.mem_range.mpr ?_, ?_⟩
  · by_contra hlen
    have hnone : M.functions[i.func]? = none := List.getElem?_eq_none (by omega)
    rw [hnone] at hblocks
    cases hblocks
  · rw [Bool.and_eq_true]
    refine ⟨?_, decide_eq_true (func_mem_allVisitedFunctions hi)⟩
    cases hf : M.functions[i.func]? with
    | none =>
      rw [hf] at hblocks
      cases hblocks
    | some F =>
      -- a function with a block is no declaration
      rw [hf] at hblocks
      simp only [Module.isDeclaration, hf, Option.map_some, Option.getD_some,
        Function.isDeclaration] at hblocks ⊢
      cases hb : F.blocks with
      | nil =>
        rw [hb] at hblocks
        cases hblocks
      | cons b bs => rfl

/-- The scan of a function finds the first and the last of its instructions at the largest level. -/
theorem foldl_visitRange (xs : List InstId) :
    xs.foldl s.visitRange (none, none) =
      ((xs.filter fun i => i ∈ s.maxLevelInstructions).head?,
        (xs.filter fun i => i ∈ s.maxLevelInstructions).getLast?) := by
  induction xs using List.reverseRecOn with
  | nil => rfl
  | append_singleton xs i ih =>
    rw [List.foldl_append, ih, List.foldl_cons, List.foldl_nil, visitRange, List.filter_append]
    by_cases hi : i ∈ s.maxLevelInstructions
    · rw [if_pos (mem_maxLevelInstructions.mp hi), List.filter_singleton]
      simp only [hi, decide_true, cond_true, List.getLast?_concat, Prod.mk.injEq, and_true]
      cases xs.filter (fun i => i ∈ s.maxLevelInstructions) <;> rfl
    · rw [if_neg (mt mem_maxLevelInstructions.mpr hi), List.filter_singleton]
      simp only [hi, decide_false, cond_false, List.append_nil]

theorem functionRange_eq_some {f : Nat} {first last : InstId}
    (h : s.functionRange M f = some (first, last)) :
    (first ∈ M.funcInsts f ∧ first ∈ s.maxLevelInstructions) ∧
      (last ∈ M.funcInsts f ∧ last ∈ s.maxLevelInstructions) ∧
      ∀ i ∈ M.funcInsts f, i ∈ s.maxLevelInstructions → first.le i ∧ i.le last := by
  rw [functionRange, foldl_visitRange] at h
  -- the ends are the first and the last of the filtered instructions, which stand in order
  generalize hxs : (M.funcInsts f).filter (fun i => i ∈ s.maxLevelInstructions) = xs at h
  have hmem (i : InstId) : i ∈ xs ↔ i ∈ M.funcInsts f ∧ i ∈ s.maxLevelInstructions := by
    rw [← hxs, List.mem_filter, decide_eq_true_iff]
  have hsorted : xs.Pairwise fun i j => ¬ j.le i := hxs ▸ Module.pairwise_funcInsts.filter _
  split at h
  next e l hends =>
    cases h
    obtain ⟨hhead, hlast⟩ := Prod.mk.inj hends
    refine ⟨(hmem _).mp (List.mem_of_head? hhead), (hmem _).mp (List.mem_of_getLast? hlast), ?_⟩
    intro i hi himax
    have hi : i ∈ xs := (hmem i).mpr ⟨hi, himax⟩
    constructor
    · obtain ⟨ys, hys⟩ := List.head?_eq_some_iff.mp hhead
      rw [hys] at hsorted hi
      rcases List.mem_cons.mp hi with rfl | hi
      · exact i.le_refl
      · exact (InstId.le_total _ _).resolve_right ((List.pairwise_cons.mp hsorted).1 i hi)
    · obtain ⟨ys, hys⟩ := List.getLast?_eq_some_iff.mp hlast
      rw [hys] at hsorted hi
      rcases List.mem_append.mp hi with hi | hi
      · exact (InstId.le_total _ _).resolve_right
          ((List.pairwise_append.mp hsorted).2.2 i hi _ List.mem_cons_self)
      · rw [List.mem_singleton.mp hi]
        exact InstId.le_refl _
  next => cases h

theorem functionRange_ne_none {f : Nat} {i : InstId} (hi : i ∈ M.funcInsts f)
    (hmax : i ∈ s.maxLevelInstructions) : s.functionRange M f ≠ none := by
  have hmem : i ∈ (M.funcInsts f).filter fun i => i ∈ s.maxLevelInstructions :=
    List.mem_filter.mpr ⟨hi, decide_eq_true hmax⟩
  rw [functionRange, foldl_visitRange]
  cases hxs : (M.funcInsts f).filter (fun i => i ∈ s.maxLevelInstructions) with
  | nil =>
    rw [hxs] at hmem
    cases hmem
  | cons x xs =>
    rw [List.head?_cons, List.getLast?_cons]
    exact Option.some_ne_none _

theorem lookup_maxLevelFunctionRanges (f : Nat) :
    (s.maxLevelFunctionRanges M).lookup f =
      if f ∈ s.visitedDefinitions M ∧ f ∈ s.maxLevelCountPerFunction then s.functionRange M f
      else none := by
  refine foldl_prefix (I := fun done (m : DenseMap Nat (InstId × InstId)) => ∀ f, m.lookup f =
    if f ∈ done ∧ f ∈ s.maxLevelCountPerFunction then s.functionRange M f else none)
    (s.visitedDefinitions M) (fun f => ?_) (fun done g rest _ m hm f => ?_) f
  · rw [if_neg (fun h => List.not_mem_nil h.1)]
    rfl
  · simp only [List.mem_append, List.mem_singleton]
    by_cases hfg : f = g
    · subst hfg
      by_cases hcount : f ∈ s.maxLevelCountPerFunction
      · rw [if_pos hcount, if_pos ⟨.inr rfl, hcount⟩]
        cases hr : s.functionRange M f with
        | some r => exact AList.lookup_insert m
        | none =>
          show m.lookup f = none
          rw [hm, hr, ite_self]
      · rw [if_neg hcount, if_neg fun h => hcount h.2, hm, if_neg fun h => hcount h.2]
    · have hlookup : ∀ r, (AList.insert g r m).lookup f = m.lookup f :=
        fun r => AList.lookup_insert_ne hfg
      simp only [hfg, or_false, ← hm]
      split
      · split
        · exact hlookup _
        · rfl
      · rfl

/-- The scan of each visited function finds what the scan of the module finds. -/
theorem rangesOver_maxLevelFunctionRanges :
    RangesOver s.maxLevelInstructions M.insts (s.maxLevelFunctionRanges M) := by
  constructor
  · intro f e l h
    rw [lookup_maxLevelFunctionRanges] at h
    split at h
    · obtain ⟨⟨he, hem⟩, ⟨hl, hlm⟩, _⟩ := functionRange_eq_some h
      obtain ⟨he, hef⟩ := Module.mem_funcInsts.mp he
      obtain ⟨hl, hlf⟩ := Module.mem_funcInsts.mp hl
      exact ⟨⟨he, hem, hef⟩, hl, hlm, hlf⟩
    · cases h
  · intro i hi hmax
    have hfunc : i ∈ M.funcInsts i.func := Module.mem_funcInsts.mpr ⟨hi, rfl⟩
    rw [lookup_maxLevelFunctionRanges, if_pos ⟨func_mem_visitedDefinitions hi hmax,
      func_mem_maxLevelCountPerFunction hmax⟩]
    cases hr : s.functionRange M i.func with
    | none => exact absurd hr (functionRange_ne_none hfunc hmax)
    | some r => exact ⟨r.1, r.2, rfl, (functionRange_eq_some hr).2.2 i hfunc hmax⟩

theorem RangesOver.lookup_of_lookup {maxI done : List InstId}
    {m m' : DenseMap Nat (InstId × InstId)} (h : RangesOver maxI done m)
    (h' : RangesOver maxI done m') {f : Nat} {first last : InstId}
    (hr : m.lookup f = some (first, last)) : m'.lookup f = some (first, last) := by
  obtain ⟨⟨he, hem, hef⟩, hl, hlm, hlf⟩ := h.ends f first last hr
  obtain ⟨e, l, hr', hle, _⟩ := h'.covers first he hem
  rw [hef] at hr'
  obtain ⟨⟨he', hem', hef'⟩, hl', hlm', hlf'⟩ := h'.ends f e l hr'
  -- each end is covered by the other range
  have hfirst : first.le e := by
    obtain ⟨e₁, l₁, hr₁, hle₁, _⟩ := h.covers e he' hem'
    rw [hef', hr] at hr₁
    cases hr₁
    exact hle₁
  have hlast : l.le last := by
    obtain ⟨e₁, l₁, hr₁, _, hle₁⟩ := h.covers l hl' hlm'
    rw [hlf', hr] at hr₁
    cases hr₁
    exact hle₁
  have hlast' : last.le l := by
    obtain ⟨e₁, l₁, hr₁, _, hle₁⟩ := h'.covers last hl hlm
    rw [hlf, hr'] at hr₁
    cases hr₁
    exact hle₁
  rw [hr', InstId.le_antisymm (hef'.trans hef.symm) hle hfirst,
    InstId.le_antisymm (hlf'.trans hlf.symm) hlast hlast']

/-- There is one answer. -/
theorem RangesOver.lookup_eq {maxI done : List InstId} {m m' : DenseMap Nat (InstId × InstId)}
    (h : RangesOver maxI done m) (h' : RangesOver maxI done m') (f : Nat) :
    m.lookup f = m'.lookup f :=
  Option.ext fun _ => ⟨h.lookup_of_lookup h', h'.lookup_of_lookup h⟩

theorem lookup_earliestLatestPerFunction (f : Nat) :
    (s.earliestLatestPerFunction M).lookup f = (s.maxLevelFunctionRanges M).lookup f :=
  rangesOver_earliestLatestPerFunction.lookup_eq rangesOver_maxLevelFunctionRanges f

/-! ## The counts -/

theorem mem_ranges_mem_visited {f : Nat} (hf : f ∈ s.maxLevelFunctionRanges M) :
    f ∈ s.visitedDefinitions M := by
  by_contra hno
  have hsome := AList.lookup_isSome.mpr hf
  rw [lookup_maxLevelFunctionRanges, if_neg fun h => hno h.1] at hsome
  cases hsome

theorem size_maxLevelFunctionRanges_le :
    (s.maxLevelFunctionRanges M).entries.length ≤ s.allVisitedFunctions.size := by
  rw [← List.length_map (f := Sigma.fst)]
  apply List.Subperm.length_le
  apply List.subperm_of_subset (s.maxLevelFunctionRanges M).nodupKeys
  intro f hf
  have hvisited := List.mem_filter.mp (mem_ranges_mem_visited (AList.mem_keys.mpr hf))
  exact of_decide_eq_true (Bool.and_eq_true_iff.mp hvisited.2).2

theorem reportedRanges_perm (hprinted : s.maxLevel > intMin ∧ s.maxLevelInstructions ≠ []) :
    (s.reportedRanges M).Perm ((s.maxLevelFunctionRanges M).entries.map fun e => (e.1, e.2)) := by
  rw [reportedRanges, if_pos hprinted]
  apply (List.perm_insertionSort _ _).trans
  exact (DenseMap.perm_entries lookup_earliestLatestPerFunction).map _

theorem spanLines_perm :
    (s.spanLines M).Perm ((s.maxLevelFunctionRanges M).entries.map fun e =>
      (M.functionName e.1, SpanIndices.ofRange e.2.1 e.2.2)) := by
  have hkeys := List.perm_insertionSort (fun f g => M.functionName f ≤ M.functionName g)
    ((s.maxLevelFunctionRanges M).entries.map Sigma.fst)
  apply (hkeys.filterMap _).trans
  rw [List.filterMap_map]
  apply List.Perm.of_eq
  rw [← List.filterMap_eq_map]
  apply List.filterMap_congr
  rintro ⟨f, first, last⟩ hmem
  have hlookup := DenseMap.mem_entries_iff.mp hmem
  have hrange := hlookup
  rw [lookup_maxLevelFunctionRanges] at hrange
  split at hrange
  · obtain ⟨⟨hfirst, _⟩, ⟨hlast, _⟩, _⟩ := functionRange_eq_some hrange
    simp only [Function.comp, hlookup, Option.map_some,
      SpanIndices.spanIndices_funcBlocks hfirst hlast]
  · cases hrange

/-- A visited function adds its range, or nothing. -/
theorem instructionCounts_spec :
    (s.instructionCounts M).1 = ((s.maxLevelFunctionRanges M).entries.map fun e =>
      (M.instsBetween e.1 e.2.1 e.2.2).length).sum := by
  let entry (f : Nat) : Option (Σ _ : Nat, InstId × InstId) :=
    ((s.maxLevelFunctionRanges M).lookup f).map fun r => ⟨f, r⟩
  have hnodup : (s.visitedDefinitions M).Nodup := List.nodup_range.filter _
  have hperm : ((s.visitedDefinitions M).filterMap entry).Perm
      (s.maxLevelFunctionRanges M).entries :=
    DenseMap.perm_filterMap_lookup hnodup fun f hf => mem_ranges_mem_visited hf
  rw [← (hperm.map _).sum_eq]
  refine foldl_prefix (I := fun done (n : Nat × Nat) => n.1 = ((done.filterMap entry).map
    fun e => (M.instsBetween e.1 e.2.1 e.2.2).length).sum) (s.visitedDefinitions M) rfl ?_
  intro done f rest _ n hn
  rw [List.filterMap_append, List.map_append, List.sum_append, ← hn]
  split
  next first last hr =>
    have hrange := hr
    rw [lookup_maxLevelFunctionRanges] at hrange
    split at hrange
    · obtain ⟨⟨hfirst, hfmax⟩, ⟨hlast, _⟩, hends⟩ := functionRange_eq_some hrange
      rw [countRange_funcBlocks hfirst hlast (hends first hfirst hfmax).2]
      simp [entry, hr]
    · cases hrange
  next hr => simp [entry, hr]

end PassState

end LinuxAnalysis
