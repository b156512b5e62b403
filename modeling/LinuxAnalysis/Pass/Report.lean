import LinuxAnalysis.Pass.Upward

/-!
# The largest level and its earliest and latest instructions

The statistics computed from the final state, up to the per-function pairs of the report.
-/

open LinuxAnalysis.Lib

namespace LinuxAnalysis

namespace InstId

/-- Block-then-instruction order inside a function. -/
def le (i j : InstId) : Prop := i.block < j.block ∨ i.block = j.block ∧ i.idx ≤ j.idx

instance (i j : InstId) : Decidable (i.le j) :=
  inferInstanceAs (Decidable (_ ∨ _))

theorem le_refl (i : InstId) : i.le i := .inr ⟨rfl, Nat.le_refl _⟩

end InstId

/-- `for BB in F, for I in BB` visits the instructions of a function in order. -/
theorem Module.pairwise_insts (M : Module) :
    M.insts.Pairwise fun i j => i.func = j.func → i.le j := by
  refine List.pairwise_flatMap.mpr ⟨fun f _ => ?_, ?_⟩
  · refine List.pairwise_flatMap.mpr ⟨fun b _ => ?_, ?_⟩
    · refine List.pairwise_map.mpr (List.pairwise_lt_range.imp ?_)
      intro n n' hn _
      exact .inr ⟨rfl, Nat.le_of_lt hn⟩
    · refine List.pairwise_lt_range.imp ?_
      intro b b' hb i hi j hj _
      rw [mem_blockInstIds] at hi hj
      exact .inl (by rw [hi.2.1, hj.2.1]; exact hb)
  · refine List.pairwise_lt_range.imp ?_
    intro f f' hf i hi j hj hij
    simp only [funcInstIds, List.mem_flatMap, mem_blockInstIds] at hi hj
    obtain ⟨_, _, hi, _⟩ := hi
    obtain ⟨_, _, hj, _⟩ := hj
    omega

/-- `INT_MIN` -/
def intMin : Int := -2 ^ 31

namespace PassState

variable (M : Module) (s : PassState)

/-- The entries of `ValueLevel` that belong to tainted values. -/
def taintedLevels : List (Σ _ : Value, Int) :=
  s.valueLevel.entries.filter fun e => e.1 ∈ s.taintedValues

def maxLevel : Int := s.taintedLevels.foldl (fun m e => if e.2 > m then e.2 else m) intMin

def maxLevelValues : List Value :=
  (s.taintedLevels.filter fun e => e.2 == s.maxLevel).map Sigma.fst

def maxLevelInstructions : List InstId :=
  s.maxLevelValues.filterMap fun
    | .inst i => some i
    | _ => none

def maxLevelArguments : List ArgId :=
  s.maxLevelValues.filterMap fun
    | .arg a => some a
    | _ => none

/-- One match of the scan that finds the first and last instruction of each function. -/
def recordEarliestLatest (m : DenseMap Nat (InstId × InstId)) (i : InstId) :
    DenseMap Nat (InstId × InstId) :=
  match m.lookup i.func with
  | none => m.insert i.func (i, i)
  | some (earliest, _) => m.insert i.func (earliest, i)

def earliestLatestPerFunction : DenseMap Nat (InstId × InstId) :=
  M.insts.foldl (fun m i => s.maxLevelInstructions.foldl
    (fun m maxI => if i = maxI then recordEarliestLatest m i else m) m) ∅

/-- The functions the report lists, in name order, with their pair; none are listed when no
instruction has the largest level. -/
def reportedRanges : List (Nat × InstId × InstId) :=
  if s.maxLevel > intMin ∧ s.maxLevelInstructions ≠ [] then
    ((s.earliestLatestPerFunction M).entries.map fun e => (e.1, e.2)).insertionSort
      fun a b => M.functionName a.1 ≤ M.functionName b.1
  else []

variable {M s}

theorem mem_maxLevelValues {v : Value} : v ∈ s.maxLevelValues ↔
    v ∈ s.taintedValues ∧ s.valueLevel.lookup v = some s.maxLevel := by
  simp only [maxLevelValues, taintedLevels, List.mem_map, List.mem_filter, decide_eq_true_eq,
    beq_iff_eq, ← DenseMap.mem_entries_iff]
  constructor
  · rintro ⟨⟨w, l⟩, ⟨⟨he, hw⟩, hl⟩, hwv⟩
    cases hwv
    cases hl
    exact ⟨hw, he⟩
  · rintro ⟨hv, he⟩
    exact ⟨⟨v, s.maxLevel⟩, ⟨⟨he, hv⟩, rfl⟩, rfl⟩

theorem mem_maxLevelInstructions {i : InstId} :
    i ∈ s.maxLevelInstructions ↔
      .inst i ∈ s.taintedValues ∧ s.valueLevel.lookup (.inst i) = some s.maxLevel := by
  rw [← mem_maxLevelValues, maxLevelInstructions, List.mem_filterMap]
  constructor
  · rintro ⟨v, hv, hi⟩
    split at hi
    next j => cases hi; exact hv
    next => cases hi
  · exact fun h => ⟨.inst i, h, rfl⟩

theorem le_maxLevel {v : Value} {level : Int} (hv : v ∈ s.taintedValues)
    (hl : s.valueLevel.lookup v = some level) : level ≤ s.maxLevel := by
  have hvisit := foldl_visits (f := fun (m : Int) (e : Σ _ : Value, Int) => if e.2 > m then e.2 else m)
    (P := fun e m => e.2 ≤ m) s.taintedLevels
    (fun m e _ => by split <;> omega)
    (fun m e _ e' h => by split <;> omega) intMin
  refine hvisit ⟨v, level⟩ (List.mem_filter.mpr ⟨DenseMap.mem_entries_iff.mpr hl, ?_⟩)
  exact decide_eq_true hv

theorem lookup_recordEarliestLatest (m : DenseMap Nat (InstId × InstId)) (i : InstId) (f : Nat) :
    (recordEarliestLatest m i).lookup f =
      if f = i.func then some (((m.lookup i.func).map Prod.fst).getD i, i) else m.lookup f := by
  unfold recordEarliestLatest
  split
  next h => rw [DenseMap.lookup_insert_ite, h]; rfl
  next h => rw [DenseMap.lookup_insert_ite, h]; rfl

/-- The innermost loop records its instruction when that is in the list, however often. -/
theorem lookup_foldl_recordEarliestLatest (maxI : List InstId) (i : InstId) (f : Nat)
    (m : DenseMap Nat (InstId × InstId)) :
    (maxI.foldl (fun m j => if i = j then recordEarliestLatest m i else m) m).lookup f =
      (if i ∈ maxI then recordEarliestLatest m i else m).lookup f := by
  induction maxI generalizing m with
  | nil => rfl
  | cons j js ih =>
    rw [List.foldl_cons, ih]
    by_cases hij : i = j
    · subst hij
      rw [if_pos rfl, if_pos List.mem_cons_self]
      split
      · rw [lookup_recordEarliestLatest, lookup_recordEarliestLatest, lookup_recordEarliestLatest]
        rw [if_pos rfl]
        split <;> rfl
      · rfl
    · simp [hij]

/-- What the scan has found once the instructions of `done` are visited: for each function with a
largest-level instruction among them, the first and the last one. -/
structure RangesOver (maxI done : List InstId) (m : DenseMap Nat (InstId × InstId)) : Prop where
  ends : ∀ f e l, m.lookup f = some (e, l) →
    (e ∈ done ∧ e ∈ maxI ∧ e.func = f) ∧ l ∈ done ∧ l ∈ maxI ∧ l.func = f
  covers : ∀ i ∈ done, i ∈ maxI → ∃ e l, m.lookup i.func = some (e, l) ∧ e.le i ∧ i.le l

theorem RangesOver.visit {maxI done : List InstId} {m m' : DenseMap Nat (InstId × InstId)}
    {i : InstId} (h : RangesOver maxI done m)
    (hlast : ∀ j ∈ done, j.func = i.func → j.le i)
    (hm' : ∀ f, m'.lookup f = (if i ∈ maxI then recordEarliestLatest m i else m).lookup f) :
    RangesOver maxI (done ++ [i]) m' := by
  by_cases hi : i ∈ maxI
  -- an instruction below the highest level changes no range
  case neg =>
    simp only [hi, if_false] at hm'
    constructor
    · intro f e l hel
      rw [hm'] at hel
      obtain ⟨⟨he, hem, hef⟩, hl, hlm, hlf⟩ := h.ends f e l hel
      exact ⟨⟨List.mem_append_left _ he, hem, hef⟩, List.mem_append_left _ hl, hlm, hlf⟩
    · intro j hj hjm
      rw [List.mem_append, List.mem_singleton] at hj
      rcases hj with hj | rfl
      · rw [hm']
        exact h.covers j hj hjm
      · exact absurd hjm hi
  case pos =>
    simp only [hi, if_true, lookup_recordEarliestLatest] at hm'
    have hidone : i ∈ done ++ [i] := List.mem_append_right _ List.mem_cons_self
    constructor
    · intro f e l hel
      rw [hm'] at hel
      by_cases hf : f = i.func
      · simp only [hf, if_true, Option.some.injEq, Prod.mk.injEq] at hel
        -- the latest end moves to this instruction, the earliest stays if there is one
        obtain ⟨he, rfl⟩ := hel
        refine ⟨?_, hidone, hi, hf.symm⟩
        cases hprev : m.lookup i.func with
        | none =>
          rw [hprev] at he
          exact he ▸ ⟨hidone, hi, hf.symm⟩
        | some r =>
          rw [hprev] at he
          obtain ⟨⟨h₁, h₂, h₃⟩, _⟩ := h.ends i.func r.1 r.2 hprev
          exact he ▸ ⟨List.mem_append_left _ h₁, h₂, h₃.trans hf.symm⟩
      · rw [if_neg hf] at hel
        obtain ⟨⟨he, hem, hef⟩, hl, hlm, hlf⟩ := h.ends f e l hel
        exact ⟨⟨List.mem_append_left _ he, hem, hef⟩, List.mem_append_left _ hl, hlm, hlf⟩
    · intro j hj hjm
      rw [hm']
      rw [List.mem_append, List.mem_singleton] at hj
      by_cases hf : j.func = i.func
      · rw [if_pos hf]
        -- the block order makes this instruction the last one of its function so far
        refine ⟨_, _, rfl, ?_, ?_⟩
        · rcases hj with hj | rfl
          · obtain ⟨e, l, hel, hej, _⟩ := h.covers j hj hjm
            rw [hf] at hel
            rw [hel]
            exact hej
          · cases hprev : m.lookup j.func with
            | none => exact j.le_refl
            | some r =>
              obtain ⟨⟨h₁, _, h₃⟩, _⟩ := h.ends j.func r.1 r.2 hprev
              exact hlast r.1 h₁ h₃
        · rcases hj with hj | rfl
          · exact hlast j hj hf
          · exact j.le_refl
      · rw [if_neg hf]
        rcases hj with hj | rfl
        · exact h.covers j hj hjm
        · exact absurd rfl hf

theorem rangesOver_earliestLatestPerFunction :
    RangesOver s.maxLevelInstructions M.insts (s.earliestLatestPerFunction M) := by
  refine foldl_prefix (I := RangesOver s.maxLevelInstructions) M.insts ?_ ?_
  · exact ⟨fun f e l h => by simp at h, fun i hi => absurd hi List.not_mem_nil⟩
  · intro p i q hpq m hm
    refine hm.visit (fun j hj hf => ?_) fun f => lookup_foldl_recordEarliestLatest _ i f m
    have hsorted := Module.pairwise_insts M
    rw [hpq] at hsorted
    exact (List.pairwise_append.mp hsorted).2.2 j hj i List.mem_cons_self hf

theorem mem_reportedRanges {f : Nat} {e l : InstId} (h : (f, e, l) ∈ s.reportedRanges M) :
    (s.earliestLatestPerFunction M).lookup f = some (e, l) := by
  unfold reportedRanges at h
  split at h
  · rw [(List.perm_insertionSort _ _).mem_iff, List.mem_map] at h
    obtain ⟨⟨g, r⟩, hg, hgr⟩ := h
    cases hgr
    exact DenseMap.mem_entries_iff.mp hg
  · cases h

end PassState

end LinuxAnalysis
