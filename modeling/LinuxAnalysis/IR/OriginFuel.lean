import LinuxAnalysis.IR.Origin
import LinuxAnalysis.Lib.Fuel

/-!
# The search for a pointer's parameter terminates

The same search with exhaustion visible: `none` when some nested call has no fuel left.  A nested call
is about an operand or a cast-stripped operand of the module, and a call on a value not visited yet
takes that value from what its own nested calls may still visit.
-/

open LinuxAnalysis.Lib

namespace LinuxAnalysis.Module

variable (M : Module)

/-- What one call does, given what it does with its nested calls. -/
def originCall (nested : Value → DenseSet Value → Option (Option ArgId × DenseSet Value)) (v : Value)
    (visited : DenseSet Value) : Option (Option ArgId × DenseSet Value) :=
  if v ∈ visited then some (none, visited) else
  let visited := visited.insert v
  match M.stripPointerCasts v with
  | .arg a => some (if M.argIsPointerTy a then some a else none, visited)
  | .inst i =>
    match M.kind i with
    | .phi incoming =>
      incoming.foldlM (fun (acc : Option ArgId × DenseSet Value) inc =>
        (nested inc acc.2).map fun r => (acc.1.or r.1, r.2)) (none, visited)
    | .getElementPtr _ ptr _ => nested ptr visited
    | .load ptr =>
      let loadPtr := M.stripPointerCasts ptr
      if M.isAlloca loadPtr then
        (M.users loadPtr).foldlM (fun (acc : Option ArgId × DenseSet Value) u =>
          match acc.1, M.kind u with
          | none, .store value _ =>
            match M.stripPointerCasts value with
            | .arg a => if M.argIsPointerTy a then some (some a, acc.2) else nested (.arg a) acc.2
            | stored => nested stored acc.2
          | _, _ => some acc) (none, visited)
      else nested loadPtr visited
    | _ => some (none, visited)
  | _ => some (none, visited)

def getPointerParameterOrigin? :
    Nat → Value → DenseSet Value → Option (Option ArgId × DenseSet Value)
  | 0, _, _ => none
  | n + 1, v, visited => M.originCall (getPointerParameterOrigin? n) v visited

/-- The operands of the module and their stripped forms. -/
def pointable : Finset Value :=
  (M.insts.flatMap fun i => (M.operands i).flatMap fun v => [v, M.stripPointerCasts v]).toFinset

variable {M}

theorem mem_pointable {w : Value} :
    w ∈ M.pointable ↔ ∃ i ∈ M.insts, ∃ v ∈ M.operands i, w = v ∨ w = M.stripPointerCasts v := by
  simp only [pointable, List.mem_toFinset, List.mem_flatMap, List.mem_cons, List.not_mem_nil,
    or_false]

/-- Positions outside the module hold no operands. -/
theorem mem_insts_of_mem_operands {i : InstId} {v : Value} (h : v ∈ M.operands i) : i ∈ M.insts := by
  rw [mem_insts]
  by_contra hout
  rw [operands, kind, inst, instAt, List.getElem?_eq_none (by omega)] at h
  exact List.not_mem_nil h

theorem operand_mem_pointable {i : InstId} {v : Value} (h : v ∈ M.operands i) :
    v ∈ M.pointable ∧ M.stripPointerCasts v ∈ M.pointable := by
  have hi := mem_insts_of_mem_operands h
  exact ⟨mem_pointable.mpr ⟨i, hi, v, h, .inl rfl⟩, mem_pointable.mpr ⟨i, hi, v, h, .inr rfl⟩⟩

theorem card_pointable_lt : M.pointable.card + 2 ≤ M.originFuel := by
  have hpairs (xs : List Value) :
      (xs.flatMap fun v => [v, M.stripPointerCasts v]).length = 2 * xs.length := by
    induction xs with
    | nil => rfl
    | cons x xs ih =>
      rw [List.flatMap_cons, List.length_append, ih, List.length_cons, List.length_cons,
        List.length_cons, List.length_nil]
      omega
  have hlen (is : List InstId) :
      (is.flatMap fun i => (M.operands i).flatMap fun v => [v, M.stripPointerCasts v]).length =
        2 * (is.map fun i => (M.operands i).length).sum := by
    induction is with
    | nil => rfl
    | cons i is ih =>
      rw [List.flatMap_cons, List.length_append, ih, hpairs, List.map_cons, List.sum_cons]
      omega
  have hcard := List.toFinset_card_le
    (M.insts.flatMap fun i => (M.operands i).flatMap fun v => [v, M.stripPointerCasts v])
  rw [hlen] at hcard
  rw [originFuel]
  unfold pointable
  omega

/-! ## Nested calls -/

/-- A property of the results of nested calls holds of the call as soon as it holds of the results
found without one and is kept by the two folds. -/
theorem originCall_spec {nested : Value → DenseSet Value → Option (Option ArgId × DenseSet Value)}
    {visited : DenseSet Value} {v : Value} {Q : DenseSet Value → Prop} (hv : v ∉ visited)
    (hstart : Q (visited.insert v))
    (hnested : ∀ w seen, w ∈ M.pointable → Q seen → ∃ r, nested w seen = some r ∧ Q r.2) :
    ∃ r, M.originCall nested v visited = some r ∧ Q r.2 := by
  unfold originCall
  rw [if_neg hv]
  dsimp only
  split
  next a _ => exact ⟨_, rfl, hstart⟩
  next i _ =>
    have hop (w : Value) (hw : w ∈ M.operands i) := operand_mem_pointable hw
    split
    next incoming hkind =>
      refine foldlM_returns (I := fun acc : Option ArgId × DenseSet Value => Q acc.2)
        (fun acc inc hinc hacc => ?_) hstart
      obtain ⟨r, hr, hQ⟩ := hnested inc acc.2 (hop inc (by rwa [operands, hkind])).1 hacc
      exact ⟨(acc.1.or r.1, r.2), by rw [hr]; rfl, hQ⟩
    next ptr _ hkind =>
      exact hnested ptr _ (hop ptr (by rw [operands, hkind]; exact List.mem_cons_self)).1 hstart
    next ptr hkind =>
      have hload := (hop ptr (by rw [operands, hkind]; exact List.mem_cons_self)).2
      split
      next =>
        -- the stores to the variable, each looked at unless an earlier one gave a parameter
        refine foldlM_returns (I := fun acc : Option ArgId × DenseSet Value => Q acc.2)
          (fun acc u _ hacc => ?_) hstart
        split
        next value q _ hstore =>
          have hstored : M.stripPointerCasts value ∈ M.pointable :=
            (operand_mem_pointable (i := u)
              (by rw [operands, hstore]; exact List.mem_cons_self)).2
          split
          next a harg =>
            split
            next => exact ⟨_, rfl, hacc⟩
            next => exact hnested _ _ (harg ▸ hstored) hacc
          next => exact hnested _ _ hstored hacc
        next => exact ⟨acc, rfl, hacc⟩
      next => exact hnested _ _ hload hstart
    next => exact ⟨_, rfl, hstart⟩
  next => exact ⟨_, rfl, hstart⟩

/-- The fuel that a call needs: what is left to visit, and one more. -/
theorem getPointerParameterOrigin?_isSome {n : Nat} {v : Value} {visited : DenseSet Value}
    (hv : v ∈ M.pointable) (hn : room M.pointable (· ∈ visited) < n) :
    ∃ r, M.getPointerParameterOrigin? n v visited = some r ∧ visited ⊆ r.2 := by
  induction n generalizing v visited with
  | zero => omega
  | succ n ih =>
    by_cases hseen : v ∈ visited
    · refine ⟨(none, visited), ?_, DenseSet.Subset.refl _⟩
      rw [getPointerParameterOrigin?, originCall, if_pos hseen]
    · have hless : room M.pointable (· ∈ visited.insert v) < room M.pointable (· ∈ visited) :=
        room_lt (fun a ha => DenseSet.mem_insert.mpr (.inr ha)) hv hseen
          (DenseSet.mem_insert.mpr (.inl rfl))
      have hnested (w : Value) (seen : DenseSet Value) (hw : w ∈ M.pointable)
          (hsub : visited.insert v ⊆ seen) :
          ∃ r, M.getPointerParameterOrigin? n w seen = some r ∧ visited.insert v ⊆ r.2 := by
        have hroom : room M.pointable (· ∈ seen) ≤ room M.pointable (· ∈ visited.insert v) :=
          room_le fun a ha => hsub a ha
        obtain ⟨r, hr, hgrow⟩ := ih hw (by omega : room M.pointable (· ∈ seen) < n)
        exact ⟨r, hr, DenseSet.Subset.trans hsub hgrow⟩
      obtain ⟨r, hr, hsub⟩ := originCall_spec (Q := fun seen => visited.insert v ⊆ seen) hseen
        (DenseSet.Subset.refl _) hnested
      exact ⟨r, hr, DenseSet.Subset.trans (DenseSet.subset_insert _ _) hsub⟩

/-! ## Against the search of the model -/

/-- Results of nested calls that are carried over by a relation between two ways of making them. -/
theorem originCall_mono {nested nested' : Value → DenseSet Value →
      Option (Option ArgId × DenseSet Value)}
    (h : ∀ w seen r, nested w seen = some r → nested' w seen = some r) {v : Value}
    {visited : DenseSet Value} {r : Option ArgId × DenseSet Value}
    (hr : M.originCall nested v visited = some r) : M.originCall nested' v visited = some r := by
  unfold originCall at hr ⊢
  split at hr
  next hv => rw [if_pos hv]; exact hr
  next hv =>
    rw [if_neg hv]
    dsimp only at hr ⊢
    split at hr
    next a ha => exact hr
    next i hi =>
      split at hr
      -- both sides run the same fold, so only the nested search of each incoming value differs
      next incoming hkind =>
        refine foldlM_mono (fun acc inc r hacc => ?_) hr
        obtain ⟨r', hr', rfl⟩ := Option.map_eq_some_iff.mp hacc
        rw [h _ _ _ hr']
        rfl
      next ptr indices hkind => exact h _ _ _ hr
      next ptr hkind =>
        split at hr
        -- a local slot: the search asks every value stored into it
        next halloca =>
          rw [if_pos halloca]
          refine foldlM_mono (fun acc u r hacc => ?_) hr
          split at hacc
          next value q hnone hstore =>
            split at hacc
            next a harg =>
              split at hacc
              next hptr => rw [if_pos hptr]; exact hacc
              next hptr => rw [if_neg hptr]; exact h _ _ _ hacc
            next => exact h _ _ _ hacc
          next => exact hacc
        next halloca =>
          rw [if_neg halloca]
          exact h _ _ _ hr
      next => exact hr
    next => exact hr

/-- With nested calls that never run out, a call is one turn of the search of the model. -/
theorem originCall_total (n : Nat) (v : Value) (visited : DenseSet Value) :
    M.originCall (fun w seen => some (M.getPointerParameterOriginAux n w seen)) v visited =
      some (M.getPointerParameterOriginAux (n + 1) v visited) := by
  rw [originCall, getPointerParameterOriginAux]
  split
  next => rfl
  next =>
    dsimp only
    cases M.stripPointerCasts v with
    | inst i =>
      dsimp only
      -- one case per pointer the source looks through: phi, load, and the rest by `rfl`
      cases M.kind i with
      | phi incoming => exact foldlM_total (fun _ _ => rfl) _ _
      | load ptr =>
        dsimp only
        split
        next =>
          refine foldlM_total (fun acc u => ?_) _ _
          obtain ⟨found, seen⟩ := acc
          -- once a parameter is found the later stores are skipped
          cases found with
          | some a => rfl
          | none =>
            cases M.kind u with
            | store value q =>
              dsimp only
              cases M.stripPointerCasts value with
              | arg a =>
                dsimp only
                split <;> rfl
              | _ => rfl
            | _ => rfl
        next => rfl
      | _ => rfl
    | _ => rfl

theorem getPointerParameterOrigin?_eq {n : Nat} {v : Value} {visited : DenseSet Value}
    {r : Option ArgId × DenseSet Value} (h : M.getPointerParameterOrigin? n v visited = some r) :
    M.getPointerParameterOriginAux n v visited = r := by
  induction n generalizing v visited r with
  | zero => cases h
  | succ n ih =>
    have htotal := originCall_mono (fun w seen r hr => congrArg some (ih hr)) h
    rw [originCall_total] at htotal
    exact Option.some.inj htotal

theorem getPointerParameterOrigin?_mono {n m : Nat} (hnm : n ≤ m) {v : Value}
    {visited : DenseSet Value} {r : Option ArgId × DenseSet Value}
    (h : M.getPointerParameterOrigin? n v visited = some r) :
    M.getPointerParameterOrigin? m v visited = some r := by
  induction n generalizing m v visited r with
  | zero => cases h
  | succ n ih =>
    obtain ⟨m, rfl⟩ : ∃ k, m = k + 1 := ⟨m - 1, by omega⟩
    exact originCall_mono (fun w seen r hr => ih (by omega) hr) h

/-- **Termination of the search.**  For every value and every set of values already visited the nested
calls come to an end, and the fuel of the model is enough for the calls the pass makes. -/
theorem getPointerParameterOrigin?_returns (v : Value) (visited : DenseSet Value) :
    ∃ r, Returns (fun n => M.getPointerParameterOrigin? n v visited) r ∧
      M.getPointerParameterOriginAux M.originFuel v visited = r := by
  have hroom (seen : DenseSet Value) : room M.pointable (· ∈ seen) ≤ M.pointable.card :=
    Finset.card_filter_le _ _
  have hfuel := card_pointable_lt (M := M)
  obtain ⟨r, hr⟩ : ∃ r, M.getPointerParameterOrigin? M.originFuel v visited = some r := by
    obtain ⟨n, hn⟩ : ∃ n, M.originFuel = n + 1 := ⟨M.originFuel - 1, by omega⟩
    rw [hn]
    by_cases hseen : v ∈ visited
    · exact ⟨(none, visited), by rw [getPointerParameterOrigin?, originCall, if_pos hseen]⟩
    · -- the first value need not be an operand of the module
      obtain ⟨r, hr, _⟩ := originCall_spec (M := M) (Q := fun _ => True) hseen trivial
        (fun w seen hw _ => by
          have hlt : room M.pointable (· ∈ seen) < n := by
            have hle := hroom seen
            omega
          obtain ⟨r, hr, _⟩ := getPointerParameterOrigin?_isSome hw hlt
          exact ⟨r, hr, trivial⟩)
      exact ⟨r, hr⟩
  exact ⟨r, ⟨M.originFuel, fun m hm => getPointerParameterOrigin?_mono hm hr⟩,
    getPointerParameterOrigin?_eq hr⟩

end LinuxAnalysis.Module
