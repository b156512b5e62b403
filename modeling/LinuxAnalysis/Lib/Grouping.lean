import LinuxAnalysis.Lib.Dict
import Mathlib.Data.List.Induction
import Mathlib.Data.List.Sort
import Mathlib.Order.Basic

/-!
# Grouping in order of appearance

A scan that files each element under its key in a dictionary, the choice of the first of the largest
groups, and the search of a list that was sorted stably.  Ties are decided by the order in which the
keys first appear.
-/

namespace LinuxAnalysis.Lib

namespace Dict

variable {α β κ : Type}

/-! ## The first element of greatest weight -/

/-- Once an element is chosen, one is chosen to the end. -/
theorem foldl_heavier_ne_none (weight : κ → Nat) (xs : List κ) (b : κ) :
    xs.foldl (heavier weight) (some b) ≠ none := by
  induction xs generalizing b with
  | nil => exact Option.some_ne_none b
  | cons x xs ih =>
    rw [List.foldl_cons, heavier]
    split
    · exact ih x
    · exact ih b

theorem firstMax_eq_none {weight : κ → Nat} {xs : List κ} (h : firstMax weight xs = none) : xs = [] := by
  cases xs with
  | nil => rfl
  | cons x xs => exact absurd h (foldl_heavier_ne_none weight xs x)

/-- `max(xs, key=weight)` is the first of the elements of greatest weight. -/
theorem firstMax_eq_some {weight : κ → Nat} {xs : List κ} {x : κ} (h : firstMax weight xs = some x) :
    ∃ pre post, xs = pre ++ x :: post ∧ (∀ y ∈ pre, weight y < weight x) ∧
      ∀ y ∈ post, weight y ≤ weight x := by
  induction xs using List.reverseRecOn generalizing x with
  | nil => cases h
  | append_singleton xs last ih =>
    rw [firstMax, List.foldl_append, List.foldl_cons, List.foldl_nil, ← firstMax] at h
    cases hbest : firstMax weight xs with
    | none =>
      have hnil : xs = [] := firstMax_eq_none hbest
      rw [hbest] at h
      obtain rfl : last = x := Option.some.inj h
      rw [hnil]
      exact ⟨[], [], rfl, fun y hy => absurd hy List.not_mem_nil, fun y hy => absurd hy List.not_mem_nil⟩
    | some b =>
      obtain ⟨pre, post, rfl, hpre, hpost⟩ := ih hbest
      rw [hbest, heavier] at h
      split at h
      -- the last element wins: everything before it is lighter
      next hlt =>
        obtain rfl : last = x := Option.some.inj h
        refine ⟨pre ++ b :: post, [], rfl, fun y hy => ?_, fun y hy => absurd hy List.not_mem_nil⟩
        rcases List.mem_append.mp hy with hy | hy
        · exact lt_trans (hpre y hy) hlt
        · rcases List.mem_cons.mp hy with rfl | hy
          · exact hlt
          · exact lt_of_le_of_lt (hpost y hy) hlt
      -- the old maximum stays, and a tie does not replace it
      next hlt =>
        obtain rfl : b = x := Option.some.inj h
        refine ⟨pre, post ++ [last], by rw [List.append_assoc, List.cons_append], hpre, fun y hy => ?_⟩
        rcases List.mem_append.mp hy with hy | hy
        · exact hpost y hy
        · rw [List.mem_singleton.mp hy]
          exact not_lt.mp hlt

/-! ## Keys -/

variable [BEq κ]

/-- The place where a key first appears. -/
def firstIdx (key : α → Option κ) (xs : List α) (k : κ) : Nat := xs.findIdx fun x => key x == some k

def setBy (key : α → Option κ) (value : Dict κ β → α → β) (xs : List α) : Dict κ β :=
  xs.foldl (fun d x =>
    match key x with
    | none => d
    | some k => d.set k (value d x)) []

section Keys

variable {key : α → Option κ} {value : Dict κ β → α → β}

theorem setBy_append (xs : List α) (x : α) :
    setBy key value (xs ++ [x]) =
      match key x with
      | none => setBy key value xs
      | some k => (setBy key value xs).set k (value (setBy key value xs) x) := by
  rw [setBy, List.foldl_append]
  rfl

variable [LawfulBEq κ]

theorem firstIdx_append_of_mem {xs ys : List α} {k : κ} (h : ∃ x ∈ xs, key x = some k) :
    firstIdx key (xs ++ ys) k = firstIdx key xs k := by
  obtain ⟨x, hx, hk⟩ := h
  have hlt : xs.findIdx (fun x => key x == some k) < xs.length :=
    List.findIdx_lt_length_of_exists ⟨x, hx, beq_iff_eq.mpr hk⟩
  rw [firstIdx, List.findIdx_append, if_pos hlt, firstIdx]

theorem firstIdx_lt {xs : List α} {k : κ} (h : ∃ x ∈ xs, key x = some k) :
    firstIdx key xs k < xs.length := by
  obtain ⟨x, hx, hk⟩ := h
  exact List.findIdx_lt_length_of_exists ⟨x, hx, beq_iff_eq.mpr hk⟩

theorem firstIdx_of_not_mem {xs : List α} {k : κ} (h : ¬∃ x ∈ xs, key x = some k) :
    firstIdx key xs k = xs.length := by
  apply List.findIdx_eq_length_of_false
  intro x hx
  rw [beq_eq_false_iff_ne]
  exact fun hk => h ⟨x, hx, hk⟩

/-- The element at the first place of a key has that key. -/
theorem key_firstIdx {xs : List α} {k : κ} (h : firstIdx key xs k < xs.length) :
    key (xs.get ⟨firstIdx key xs k, h⟩) = some k :=
  eq_of_beq (List.findIdx_getElem (w := h))

theorem mem_keys_setBy {xs : List α} {k : κ} :
    k ∈ (setBy key value xs).map Prod.fst ↔ ∃ x ∈ xs, key x = some k := by
  induction xs using List.reverseRecOn with
  | nil => simp [setBy]
  | append_singleton xs x ih =>
    have hsplit : (∃ y ∈ xs ++ [x], key y = some k) ↔ (∃ y ∈ xs, key y = some k) ∨ key x = some k := by
      simp only [List.mem_append, List.mem_singleton, or_and_right, exists_or, exists_eq_left]
    rw [hsplit, ← ih, setBy_append]
    cases hx : key x with
    | none => simp
    | some k' =>
      dsimp only
      rw [map_fst_set]
      split
      next hsome =>
        -- an old key
        rw [lookup_isSome_iff] at hsome
        apply (or_iff_left_of_imp _).symm
        intro hk
        exact Option.some.inj hk ▸ hsome
      next => rw [List.mem_append, List.mem_singleton, Option.some.injEq, eq_comm (a := k)]

/-- The keys stand in the order of their first places. -/
theorem pairwise_keys_setBy (xs : List α) :
    ((setBy key value xs).map Prod.fst).Pairwise fun k k' =>
      firstIdx key xs k < firstIdx key xs k' := by
  induction xs using List.reverseRecOn with
  | nil => exact List.Pairwise.nil
  | append_singleton xs x ih =>
    -- appending keeps the first position of the keys already there
    have hold : ((setBy key value xs).map Prod.fst).Pairwise fun k k' =>
        firstIdx key (xs ++ [x]) k < firstIdx key (xs ++ [x]) k' := by
      apply ih.imp_of_mem
      intro k k' hk hk' hlt
      rw [firstIdx_append_of_mem (mem_keys_setBy.mp hk), firstIdx_append_of_mem (mem_keys_setBy.mp hk')]
      exact hlt
    rw [setBy_append]
    cases hx : key x with
    | none => exact hold
    | some k =>
      dsimp only
      rw [map_fst_set]
      split
      · exact hold
      -- a new key enters at the end, after every old one
      next hnone =>
        rw [lookup_isSome_iff, mem_keys_setBy] at hnone
        apply List.pairwise_append.mpr
        refine ⟨hold, List.pairwise_singleton _ _, fun k' hk' k'' hk'' => ?_⟩
        rw [List.mem_singleton.mp hk'', firstIdx_append_of_mem (mem_keys_setBy.mp hk')]
        have hlast : firstIdx key (xs ++ [x]) k = xs.length := by
          have hprefix : xs.findIdx (fun x => key x == some k) = xs.length := firstIdx_of_not_mem hnone
          rw [firstIdx, List.findIdx_append, if_neg (by omega), List.findIdx_singleton,
            if_pos (by rw [hx]; exact beq_self_eq_true _)]
          omega
        rw [hlast]
        exact firstIdx_lt (mem_keys_setBy.mp hk')

theorem nodup_keys_setBy (xs : List α) : ((setBy key value xs).map Prod.fst).Nodup :=
  (pairwise_keys_setBy xs).imp fun hlt heq => absurd hlt (by rw [heq]; exact Nat.lt_irrefl _)

end Keys

variable [LawfulBEq κ]

/-- A value that does not look at the dictionary: the last element of a key decides. -/
theorem lookup_setBy_last {key : α → Option κ} {value : α → β} (xs : List α) (k : κ) :
    (setBy key (fun _ => value) xs).lookup k =
      ((xs.filter fun x => key x == some k).getLast?).map value := by
  induction xs using List.reverseRecOn with
  | nil => rfl
  | append_singleton xs x ih =>
    rw [setBy_append, List.filter_append]
    cases hx : key x with
    | none =>
      rw [List.filter_cons_of_neg (by rw [hx]; simp), List.filter_nil, List.append_nil]
      exact ih
    | some k' =>
      dsimp only
      rw [lookup_set]
      by_cases hk : k = k'
      · rw [if_pos (beq_iff_eq.mpr hk),
          List.filter_cons_of_pos (by rw [hx, hk]; exact beq_self_eq_true _), List.filter_nil,
          List.getLast?_concat]
        rfl
      · rw [if_neg (by simpa using hk),
          List.filter_cons_of_neg (by rw [hx]; simpa using fun h => hk h.symm), List.filter_nil,
          List.append_nil]
        exact ih

/-! ## Groups -/

/-- The elements of each key, in their order. -/
def groupBy (key : α → Option κ) (xs : List α) : Dict κ (List α) :=
  setBy key (fun d x => ((key x).bind fun k => d.lookup k).getD [] ++ [x]) xs

theorem lookup_groupBy (key : α → Option κ) (xs : List α) (k : κ) :
    ((groupBy key xs).lookup k).getD [] = xs.filter fun x => key x == some k := by
  unfold groupBy
  induction xs using List.reverseRecOn with
  | nil => rfl
  | append_singleton xs x ih =>
    rw [setBy_append, List.filter_append]
    cases hx : key x with
    | none =>
      rw [List.filter_cons_of_neg (by rw [hx]; simp), List.filter_nil, List.append_nil]
      exact ih
    | some k' =>
      dsimp only [Option.bind_some]
      rw [lookup_set]
      by_cases hk : k = k'
      · subst hk
        rw [if_pos (beq_self_eq_true k),
          List.filter_cons_of_pos (by rw [hx]; exact beq_self_eq_true _), List.filter_nil,
          Option.getD_some, ih]
      · rw [if_neg (by simpa using hk),
          List.filter_cons_of_neg (by rw [hx]; simpa using fun h => hk h.symm), List.filter_nil,
          List.append_nil]
        exact ih

/-- The number of elements of a key. -/
def groupSize (key : α → Option κ) (xs : List α) (k : κ) : Nat :=
  (xs.filter fun x => key x == some k).length

/-- No key has more elements, and those with as many appear later. -/
structure IsLargest (key : α → Option κ) (xs : List α) (k : κ) : Prop where
  pos : 0 < groupSize key xs k
  max : ∀ k', groupSize key xs k' < groupSize key xs k ∨
    groupSize key xs k' = groupSize key xs k ∧ firstIdx key xs k ≤ firstIdx key xs k'

theorem groupSize_pos_iff {key : α → Option κ} {xs : List α} {k : κ} :
    0 < groupSize key xs k ↔ ∃ x ∈ xs, key x = some k := by
  rw [groupSize, List.length_filter_pos_iff]
  simp only [beq_iff_eq]

theorem IsLargest.unique {key : α → Option κ} {xs : List α} {k k' : κ} (h : IsLargest key xs k)
    (h' : IsLargest key xs k') : k = k' := by
  have hfirst : firstIdx key xs k = firstIdx key xs k' := by
    have hk := h.max k'
    have hk' := h'.max k
    omega
  have hlt := firstIdx_lt (groupSize_pos_iff.mp h.pos)
  have hkey := key_firstIdx hlt
  have hkey' := key_firstIdx (hfirst ▸ hlt : firstIdx key xs k' < xs.length)
  simp only [hfirst] at hkey
  exact Option.some.inj (hkey.symm.trans hkey')

/-- The key chosen among the groups is that of the largest one. -/
theorem isLargest_of_firstMax {key : α → Option κ} {xs : List α} {k : κ}
    (h : firstMax (fun k => (((groupBy key xs).lookup k).getD []).length)
      ((groupBy key xs).map Prod.fst) = some k) : IsLargest key xs k := by
  have hweight : (fun k => (((groupBy key xs).lookup k).getD []).length) = groupSize key xs := by
    funext k
    rw [lookup_groupBy, groupSize]
  rw [hweight] at h
  have hmem {k : κ} : k ∈ (groupBy key xs).map Prod.fst ↔ 0 < groupSize key xs k := by
    rw [groupSize_pos_iff]
    exact mem_keys_setBy
  have hpos : 0 < groupSize key xs k := hmem.mp (mem_of_firstMax h)
  obtain ⟨pre, post, hkeys, hpre, hpost⟩ := firstMax_eq_some h
  have horder : ((groupBy key xs).map Prod.fst).Pairwise fun k k' =>
      firstIdx key xs k < firstIdx key xs k' := pairwise_keys_setBy xs
  rw [hkeys] at horder
  refine ⟨hpos, fun k' => ?_⟩
  by_cases hk' : k' ∈ (groupBy key xs).map Prod.fst
  · rw [hkeys] at hk'
    rcases List.mem_append.mp hk' with hk' | hk'
    · exact .inl (hpre k' hk')
    · rcases List.mem_cons.mp hk' with rfl | hk'
      · exact .inr ⟨rfl, le_refl _⟩
      · rcases Nat.lt_or_eq_of_le (hpost k' hk') with hlt | heq
        · exact .inl hlt
        · refine .inr ⟨heq, le_of_lt ?_⟩
          exact (List.pairwise_cons.mp (List.pairwise_append.mp horder).2.1).1 k' hk'
  · rw [hmem] at hk'
    exact .inl (by omega)

end Dict

/-! ## Stable sorting -/

section Sorting

variable {α κ : Type} [LinearOrder κ]

/-- The order of the keys, ties being ordered by `r`. -/
def KeyThen (key : α → κ) (r : α → α → Prop) (x y : α) : Prop := key x < key y ∨ key x = key y ∧ r x y

theorem pairwise_orderedInsert {key : α → κ} {r : α → α → Prop} {a : α} {ys : List α}
    (hys : ys.Pairwise (KeyThen key r)) (ha : ∀ y ∈ ys, r a y) :
    (ys.orderedInsert (fun x y => key x ≤ key y) a).Pairwise (KeyThen key r) := by
  induction ys with
  | nil => exact List.pairwise_singleton _ _
  | cons b ys ih =>
    obtain ⟨hb, hys'⟩ := List.pairwise_cons.mp hys
    obtain ⟨hab, ha'⟩ := List.forall_mem_cons.mp ha
    rw [List.orderedInsert]
    split
    next hle =>
      apply List.pairwise_cons.mpr
      refine ⟨fun y hy => ?_, hys⟩
      have hkey : key a ≤ key y := by
        rcases List.mem_cons.mp hy with rfl | hy
        · exact hle
        · rcases hb y hy with hlt | ⟨heq, _⟩
          · exact le_trans hle (le_of_lt hlt)
          · exact heq ▸ hle
      rcases lt_or_eq_of_le hkey with hlt | heq
      · exact .inl hlt
      · exact .inr ⟨heq, ha y hy⟩
    next hle =>
      apply List.pairwise_cons.mpr
      refine ⟨fun y hy => ?_, ih hys' ha'⟩
      rcases (List.mem_orderedInsert _).mp hy with rfl | hy
      · exact .inl (not_le.mp hle)
      · exact hb y hy

/-- Sorting by a key keeps the order of the elements with equal keys. -/
theorem pairwise_insertionSort_keyThen {key : α → κ} {r : α → α → Prop} {xs : List α}
    (h : xs.Pairwise r) :
    (xs.insertionSort fun x y => key x ≤ key y).Pairwise (KeyThen key r) := by
  induction xs with
  | nil => exact List.Pairwise.nil
  | cons x xs ih =>
    obtain ⟨hx, hxs⟩ := List.pairwise_cons.mp h
    rw [List.insertionSort_cons]
    apply pairwise_orderedInsert (ih hxs)
    intro y hy
    exact hx y ((List.mem_insertionSort _).mp hy)

end Sorting

end LinuxAnalysis.Lib
