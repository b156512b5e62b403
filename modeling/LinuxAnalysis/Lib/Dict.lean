import LinuxAnalysis.Lib.Loop

/-!
# Dictionaries as Python keeps them

Pairs in the order in which the keys were first set.
-/

namespace LinuxAnalysis.Lib

abbrev Dict (α β : Type) := List (α × β)

namespace Dict

variable {α β : Type}

/-- `d[key] = value` -/
def set [BEq α] (d : Dict α β) (key : α) (value : β) : Dict α β :=
  if (d.lookup key).isSome then d.map fun e => if e.1 == key then (key, value) else e
  else d ++ [(key, value)]

def heavier (weight : α → Nat) (best : Option α) (x : α) : Option α :=
  match best with
  | none => some x
  | some b => if weight b < weight x then some x else some b

/-- `max(xs, key=weight)`: the first of the elements of greatest weight. -/
def firstMax (weight : α → Nat) (xs : List α) : Option α := xs.foldl (heavier weight) none

theorem mem_of_firstMax {weight : α → Nat} {xs : List α} {x : α}
    (h : firstMax weight xs = some x) : x ∈ xs := by
  have hmem : ∀ x, xs.foldl (heavier weight) none = some x → x ∈ xs := by
    refine foldl_invariant (I := fun best : Option α => ∀ x, best = some x → x ∈ xs)
      (fun best y hy hbest x hx => ?_) (fun _ h => by cases h)
    unfold heavier at hx
    split at hx
    · exact Option.some.inj hx ▸ hy
    · split at hx
      · exact Option.some.inj hx ▸ hy
      · exact hbest x hx
  exact hmem x h

variable [BEq α]

theorem mem_of_mem_set {d : Dict α β} {key : α} {value : β} {e : α × β}
    (h : e ∈ d.set key value) : e = (key, value) ∨ e ∈ d := by
  unfold set at h
  split at h
  · obtain ⟨x, hx, rfl⟩ := List.mem_map.mp h
    split
    · exact .inl rfl
    · exact .inr hx
  · rcases List.mem_append.mp h with h | h
    · exact .inr h
    · exact .inl (List.mem_singleton.mp h)

variable [LawfulBEq α]

theorem mem_of_lookup {d : Dict α β} {key : α} {value : β} (h : d.lookup key = some value) :
    (key, value) ∈ d := by
  induction d with
  | nil => cases h
  | cons e d ih =>
    obtain ⟨k, v⟩ := e
    rw [List.lookup_cons] at h
    split at h
    next hk =>
      rw [eq_of_beq hk, Option.some.inj h]
      exact List.mem_cons_self
    next => exact List.mem_cons_of_mem _ (ih h)

theorem lookup_of_mem {d : Dict α β} {key : α} {value : β} (h : (key, value) ∈ d) :
    ∃ v, d.lookup key = some v := by
  induction d with
  | nil => cases h
  | cons e d ih =>
    obtain ⟨k, v⟩ := e
    rw [List.lookup_cons]
    split
    next => exact ⟨v, rfl⟩
    next hk =>
      rcases List.mem_cons.mp h with heq | h
      · cases heq
        simp at hk
      · exact ih h

theorem lookup_isSome_iff {d : Dict α β} {key : α} :
    (d.lookup key).isSome = true ↔ key ∈ d.map Prod.fst := by
  rw [Option.isSome_iff_exists]
  constructor
  · rintro ⟨value, h⟩
    exact List.mem_map.mpr ⟨_, mem_of_lookup h, rfl⟩
  · intro h
    obtain ⟨⟨k, v⟩, hmem, rfl⟩ := List.mem_map.mp h
    exact lookup_of_mem hmem

/-- Replacing the value of a key leaves the keys as they are. -/
theorem lookup_map_replace (d : Dict α β) (key k : α) (value : β) :
    List.lookup k (d.map fun e => if e.1 == key then (key, value) else e) =
      if k == key then (d.lookup key).map fun _ => value else d.lookup k := by
  induction d with
  | nil => split <;> rfl
  | cons e d ih =>
    obtain ⟨x, v⟩ := e
    rw [List.map_cons]
    by_cases hx : x = key
    · subst hx
      rw [if_pos (beq_self_eq_true x), List.lookup_cons, List.lookup_cons, ih, List.lookup_cons]
      by_cases hk : k = x
      · subst hk
        simp
      · simp [beq_false_of_ne hk]
    · rw [if_neg (by simpa using hx), List.lookup_cons, List.lookup_cons, ih, List.lookup_cons]
      by_cases hk : k = key
      · subst hk
        simp [beq_false_of_ne (Ne.symm hx)]
      · simp [beq_false_of_ne hk]

theorem lookup_set (d : Dict α β) (key k : α) (value : β) :
    (d.set key value).lookup k = if k == key then some value else d.lookup k := by
  unfold set
  by_cases hsome : (d.lookup key).isSome
  · rw [if_pos hsome, lookup_map_replace]
    obtain ⟨v, hv⟩ := Option.isSome_iff_exists.mp hsome
    rw [hv]
    rfl
  · rw [if_neg hsome, List.lookup_append]
    by_cases hk : k = key
    · subst hk
      simp [Option.not_isSome_iff_eq_none.mp hsome]
    · simp [beq_false_of_ne hk, List.lookup_cons]

theorem map_fst_set (d : Dict α β) (key : α) (value : β) :
    (d.set key value).map Prod.fst =
      if (d.lookup key).isSome then d.map Prod.fst else d.map Prod.fst ++ [key] := by
  unfold set
  split
  · rw [List.map_map]
    apply List.map_congr_left
    intro e _
    show (if e.1 == key then (key, value) else e).1 = e.1
    split
    next h => exact (eq_of_beq h).symm
    next => rfl
  · rw [List.map_append, List.map_singleton]

/-- The keys of a dictionary stay distinct. -/
theorem nodup_set {d : Dict α β} (hd : (d.map Prod.fst).Nodup) (key : α) (value : β) :
    ((d.set key value).map Prod.fst).Nodup := by
  rw [map_fst_set]
  split
  · exact hd
  next hnone =>
    rw [lookup_isSome_iff] at hnone
    exact List.nodup_append.mpr ⟨hd, List.nodup_singleton key, fun a ha b hb => by
      rw [List.mem_singleton.mp hb]
      exact fun h => hnone (h ▸ ha)⟩

theorem lookup_eq_some_iff {d : Dict α β} (hd : (d.map Prod.fst).Nodup) {key : α} {value : β} :
    d.lookup key = some value ↔ (key, value) ∈ d := by
  refine ⟨mem_of_lookup, fun h => ?_⟩
  induction d with
  | nil => cases h
  | cons e d ih =>
    obtain ⟨hfresh, hd⟩ := List.nodup_cons.mp hd
    rw [List.lookup_cons]
    rcases List.mem_cons.mp h with rfl | h
    · simp
    · have hne : key ≠ e.1 := fun heq => hfresh (heq ▸ List.mem_map.mpr ⟨_, h, rfl⟩)
      rw [beq_false_of_ne hne]
      exact ih hd h

/-- Setting fresh keys one after the other appends their entries. -/
theorem foldl_set_eq_append {d es : Dict α β} (h : ((d ++ es).map Prod.fst).Nodup) :
    es.foldl (fun d e => d.set e.1 e.2) d = d ++ es := by
  induction es generalizing d with
  | nil => rw [List.foldl_nil, List.append_nil]
  | cons e es ih =>
    have hnone : (d.lookup e.1).isSome = false := by
      rw [Bool.eq_false_iff]
      intro hsome
      rw [List.map_append, List.map_cons] at h
      exact (List.nodup_append.mp h).2.2 _ (lookup_isSome_iff.mp hsome) _ List.mem_cons_self rfl
    have hset : d.set e.1 e.2 = d ++ [e] := by
      unfold set
      rw [if_neg (by rw [hnone]; exact Bool.false_ne_true)]
    rw [List.append_cons] at h
    rw [List.foldl_cons, hset, ih h, ← List.append_cons]

end Dict

end LinuxAnalysis.Lib
