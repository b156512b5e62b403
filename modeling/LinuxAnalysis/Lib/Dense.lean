import Mathlib.Data.List.AList
import Mathlib.Data.List.Dedup

/-!
# Insertion-only sets and keyed maps

`DenseSet` is a finite set that a program grows element by element and that it can list; the list
has no duplicates by construction, so its length is the number of elements.  `DenseMap` is
Mathlib's association list with unique keys at a constant value type.
-/

namespace LinuxAnalysis.Lib

structure DenseSet (α : Type) where
  elems : List α
  nodup : elems.Nodup

namespace DenseSet

variable {α : Type}

instance : Membership α (DenseSet α) := ⟨fun s a => a ∈ s.elems⟩

instance : EmptyCollection (DenseSet α) := ⟨⟨[], List.nodup_nil⟩⟩

instance : HasSubset (DenseSet α) := ⟨fun s t => ∀ a, a ∈ s → a ∈ t⟩

instance [DecidableEq α] (s : DenseSet α) (a : α) : Decidable (a ∈ s) :=
  inferInstanceAs (Decidable (a ∈ s.elems))

instance : Inhabited (DenseSet α) := ⟨∅⟩

theorem mem_def {s : DenseSet α} {a : α} : a ∈ s ↔ a ∈ s.elems := Iff.rfl

@[simp] theorem mem_elems {s : DenseSet α} {a : α} : a ∈ s.elems ↔ a ∈ s := Iff.rfl

@[simp] theorem not_mem_empty (a : α) : ¬ a ∈ (∅ : DenseSet α) := List.not_mem_nil

@[refl] theorem Subset.refl (s : DenseSet α) : s ⊆ s := fun _ h => h

theorem Subset.trans {s t u : DenseSet α} (h₁ : s ⊆ t) (h₂ : t ⊆ u) : s ⊆ u :=
  fun a h => h₂ a (h₁ a h)

def size (s : DenseSet α) : Nat := s.elems.length

def isEmpty (s : DenseSet α) : Bool := s.elems.isEmpty

theorem isEmpty_iff {s : DenseSet α} : s.isEmpty = true ↔ ∀ a, ¬ a ∈ s := by
  rw [isEmpty, List.isEmpty_iff, List.eq_nil_iff_forall_not_mem]
  rfl

variable [DecidableEq α]

def insert (a : α) (s : DenseSet α) : DenseSet α := ⟨s.elems.insert a, s.nodup.insert⟩

@[simp] theorem mem_insert {s : DenseSet α} {a b : α} : a ∈ s.insert b ↔ a = b ∨ a ∈ s :=
  List.mem_insert_iff

theorem subset_insert (s : DenseSet α) (a : α) : s ⊆ s.insert a :=
  fun _ h => mem_insert.mpr (.inr h)

end DenseSet

abbrev DenseMap (κ β : Type) := AList fun _ : κ => β

namespace DenseMap

variable {κ β : Type} [DecidableEq κ]

/-- `map[key]` as an expression: the entry, or the value a missing entry is created with. -/
def getD (m : DenseMap κ β) (k : κ) (d : β) : β := (m.lookup k).getD d

theorem lookup_insert_ite (m : DenseMap κ β) (k k' : κ) (b : β) :
    (m.insert k b).lookup k' = if k' = k then some b else m.lookup k' := by
  split
  next h => rw [h, AList.lookup_insert]
  next h => rw [AList.lookup_insert_ne h]

theorem getD_insert (m : DenseMap κ β) (k k' : κ) (b d : β) :
    (DenseMap.getD (m.insert k b) k' d) = if k' = k then b else DenseMap.getD m k' d := by
  rw [getD, lookup_insert_ite]
  split <;> rfl

theorem mem_entries_iff {m : DenseMap κ β} {k : κ} {b : β} :
    ⟨k, b⟩ ∈ m.entries ↔ m.lookup k = some b :=
  (AList.mem_lookup_iff (s := m)).symm

/-- Maps with the same entries list them in some order each. -/
theorem perm_entries {m m' : DenseMap κ β} (h : ∀ k, m.lookup k = m'.lookup k) :
    m.entries.Perm m'.entries := by
  rw [List.perm_ext_iff_of_nodup m.nodupKeys.nodup m'.nodupKeys.nodup]
  rintro ⟨k, b⟩
  rw [mem_entries_iff, mem_entries_iff, h]

/-- The entries of the keys in a list without duplicates that holds all keys. -/
theorem perm_filterMap_lookup {m : DenseMap κ β} {ks : List κ} (hks : ks.Nodup)
    (hall : ∀ k ∈ m, k ∈ ks) :
    (ks.filterMap fun k => (m.lookup k).map fun b => (⟨k, b⟩ : Σ _ : κ, β)).Perm m.entries := by
  rw [List.perm_ext_iff_of_nodup (hks.filterMap ?_) m.nodupKeys.nodup]
  · rintro ⟨k, b⟩
    simp only [List.mem_filterMap, Option.map_eq_some_iff, mem_entries_iff]
    constructor
    · rintro ⟨_, _, _, hb, heq⟩
      cases heq
      exact hb
    · intro hb
      exact ⟨k, hall k (AList.lookup_isSome.mp (by rw [hb]; rfl)), b, hb, rfl⟩
  · intro k k' e hk hk'
    simp only [Option.mem_def, Option.map_eq_some_iff] at hk hk'
    obtain ⟨_, _, rfl⟩ := hk
    obtain ⟨_, _, heq⟩ := hk'
    cases heq
    rfl

end DenseMap

end LinuxAnalysis.Lib
