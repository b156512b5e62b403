import Mathlib.Data.List.Induction
import Mathlib.Data.List.Sort
import Mathlib.Order.Basic

/-!
# Greatest admissible elements

A search for the admissible element with the greatest key, by one scan that keeps the best element so
far, and by taking the last element of a sorted list before the first key that is too great.  A search
through candidates in the order of preference.
-/

namespace LinuxAnalysis.Lib

variable {α κ : Type} [LinearOrder κ]

/-- `x` has the greatest key among the elements of `xs` that `p` admits. -/
def GreatestOf (key : α → κ) (p : α → Prop) (xs : List α) (x : α) : Prop :=
  x ∈ xs ∧ p x ∧ ∀ y ∈ xs, p y → key y ≤ key x

/-- Two admissible elements of greatest key have the same key. -/
theorem GreatestOf.key_eq {key : α → κ} {p : α → Prop} {xs : List α} {x y : α}
    (hx : GreatestOf key p xs x) (hy : GreatestOf key p xs y) : key x = key y :=
  le_antisymm (hy.2.2 x hx.1 hx.2.1) (hx.2.2 y hy.1 hy.2.1)

/-- The outcome of a search. -/
def SearchResult (key : α → κ) (p : α → Prop) (xs : List α) : Option α → Prop
  | none => ∀ x ∈ xs, ¬ p x
  | some x => GreatestOf key p xs x

/-- A scan that passes over what is not admissible and replaces the best element by a greater one. -/
theorem foldl_searchResult {key : α → κ} {p : α → Prop} {f : Option α → α → Option α}
    (hskip : ∀ best x, ¬ p x → f best x = best) (hnone : ∀ x, p x → f none x = some x)
    (hsome : ∀ b x, p b → p x → f (some b) x = if key b < key x then some x else some b)
    (xs : List α) : SearchResult key p xs (xs.foldl f none) := by
  induction xs using List.reverseRecOn with
  | nil => exact fun x hx => absurd hx List.not_mem_nil
  | append_singleton xs x ih =>
    rw [List.foldl_append, List.foldl_cons, List.foldl_nil]
    -- the element either fails the test or competes with the best so far
    by_cases hx : p x
    · cases hbest : xs.foldl f none with
      | none =>
        rw [hbest] at ih
        rw [hnone x hx]
        refine ⟨by simp, hx, fun y hy hpy => ?_⟩
        rcases List.mem_append.mp hy with hy | hy
        · exact absurd hpy (ih y hy)
        · exact le_of_eq (congrArg key (List.mem_singleton.mp hy))
      | some b =>
        rw [hbest] at ih
        obtain ⟨hb, hpb, hmax⟩ := ih
        rw [hsome b x hpb hx]
        by_cases hlt : key b < key x
        · rw [if_pos hlt]
          refine ⟨by simp, hx, fun y hy hpy => ?_⟩
          rcases List.mem_append.mp hy with hy | hy
          · exact le_trans (hmax y hy hpy) (le_of_lt hlt)
          · exact le_of_eq (congrArg key (List.mem_singleton.mp hy))
        -- a smaller key leaves the best in place
        · rw [if_neg hlt]
          refine ⟨List.mem_append_left _ hb, hpb, fun y hy hpy => ?_⟩
          rcases List.mem_append.mp hy with hy | hy
          · exact hmax y hy hpy
          · rw [List.mem_singleton.mp hy]
            exact not_lt.mp hlt
    · rw [hskip _ x hx]
      cases hbest : xs.foldl f none with
      | none =>
        rw [hbest] at ih
        intro y hy
        rcases List.mem_append.mp hy with hy | hy
        · exact ih y hy
        · rwa [List.mem_singleton.mp hy]
      | some b =>
        rw [hbest] at ih
        refine ⟨List.mem_append_left _ ih.1, ih.2.1, fun y hy hpy => ?_⟩
        rcases List.mem_append.mp hy with hy | hy
        · exact ih.2.2 y hy hpy
        · exact absurd (List.mem_singleton.mp hy ▸ hpy) hx

/-- Of a sorted list, the prefix up to a bound holds all elements up to the bound. -/
theorem mem_takeWhile_of_sorted {key : α → κ} {a : κ} {xs : List α}
    (hsorted : xs.Pairwise fun x y => key x ≤ key y) {x : α} :
    x ∈ xs.takeWhile (fun y => decide (key y ≤ a)) ↔ x ∈ xs ∧ key x ≤ a := by
  induction xs with
  | nil => simp
  | cons y ys ih =>
    obtain ⟨hle, hsorted⟩ := List.pairwise_cons.mp hsorted
    by_cases hy : key y ≤ a
    · rw [List.takeWhile_cons_of_pos (by simpa using hy), List.mem_cons, List.mem_cons, ih hsorted]
      constructor
      · rintro (rfl | ⟨hx, hxa⟩)
        · exact ⟨.inl rfl, hy⟩
        · exact ⟨.inr hx, hxa⟩
      · rintro ⟨rfl | hx, hxa⟩
        · exact .inl rfl
        · exact .inr ⟨hx, hxa⟩
    · rw [List.takeWhile_cons_of_neg (by simpa using hy)]
      refine iff_of_false List.not_mem_nil ?_
      rintro ⟨hx, hxa⟩
      rcases List.mem_cons.mp hx with rfl | hx
      · exact hy hxa
      · exact hy (le_trans (hle x hx) hxa)

/-- Of a sorted list, the last element before the first key above the bound. -/
theorem searchResult_takeWhile {key : α → κ} {a : κ} {xs : List α}
    (hsorted : xs.Pairwise fun x y => key x ≤ key y) :
    SearchResult key (fun y => key y ≤ a) xs
      (xs.takeWhile fun y => decide (key y ≤ a)).getLast? := by
  have hmem {x : α} := mem_takeWhile_of_sorted (a := a) hsorted (x := x)
  have hprefix := hsorted.sublist (List.takeWhile_sublist fun y => decide (key y ≤ a))
  cases hlast : (xs.takeWhile fun y => decide (key y ≤ a)).getLast? with
  | none =>
    intro x hx hxa
    have hin := hmem.mpr ⟨hx, hxa⟩
    rw [List.getLast?_eq_none_iff.mp hlast] at hin
    exact List.not_mem_nil hin
  | some x =>
    obtain ⟨hx, hxa⟩ := hmem.mp (List.mem_of_getLast? hlast)
    refine ⟨hx, hxa, fun y hy hya => ?_⟩
    obtain ⟨front, hfront⟩ := List.getLast?_eq_some_iff.mp hlast
    have hin := hmem.mpr ⟨hy, hya⟩
    rw [hfront] at hin hprefix
    rcases List.mem_append.mp hin with hin | hin
    · exact (List.pairwise_append.mp hprefix).2.2 y hin x (by simp)
    · exact le_of_eq (congrArg key (List.mem_singleton.mp hin))

/-! ## Candidates in order -/

/-- A search through candidates in order gives the answer of the one that no other with an answer
stands before. -/
theorem findSome?_eq_some_iff_of_pairwise {β : Type} {before : α → α → Prop}
    (hasymm : ∀ a b, before a b → ¬ before b a) {xs : List α} (hxs : xs.Pairwise before)
    (f : α → Option β) (b : β) :
    xs.findSome? f = some b ↔ ∃ a ∈ xs, f a = some b ∧ ∀ x ∈ xs, before x a → f x = none := by
  rw [List.findSome?_eq_some_iff]
  constructor
  · rintro ⟨front, a, back, rfl, ha, hfront⟩
    refine ⟨a, by simp, ha, fun x hx hbefore => ?_⟩
    rcases List.mem_append.mp hx with hx | hx
    · exact hfront x hx
    · rcases List.mem_cons.mp hx with rfl | hx
      · exact absurd hbefore (hasymm x x hbefore)
      · have hafter := (List.pairwise_cons.mp (List.pairwise_append.mp hxs).2.1).1 x hx
        exact absurd hbefore (hasymm a x hafter)
  · rintro ⟨a, ha, hfa, hnone⟩
    obtain ⟨front, back, rfl⟩ := List.append_of_mem ha
    refine ⟨front, a, back, rfl, hfa, fun x hx => ?_⟩
    have hbefore := (List.pairwise_append.mp hxs).2.2 x hx a List.mem_cons_self
    exact hnone x (List.mem_append_left _ hx) hbefore

end LinuxAnalysis.Lib
