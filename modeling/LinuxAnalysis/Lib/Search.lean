import LinuxAnalysis.Lib.Dense
import Mathlib.Logic.Relation

/-!
# Depth-first search with a shared set of seen elements

A search that finds nothing has seen every successor of every element it took up.  Nested calls share
the set, so the fact is relative to what a call was given; a whole search starts from nothing.
-/

namespace LinuxAnalysis.Lib

variable {α : Type} {next : α → α → Prop} {goal : α → Prop}

/-- What was seen between `seen` and `seen'` is no goal and has its successors in `seen'`. -/
structure Explores (next : α → α → Prop) (goal : α → Prop) (seen seen' : DenseSet α) : Prop where
  subset : seen ⊆ seen'
  closed : ∀ a ∈ seen', a ∈ seen ∨ ¬ goal a ∧ ∀ b, next a b → b ∈ seen'

namespace Explores

theorem refl (seen : DenseSet α) : Explores next goal seen seen :=
  ⟨DenseSet.Subset.refl _, fun _ h => .inl h⟩

theorem trans {s t u : DenseSet α} (h₁ : Explores next goal s t) (h₂ : Explores next goal t u) :
    Explores next goal s u := by
  refine ⟨DenseSet.Subset.trans h₁.subset h₂.subset, fun a ha => ?_⟩
  rcases h₂.closed a ha with hmid | hnew
  · rcases h₁.closed a hmid with hold | ⟨hgoal, hnext⟩
    · exact .inl hold
    · exact .inr ⟨hgoal, fun b hb => h₂.subset b (hnext b hb)⟩
  · exact .inr hnew

/-- An element is taken up: it is marked, and its successors are explored. -/
theorem visit [DecidableEq α] {seen seen' : DenseSet α} {a : α}
    (h : Explores next goal (seen.insert a) seen') (hgoal : ¬ goal a)
    (hnext : ∀ b, next a b → b ∈ seen') : Explores next goal seen seen' := by
  refine ⟨fun b hb => h.subset b (DenseSet.mem_insert.mpr (.inr hb)), fun b hb => ?_⟩
  rcases h.closed b hb with hold | hnew
  · rcases DenseSet.mem_insert.mp hold with rfl | hold
    · exact .inr ⟨hgoal, hnext⟩
    · exact .inl hold
  · exact .inr hnew

/-- A loop of searches that share the set: if it finds nothing, none of them has found anything, each
has been made, and together they explore. -/
theorem of_foldlM {β γ : Type} {f : Option γ × DenseSet α → β → Option (Option γ × DenseSet α)}
    {P : β → DenseSet α → Prop} (hmono : ∀ x s t, P x s → s ⊆ t → P x t) {xs : List β}
    (hf : ∀ acc, ∀ x ∈ xs, ∀ r, f acc x = some r → r.1 = none →
      acc.1 = none ∧ Explores next goal acc.2 r.2 ∧ P x r.2)
    {acc r : Option γ × DenseSet α} (hr : xs.foldlM f acc = some r) (hnone : r.1 = none) :
    acc.1 = none ∧ Explores next goal acc.2 r.2 ∧ ∀ x ∈ xs, P x r.2 := by
  induction xs generalizing acc with
  | nil =>
    cases hr
    exact ⟨hnone, .refl _, fun x hx => by cases hx⟩
  | cons x xs ih =>
    rw [List.foldlM_cons] at hr
    obtain ⟨acc', hacc', hr⟩ := Option.bind_eq_some_iff.mp hr
    obtain ⟨hnone', hexp', hrest⟩ := ih (fun acc y hy => hf acc y (List.mem_cons_of_mem x hy)) hr
    obtain ⟨hstart, hexp, hx⟩ := hf acc x List.mem_cons_self acc' hacc' hnone'
    refine ⟨hstart, hexp.trans hexp', fun y hy => ?_⟩
    rcases List.mem_cons.mp hy with rfl | hy
    · exact hmono _ _ _ hx hexp'.subset
    · exact hrest y hy

/-- A search from nothing that finds no goal has passed none. -/
theorem not_goal {seen : DenseSet α} (h : Explores next goal ∅ seen) {a b : α} (ha : a ∈ seen)
    (hab : Relation.ReflTransGen next a b) : ¬ goal b := by
  have hb : b ∈ seen := by
    induction hab with
    | refl => exact ha
    | @tail c d _ hcd ih =>
      have hc := (h.closed c ih).resolve_left (DenseSet.not_mem_empty c)
      exact hc.2 d hcd
  exact ((h.closed b hb).resolve_left (DenseSet.not_mem_empty b)).1

end Explores

end LinuxAnalysis.Lib
