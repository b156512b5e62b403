import Mathlib.Algebra.BigOperators.Group.Finset.Basic
import Mathlib.Algebra.Order.BigOperators.Group.Finset
import Mathlib.Data.Fintype.Basic
import Mathlib.Logic.Function.Basic
import Mathlib.Logic.Relation

/-!
# Interleaved processes

Processes take turns in any order.  Each has a local state and one cell of a shared store that it reads
and writes.  When the cells differ, what a process does in an interleaved run it also does alone.
-/

namespace LinuxAnalysis.Lib

variable {ι σ κ β : Type} [DecidableEq ι] [DecidableEq κ]

/-- One process moves, on its local state and its cell. -/
inductive Interleave (cell : ι → κ) (move : ι → σ × β → σ × β → Prop) :
    (ι → σ) × (κ → β) → (ι → σ) × (κ → β) → Prop where
  | move {locals store i s b} : move i (locals i, store (cell i)) (s, b) →
      Interleave cell move (locals, store)
        (Function.update locals i s, Function.update store (cell i) b)

namespace Interleave

variable {cell : ι → κ} {move : ι → σ × β → σ × β → Prop} {s t : (ι → σ) × (κ → β)}

/-- A cell of no process stays as it is. -/
theorem frame (h : Relation.ReflTransGen (Interleave cell move) s t) {k : κ}
    (hk : ∀ i, cell i ≠ k) : t.2 k = s.2 k := by
  induction h with
  | refl => rfl
  | tail _ hstep ih =>
    cases hstep with
    | @move locals store i s' b _ => exact (Function.update_of_ne (hk i).symm b store).trans ih

/-- **Projection.**  Every process runs as it would alone. -/
theorem solo (hcell : Function.Injective cell)
    (h : Relation.ReflTransGen (Interleave cell move) s t) (i : ι) :
    Relation.ReflTransGen (move i) (s.1 i, s.2 (cell i)) (t.1 i, t.2 (cell i)) := by
  induction h with
  | refl => exact .refl
  | tail _ hstep ih =>
    cases hstep with
    | @move locals store j s' b hmove =>
      dsimp only
      by_cases hij : i = j
      · subst hij
        rw [Function.update_self, Function.update_self]
        exact ih.tail hmove
      · have hne : cell i ≠ cell j := fun he => hij (hcell he)
        rw [Function.update_of_ne hij, Function.update_of_ne hne]
        exact ih

/-- A measure that every move of a process lowers is lowered in the sum by every step. -/
theorem sum_lt [Fintype ι] (measure : ι → σ → Nat)
    (hmove : ∀ i p q, move i p q → measure i q.1 < measure i p.1)
    (h : Interleave cell move s t) : ∑ i, measure i (t.1 i) < ∑ i, measure i (s.1 i) := by
  cases h with
  | @move locals store i s' b hstep =>
    have hlt : measure i s' < measure i (locals i) := hmove i _ _ hstep
    refine Finset.sum_lt_sum (fun j _ => ?_) ⟨i, Finset.mem_univ i, ?_⟩ <;> dsimp only
    · by_cases hj : j = i
      · subst hj
        rw [Function.update_self]
        exact hlt.le
      · rw [Function.update_of_ne hj]
    · rw [Function.update_self]
      exact hlt

end Interleave

end LinuxAnalysis.Lib
