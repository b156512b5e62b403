import Mathlib.Algebra.Order.Group.Int

/-!
# Walks and their height

A walk starts at a root and follows edges that each lead up or down by some amount; its height is the
sum of what its edges lead up by.
-/

namespace LinuxAnalysis.Lib

variable {α : Type} {edge edge' : α → α → Int → Prop} {root root' : α → Prop}

/-- Some walk from a root ends at an element, at a height. -/
inductive Walk (edge : α → α → Int → Prop) (root : α → Prop) : α → Int → Prop where
  | root {a : α} : root a → Walk edge root a 0
  | step {a b : α} {height d : Int} : Walk edge root a height → edge a b d →
      Walk edge root b (height + d)

namespace Walk

theorem mono {a : α} {height : Int} (h : Walk edge root a height) (hroot : ∀ a, root a → root' a)
    (hedge : ∀ a b d, edge a b d → edge' a b d) : Walk edge' root' a height := by
  induction h with
  | root hr => exact .root (hroot _ hr)
  | step _ hab ih => exact ih.step (hedge _ _ _ hab)

/-- A walk that no edge leads up does not end above its root. -/
theorem nonpos {a : α} {height : Int} (h : Walk edge root a height)
    (hdown : ∀ a b d, edge a b d → d ≤ 0) : height ≤ 0 := by
  induction h with
  | root _ => exact le_rfl
  | step _ hedge ih =>
    have hd := hdown _ _ _ hedge
    omega

/-- A walk that no edge leads down does not end below its root. -/
theorem nonneg {a : α} {height : Int} (h : Walk edge root a height)
    (hup : ∀ a b d, edge a b d → 0 ≤ d) : 0 ≤ height := by
  induction h with
  | root _ => exact le_rfl
  | step _ hedge ih =>
    have hd := hup _ _ _ hedge
    omega

/-- Without edges a walk stays at its root. -/
theorem of_no_edge {a : α} {height : Int} (h : Walk edge root a height)
    (hnone : ∀ a b d, ¬ edge a b d) : root a ∧ height = 0 := by
  cases h with
  | root hr => exact ⟨hr, rfl⟩
  | step _ hedge => exact absurd hedge (hnone _ _ _)

end Walk

end LinuxAnalysis.Lib
