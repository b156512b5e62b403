import LinuxAnalysis.Lib.Loop
import Mathlib.Logic.Relation

/-!
# Deterministic transition systems

Runs of a partial step function, with the two rules that take a `for` loop and a `while` loop apart
into single steps.
-/

namespace LinuxAnalysis.Lib

variable {σ τ α : Type}

/-- What every step of a relation keeps, all its runs keep. -/
theorem steps_invariant {R : σ → σ → Prop} {I : σ → Prop} (hstep : ∀ s t, I s → R s t → I t)
    {s t : σ} (hs : I s) (h : Relation.ReflTransGen R s t) : I t := by
  induction h with
  | refl => exact hs
  | tail _ hab ih => exact hstep _ _ ih hab

/-- `t` is reached from `s` by steps of `next`. -/
def Reaches (next : σ → Option σ) : σ → σ → Prop :=
  Relation.ReflTransGen fun s t => next s = some t

namespace Reaches

variable {next : σ → Option σ} {s t u : σ}

theorem refl (s : σ) : Reaches next s s := Relation.ReflTransGen.refl

theorem trans (h₁ : Reaches next s t) (h₂ : Reaches next t u) : Reaches next s u :=
  Relation.ReflTransGen.trans h₁ h₂

theorem single (h : next s = some t) : Reaches next s t := Relation.ReflTransGen.single h

theorem head (h : next s = some t) (h' : Reaches next t u) : Reaches next s u :=
  Relation.ReflTransGen.head h h'

theorem invariant {I : σ → Prop} (hstep : ∀ s t, I s → next s = some t → I t)
    (h : Reaches next s t) (hs : I s) : I t := steps_invariant hstep hs h

/-- Two states on one run: one of them is reached from the other. -/
theorem linear (h₁ : Reaches next s t) (h₂ : Reaches next s u) :
    Reaches next t u ∨ Reaches next u t := by
  refine Relation.ReflTransGen.total_of_right_unique (fun a b c hb hc => ?_) h₁ h₂
  exact Option.some.inj (hb.symm.trans hc)

/-- A fold whose turns are steps of the system. -/
theorem of_foldl (next : σ → Option σ) (f : τ → α → τ) (point : List α → τ → σ)
    (hstep : ∀ x xs a, next (point (x :: xs) a) = some (point xs (f a x))) (xs : List α) (a : τ) :
    Reaches next (point xs a) (point [] (xs.foldl f a)) := by
  induction xs generalizing a with
  | nil => exact refl _
  | cons x xs ih => exact head (hstep x xs a) (ih (f a x))

/-- A `while` loop whose turns lead from loop head to loop head. -/
theorem of_whileLoop {cond : τ → Bool} {body : τ → Option τ} (point : τ → σ)
    (hbody : ∀ a b, cond a = true → body a = some b → Reaches next (point a) (point b)) {n : Nat}
    {a b : τ} (h : whileLoop cond body n a = some b) :
    Reaches next (point a) (point b) ∧ cond b = false :=
  whileLoop_invariant (I := fun c => Reaches next (point a) (point c))
    (fun c d hc hcond hd => hc.trans (hbody c d hcond hd)) (refl _) h

/-- `n` steps, when there are so many. -/
def iterate (next : σ → Option σ) : Nat → σ → Option σ
  | 0, s => some s
  | n + 1, s => (next s).bind (iterate next n)

theorem of_iterate {n : Nat} (h : iterate next n s = some t) : Reaches next s t := by
  induction n generalizing s with
  | zero =>
    cases h
    exact refl _
  | succ n ih =>
    obtain ⟨u, hu, ht⟩ := Option.bind_eq_some_iff.mp h
    exact head hu (ih ht)

/-- `check` holds of every state of a run of at most `n` states. -/
def checkAll (next : σ → Option σ) (check : σ → Bool) : Nat → σ → Bool
  | 0, _ => false
  | n + 1, s => check s && (next s).all (checkAll next check n)

theorem of_checkAll {check : σ → Bool} {n : Nat} (hall : checkAll next check n s = true)
    (h : Reaches next s t) : check t = true := by
  have hkept := h.invariant (I := fun u => ∃ n, checkAll next check n u = true)
    (fun u v hu huv => ?_) ⟨n, hall⟩
  · obtain ⟨n, hn⟩ := hkept
    cases n with
    | zero => cases hn
    | succ n => exact (Bool.and_eq_true_iff.mp hn).1
  · obtain ⟨n, hn⟩ := hu
    cases n with
    | zero => cases hn
    | succ n =>
      rw [checkAll, huv] at hn
      exact ⟨n, (Bool.and_eq_true_iff.mp hn).2⟩

end Reaches

end LinuxAnalysis.Lib
