import Mathlib.Data.List.Basic

/-!
# Derivations

Facts derived by rules, each from finitely many premises.  A system that adds a fact only by a rule
whose premises it has already holds derivable facts alone; one that no rule leads out of holds all
of them.
-/

namespace LinuxAnalysis.Lib

variable {α : Type}

/-- `c` has a finite derivation by the rules. -/
inductive Derivable (rule : List α → α → Prop) : α → Prop where
  | intro {premises : List α} {c : α} : rule premises c → (∀ p ∈ premises, Derivable rule p) →
      Derivable rule c

theorem Derivable.of_nil {rule : List α → α → Prop} {c : α} (h : rule [] c) : Derivable rule c :=
  .intro h fun _ hp => absurd hp List.not_mem_nil

theorem Derivable.of_one {rule : List α → α → Prop} {p c : α} (h : rule [p] c)
    (hp : Derivable rule p) : Derivable rule c :=
  .intro h fun _ hq => List.mem_singleton.mp hq ▸ hp

/-- `c` is the conclusion of a rule with premises that hold. -/
def Justified (rule : List α → α → Prop) (holds : α → Prop) (c : α) : Prop :=
  ∃ premises, rule premises c ∧ ∀ p ∈ premises, holds p

theorem Justified.mono {rule : List α → α → Prop} {holds holds' : α → Prop} {c : α}
    (h : Justified rule holds c) (hle : ∀ p, holds p → holds' p) : Justified rule holds' c := by
  obtain ⟨premises, hrule, hprem⟩ := h
  exact ⟨premises, hrule, fun p hp => hle p (hprem p hp)⟩

theorem Justified.derivable {rule : List α → α → Prop} {c : α}
    (h : Justified rule (Derivable rule) c) : Derivable rule c := by
  obtain ⟨premises, hrule, hprem⟩ := h
  exact .intro hrule hprem

/-- Every fact that holds is derivable, and by a rule whose premises hold as well. -/
def Grounded (rule : List α → α → Prop) (holds : α → Prop) : Prop :=
  ∀ c, holds c → Derivable rule c ∧ Justified rule holds c

theorem Grounded.step {rule : List α → α → Prop} {holds holds' : α → Prop}
    (h : Grounded rule holds) (hle : ∀ p, holds p → holds' p)
    (hnew : ∀ c, holds' c → holds c ∨ Justified rule holds c) : Grounded rule holds' := by
  intro c hc
  rcases hnew c hc with hold | hjust
  · exact ⟨(h c hold).1, (h c hold).2.mono hle⟩
  · exact ⟨(hjust.mono fun p hp => (h p hp).1).derivable, hjust.mono hle⟩

/-- No rule leads out of the facts that hold. -/
def Closed (rule : List α → α → Prop) (holds : α → Prop) : Prop :=
  ∀ premises c, rule premises c → (∀ p ∈ premises, holds p) → holds c

theorem Derivable.of_closed {rule : List α → α → Prop} {holds : α → Prop} {c : α}
    (h : Derivable rule c) (hclosed : Closed rule holds) : holds c := by
  induction h with
  | intro hrule _ ih => exact hclosed _ _ hrule ih

end LinuxAnalysis.Lib
