import LinuxAnalysis.Lib.Interleave
import Mathlib.Data.List.FinRange

/-!
# Worker pools

Tasks are handed out in order to a bounded number of workers, which take turns in any order; the results
are collected in any order in which tasks come to their end.  Each task has a cell of a shared store.
When the cells differ, nothing that a run of the pool ends with depends on its schedule but the order of
the results.
-/

namespace LinuxAnalysis.Lib

/-- Tasks with what they do, how they end and why they do. -/
structure Workload (n : Nat) (σ κ β ρ : Type) where
  cell : Fin n → κ
  start : σ
  move : Fin n → σ × β → σ × β → Prop
  outcome : σ → Option ρ
  /-- a bound on the moves that are left -/
  remaining : Fin n → σ → Nat
  remaining_lt : ∀ {i p q}, move i p q → remaining i q.1 < remaining i p.1
  outcome_of_move : ∀ {i p q}, move i p q → outcome p.1 = none
  progress : ∀ {i b q}, Relation.ReflTransGen (move i) (start, b) q →
    (outcome q.1).isSome ∨ ∃ q', move i q q'

/-- The tasks not handed out, those with a worker, those at their end, the results collected, and where
the tasks and the store are. -/
structure Pool (n : Nat) (σ κ β ρ : Type) where
  waiting : List (Fin n)
  running : List (Fin n)
  ended : List (Fin n)
  collected : List (Fin n × ρ)
  state : (Fin n → σ) × (κ → β)

namespace Pool

variable {n : Nat} {σ κ β ρ : Type} [DecidableEq κ]

inductive Step (w : Workload n σ κ β ρ) (workers : Nat) : Pool n σ κ β ρ → Pool n σ κ β ρ → Prop where
  | handOut {i waiting running ended collected state} : running.length < workers →
      Step w workers ⟨i :: waiting, running, ended, collected, state⟩
        ⟨waiting, i :: running, ended, collected, state⟩
  | work {i waiting running ended collected locals store s b} : i ∈ running →
      w.move i (locals i, store (w.cell i)) (s, b) →
      Step w workers ⟨waiting, running, ended, collected, (locals, store)⟩
        ⟨waiting, running, ended, collected,
          (Function.update locals i s, Function.update store (w.cell i) b)⟩
  | finish {i waiting running ended collected state} : i ∈ running →
      (w.outcome (state.1 i)).isSome →
      Step w workers ⟨waiting, running, ended, collected, state⟩
        ⟨waiting, running.erase i, i :: ended, collected, state⟩
  | collect {i waiting running ended collected state r} : i ∈ ended →
      w.outcome (state.1 i) = some r →
      Step w workers ⟨waiting, running, ended, collected, state⟩
        ⟨waiting, running, ended.erase i, collected ++ [(i, r)], state⟩

def initial (w : Workload n σ κ β ρ) (store : κ → β) : Pool n σ κ β ρ :=
  ⟨List.finRange n, [], [], [], (fun _ => w.start, store)⟩

/-- The runs of a pool, under any schedule. -/
def Reaches (w : Workload n σ κ β ρ) (workers : Nat) (store : κ → β) : Pool n σ κ β ρ → Prop :=
  Relation.ReflTransGen (Step w workers) (initial w store)

/-- Every result is collected. -/
def Finished (s : Pool n σ κ β ρ) : Prop := s.waiting = [] ∧ s.running = [] ∧ s.ended = []

variable {w : Workload n σ κ β ρ} {workers : Nat} {store : κ → β} {s t : Pool n σ κ β ρ}

/-! ## 1. The tasks of a run -/

theorem interleave_of_reaches (h : Reaches w workers store s) :
    Relation.ReflTransGen (Interleave w.cell w.move) (fun _ => w.start, store) s.state := by
  induction h with
  | refl => exact .refl
  | tail _ hstep ih =>
    cases hstep with
    | work _ hmove => exact ih.tail (.move hmove)
    | handOut _ => exact ih
    | finish _ _ => exact ih
    | collect _ _ => exact ih

/-- A task in the pool is where it would be alone. -/
theorem solo (hcell : Function.Injective w.cell) (h : Reaches w workers store s) (i : Fin n) :
    Relation.ReflTransGen (w.move i) (w.start, store (w.cell i))
      (s.state.1 i, s.state.2 (w.cell i)) :=
  Interleave.solo hcell (interleave_of_reaches h) i

/-- Each task is in one of the four lists, and a collected result is that of its task. -/
structure Accounted (w : Workload n σ κ β ρ) (s : Pool n σ κ β ρ) : Prop where
  perm : (s.waiting ++ (s.running ++ (s.ended ++ s.collected.map Prod.fst))).Perm (List.finRange n)
  ended : ∀ i ∈ s.ended, (w.outcome (s.state.1 i)).isSome
  collected : ∀ e ∈ s.collected, w.outcome (s.state.1 e.1) = some e.2

theorem accounted_of_step (hs : Accounted w s) (h : Step w workers s t) : Accounted w t := by
  obtain ⟨hperm, hended, hcollected⟩ := hs
  cases h with
  | handOut _ => exact ⟨(List.perm_middle).trans hperm, hended, hcollected⟩
  | @work i waiting running ended collected locals store s b _ hmove =>
    -- a task that moves has no outcome yet
    have hkeep (k : Fin n) (hk : (w.outcome (locals k)).isSome) :
        Function.update locals i s k = locals k := by
      refine Function.update_of_ne ?_ s locals
      rintro rfl
      rw [w.outcome_of_move hmove] at hk
      cases hk
    refine ⟨hperm, fun k hk => ?_, fun e he => ?_⟩
    · dsimp only
      rw [hkeep k (hended k hk)]
      exact hended k hk
    · have hsome := hcollected e he
      dsimp only at hsome ⊢
      rw [hkeep e.1 (by rw [hsome]; rfl), hsome]
  | @finish i waiting running ended collected state hi hsome =>
    refine ⟨.trans (.append_left waiting ?_) hperm, fun k hk => ?_, hcollected⟩
    · exact List.perm_middle.trans ((List.perm_cons_erase hi).symm.append_right _)
    · rcases List.mem_cons.mp hk with rfl | hk
      · exact hsome
      · exact hended k hk
  | @collect i waiting running ended collected state r hi hr =>
    refine ⟨.trans (.append_left waiting (.append_left running ?_)) hperm, fun k hk => ?_,
      fun e he => ?_⟩
    · rw [List.map_append, List.map_singleton, ← List.append_assoc]
      refine List.perm_append_comm.trans ?_
      rw [List.singleton_append, ← List.cons_append]
      exact (List.perm_cons_erase hi).symm.append_right _
    · exact hended k (List.mem_of_mem_erase hk)
    · rcases List.mem_append.mp he with he | he
      · exact hcollected e he
      · rw [List.mem_singleton.mp he]
        exact hr

theorem accounted_of_reaches (h : Reaches w workers store s) : Accounted w s := by
  induction h with
  | refl =>
    refine ⟨?_, fun _ h => (List.not_mem_nil h).elim, fun _ h => (List.not_mem_nil h).elim⟩
    simp [initial]
  | tail _ hstep ih => exact accounted_of_step ih hstep

/-- **The end of a run.**  Each task has been collected once, with an outcome and a cell that it has
when it runs alone, and the store is otherwise as it was. -/
theorem of_finished (hcell : Function.Injective w.cell) (h : Reaches w workers store s)
    (hend : s.Finished) :
    (s.collected.map Prod.fst).Perm (List.finRange n) ∧
    (∀ e ∈ s.collected, ∃ local', Relation.ReflTransGen (w.move e.1)
      (w.start, store (w.cell e.1)) (local', s.state.2 (w.cell e.1)) ∧
      w.outcome local' = some e.2) ∧
    ∀ k, (∀ i, w.cell i ≠ k) → s.state.2 k = store k := by
  obtain ⟨hperm, _, hcollected⟩ := accounted_of_reaches h
  rw [hend.1, hend.2.1, hend.2.2] at hperm
  refine ⟨hperm, fun e he => ⟨s.state.1 e.1, solo hcell h e.1, hcollected e he⟩, fun k hk => ?_⟩
  exact Interleave.frame (interleave_of_reaches h) hk

/-- The results of tasks that have one result each. -/
theorem collected_perm (hcell : Function.Injective w.cell) (h : Reaches w workers store s)
    (hend : s.Finished) (result : Fin n → ρ) (hresult : ∀ e ∈ s.collected, e.2 = result e.1) :
    s.collected.Perm ((List.finRange n).map fun i => (i, result i)) := by
  have hcollected : s.collected = (s.collected.map Prod.fst).map fun i => (i, result i) := by
    rw [List.map_map]
    refine (List.map_id _).symm.trans (List.map_congr_left fun e he => ?_)
    exact Prod.ext rfl (hresult e he)
  rw [hcollected]
  exact (of_finished hcell h hend).1.map _

/-! ## 2. Every run ends -/

/-- A bound on the steps that are left. -/
def remaining (w : Workload n σ κ β ρ) (s : Pool n σ κ β ρ) : Nat :=
  3 * s.waiting.length + 2 * s.running.length + s.ended.length +
    ∑ i, w.remaining i (s.state.1 i)

theorem remaining_lt (h : Step w workers s t) : remaining w t < remaining w s := by
  cases h with
  | handOut _ => simp only [remaining, List.length_cons]; omega
  | @work i waiting running ended collected locals store s b hi hmove =>
    have hstep : Interleave w.cell w.move (locals, store)
        (Function.update locals i s, Function.update store (w.cell i) b) := .move hmove
    have hsum := hstep.sum_lt w.remaining fun _ _ _ => w.remaining_lt
    simp only [remaining]
    exact Nat.add_lt_add_left hsum _
  | finish hi _ =>
    have hpos := List.length_pos_of_mem hi
    simp only [remaining, List.length_erase_of_mem hi, List.length_cons]
    omega
  | collect hi _ =>
    have hpos := List.length_pos_of_mem hi
    simp only [remaining, List.length_erase_of_mem hi]
    omega

/-- A pool with a worker is never stuck before its end. -/
theorem step_of_not_finished (hworkers : 0 < workers) (hcell : Function.Injective w.cell)
    (h : Reaches w workers store s) (hleft : ¬ s.Finished) : ∃ t, Step w workers s t := by
  have hended := (accounted_of_reaches h).ended
  have hsolo := solo hcell h
  obtain ⟨waiting, running, ended, collected, ⟨locals, store'⟩⟩ := s
  cases ended with
  | cons i ended =>
    obtain ⟨r, hr⟩ := Option.isSome_iff_exists.mp (hended i List.mem_cons_self)
    exact ⟨_, .collect List.mem_cons_self hr⟩
  | nil =>
    cases running with
    | cons i running =>
      rcases w.progress (hsolo i) with hsome | ⟨⟨local', b⟩, hmove⟩
      · exact ⟨_, .finish List.mem_cons_self hsome⟩
      · exact ⟨_, .work List.mem_cons_self hmove⟩
    | nil =>
      cases waiting with
      | cons i waiting => exact ⟨_, .handOut hworkers⟩
      | nil => exact absurd ⟨rfl, rfl, rfl⟩ hleft

theorem reaches_finished (hworkers : 0 < workers) (hcell : Function.Injective w.cell)
    (hs : Reaches w workers store s) :
    ∃ t, Relation.ReflTransGen (Step w workers) s t ∧ t.Finished := by
  induction s using (measure (remaining w)).wf.induction with
  | h s ih =>
    by_cases hend : s.Finished
    · exact ⟨s, .refl, hend⟩
    · obtain ⟨t, hst⟩ := step_of_not_finished hworkers hcell hs hend
      obtain ⟨u, hu, hend⟩ := ih t (remaining_lt hst) (hs.tail hst)
      exact ⟨u, .head hst hu, hend⟩

theorem wellFounded_step : WellFounded fun t s => Step w workers s t :=
  Subrelation.wf (fun h => remaining_lt h) (measure (remaining w)).wf

end Pool

end LinuxAnalysis.Lib
