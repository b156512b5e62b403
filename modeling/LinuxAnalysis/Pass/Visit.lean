import LinuxAnalysis.Pass.Invariant
import LinuxAnalysis.Pass.ScanSpec

/-!
# Visits

A step of the machine either visits one element of an innermost `for` loop or chooses what comes
next.  A fact about some of the visits only, such as the loads of a scan or the stores on the
worklist, is proved by cases on the visit; the other visits keep it by the updates they consist of.
-/

open LinuxAnalysis.Lib

namespace LinuxAnalysis

/-- An innermost loop is at one of its elements. -/
def Control.visits : Control → Bool
  | .seeding (_ :: _) _ _ | .forwardUsers _ (_ :: _) | .killStores (_ :: _)
  | .forwardLoads _ (_ :: _) _ | .returningCalls _ (_ :: _) | .paramCalls _ (_ :: _)
  | .upwardUsers _ _ (_ :: _) | .upwardLoads _ _ (_ :: _) _ => true
  | _ => false

/-- What the step from a point does to the state: the visit it makes, with what the loop knows of the
element visited. -/
inductive Visit (M : Module) (cfg : Config) (addr : Value → Nat) : Point → PassState → Prop where
  | seed {i op rest n found s} : i ∈ seedCandidates M cfg → op ∈ M.operands i →
      Visit M cfg addr ⟨.seeding ((i, op) :: rest) n found, s⟩
        (seedOperand M cfg i ⟨s, n, found⟩ op).pass
  | forwardUser {v u rest s} : v ∈ s.taintedValues → u ∈ M.users v →
      Visit M cfg addr ⟨.forwardUsers v (u :: rest), s⟩ (s.forwardUser M cfg addr v u)
  | kill {i rest s} : i ∈ M.insts →
      Visit M cfg addr ⟨.killStores (i :: rest), s⟩ (s.identifyKillStore M i)
  | forwardLoad {ptrs p i rest changed s} : p ∈ s.taintedPointers → i ∈ M.insts →
      Visit M cfg addr ⟨.forwardLoads ptrs ((p, i) :: rest) changed, s⟩
        (PassState.scanLoad M true p (s, changed) i).1
  | returningCall {old f i rest s} : f ∈ s.functionsReturningTaint → i ∈ M.insts →
      Visit M cfg addr ⟨.returningCalls old ((f, i) :: rest), s⟩ (s.taintReturningCall M f i)
  | paramCall {old e i rest s} : (∀ n ∈ e.2, s.TaintsParam e.1 n) → i ∈ M.insts →
      Visit M cfg addr ⟨.paramCalls old ((e, i) :: rest), s⟩ (s.upwardCallSite M e.1 e.2 i)
  | upwardUser {old v u rest s} : v ∈ s.taintedValues → u ∈ M.users v →
      Visit M cfg addr ⟨.upwardUsers old v (u :: rest), s⟩ (s.upwardUser M v u)
  | upwardLoad {old ptrs p i rest changed s} : p ∈ s.taintedPointers → i ∈ M.insts →
      Visit M cfg addr ⟨.upwardLoads old ptrs ((p, i) :: rest) changed, s⟩
        (PassState.scanLoad M false p (s, changed) i).1
  | choice {m t} : m.control.visits = false → m.state.Bookkeeping t →
      t.functionParamFieldAccess = m.state.functionParamFieldAccess → Visit M cfg addr m t

namespace Point

variable {M : Module} {cfg : Config} {addr : Value → Nat}

theorem step_visit {m m' : Point} (hm : m.Valid M cfg) (h : step M cfg addr m = some m') :
    Visit M cfg addr m m'.state := by
  have hpending := hm.pending
  have hsame : m.state.Bookkeeping m.state := ⟨rfl, rfl, rfl, rfl, rfl, rfl, rfl, rfl, rfl⟩
  cases transition_of_step h with
  | seedOperand =>
    obtain ⟨hi, hop⟩ := hpending _ List.mem_cons_self
    exact .seed hi hop
  | forwardUser => exact .forwardUser hpending.1 (hpending.2 _ List.mem_cons_self)
  | killStore => exact .kill (hpending _ List.mem_cons_self)
  | forwardLoad =>
    obtain ⟨hp, hi⟩ := hpending _ List.mem_cons_self
    exact .forwardLoad hp hi
  | returningCall =>
    obtain ⟨hf, hi⟩ := hpending _ List.mem_cons_self
    exact .returningCall hf hi
  | paramCall =>
    obtain ⟨hparams, hi⟩ := hpending _ List.mem_cons_self
    exact .paramCall hparams hi
  | upwardUser => exact .upwardUser hpending.1 (hpending.2 _ List.mem_cons_self)
  | upwardLoad =>
    obtain ⟨hp, hi⟩ := hpending _ List.mem_cons_self
    exact .upwardLoad hp hi
  | @upwardTurnEnd old s =>
    show Visit M cfg addr _ (s.compareSizes old)
    unfold PassState.compareSizes
    split
    · exact .choice rfl ⟨rfl, rfl, rfl, rfl, rfl, rfl, rfl, rfl, rfl⟩ rfl
    · exact .choice rfl hsame rfl
  | forwardEnd | forwardDrained | forwardUsersEnd | killStoresEnd | upwardSkip | upwardEnd
  | returningCallsEnd | paramCallsEnd | upwardScan | upwardUsersEnd => exact .choice rfl hsame rfl
  | seeded | forwardTurn | forwardPop | forwardLoadsEnd | upwardStart | upwardTurn | upwardPop
  | upwardLoadsEnd =>
    -- flags, marks and the worklist are no part of what visits grow
    exact .choice rfl ⟨rfl, rfl, rfl, rfl, rfl, rfl, rfl, rfl, rfl⟩ rfl

/-- A visit adds to the sets and records, a choice leaves them. -/
theorem extends_of_visit {m : Point} {t : PassState} (h : Visit M cfg addr m t) :
    m.state.Extends t ∨ m.state.Bookkeeping t := by
  have hupward {s t : PassState} (hsteps : Relation.ReflTransGen (PassState.UpwardStep M s) s t) :
      s.Extends t :=
    PassState.extends_of_steps (fun _ _ => PassState.UpwardStep.extends) hsteps
  cases h with
  | @seed i op rest n found s _ _ => exact .inl (extends_seedOperand M cfg i ⟨s, n, found⟩ op)
  | @forwardUser v u rest s _ _ => exact .inl (PassState.extends_forwardUser M cfg addr v s u)
  | @kill i rest s _ => exact .inl (PassState.extends_identifyKillStore M s i)
  | @forwardLoad ptrs p i rest changed s _ _ =>
    exact .inl (PassState.extends_scanLoad M true p (s, changed) i)
  | returningCall hf hi => exact .inl (hupward (PassState.taintReturningCall_steps hf hi))
  | paramCall hparams hi => exact .inl (hupward (PassState.upwardCallSite_steps hparams hi))
  | upwardUser hv hu => exact .inl (hupward (PassState.upwardUser_steps hv hu))
  | @upwardLoad old ptrs p i rest changed s _ _ =>
    exact .inl (PassState.extends_scanLoad M false p (s, changed) i)
  | choice _ hbook _ => exact .inr hbook

/-- Recorded parameters stay. -/
theorem taintsParam_of_reaches {m m' : Point} (hm : Reachable M cfg addr m)
    (h : Reaches (step M cfg addr) m m') {f n : Nat} (hparam : m.state.TaintsParam f n) :
    m'.state.TaintsParam f n := by
  refine (h.invariant (I := fun m => Reachable M cfg addr m ∧ m.state.TaintsParam f n)
    (fun a b ha hab => ⟨ha.1.trans (.single hab), ?_⟩) ⟨hm, hparam⟩).2
  rcases extends_of_visit (step_visit (valid_of_reachable ha.1) hab) with hext | hbook
  · exact hext.taintsParam f n ha.2
  · rw [PassState.TaintsParam, hbook.functionsTaintingPointerParams]
    exact ha.2

end Point

end LinuxAnalysis
