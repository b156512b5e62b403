import LinuxAnalysis.Pass.LevelCoverage
import LinuxAnalysis.Pass.LevelOffers
import LinuxAnalysis.Pass.TurnLevels
import LinuxAnalysis.Pass.UpwardWorklist

/-!
# Visits of two runs

While nothing tainted is stored, nothing is read back from memory, and two runs taint the same values
by the same visits, however they are ordered.  What may differ is the choice among the targets of an
indirect call.
-/

open LinuxAnalysis.Lib

namespace LinuxAnalysis

section Relation

variable (M : Module) (cfg : Config)

/-- The targets of an indirect call are looked up under its pointer, or the entries of the table with
the pattern of the pointer hold the same targets. -/
def TargetsFixed (called : Value) : Prop :=
  ∀ load gep, called = .inst load → M.kind load = .load (.inst gep) →
    .inst gep ∉ (initialPoint M cfg).state.functionPointerTargets →
    M.stripPointerCasts (.inst gep) ∉ (initialPoint M cfg).state.functionPointerTargets →
    ∀ e ∈ (initialPoint M cfg).state.functionPointerTargets.entries,
    ∀ e' ∈ (initialPoint M cfg).state.functionPointerTargets.entries,
    ∀ g g', e.1 = .inst g → e'.1 = .inst g' → M.sameGEPPattern gep g = true →
      M.sameGEPPattern gep g' = true → e.2 = e'.2

/-- The functions that the forward loop enters at an indirect call do not depend on the addresses. -/
def TargetsSettled (addr : Value → Nat) : Prop :=
  cfg.interprocMode = true → cfg.indirectCallMode = true →
    ∀ v level u called same args bundles, Carries M cfg addr v level → u ∈ M.users v →
      M.kind u = .call called same args bundles → M.calledFunction u = none → TargetsFixed M cfg called

end Relation

variable {M : Module} {cfg : Config} {addr₁ addr₂ : Value → Nat}

/-! ## The targets of an indirect call -/

theorem callTargets_congr {called : Value} (h : TargetsFixed M cfg called) :
    callTargets M cfg addr₁ called = callTargets M cfg addr₂ called := by
  unfold callTargets PassState.indirectTargets
  split
  next load =>
    split
    next ptr hkind =>
      split
      next => rfl
      next => rfl
      next gep hnone hnone' =>
        refine congrArg (Option.getD · []) (find?_sortOn_congr (fun e he e' he' hm hm' => ?_) _ _)
        split at hm
        next g hg =>
          split at hm'
          next g' hg' =>
            exact h load gep rfl hkind (AList.lookup_eq_none.mp hnone) (AList.lookup_eq_none.mp hnone')
              e he e' he' g g' hg hg' hm hm'
          next => cases hm'
        next => cases hm
      next => rfl
    next => rfl
  next => rfl

/-! ## The forward phase -/

theorem TargetsSettled.flowsVia (hsettled : TargetsSettled M cfg addr₁) {v w : Value}
    {level : Int} (hv : Carries M cfg addr₁ v level) {u : InstId} (hu : u ∈ M.users v) :
    FlowsVia M cfg addr₁ v u w ↔ FlowsVia M cfg addr₂ v u w := by
  refine or_congr_right (exists_congr fun a => and_congr_right fun _ => ?_)
  refine and_congr_right fun hmode => and_congr_right fun _ => ?_
  refine exists_congr fun called => exists_congr fun same => exists_congr fun args =>
    exists_congr fun bundles => and_congr_right fun hkind => and_congr_right fun _ => ?_
  refine or_congr_right (and_congr_right fun hcall => and_congr_right fun hindirect => ?_)
  rw [callTargets_congr (hsettled hmode hindirect v level u called same args bundles hv hu hkind hcall)]

theorem TargetsSettled.carries (hsettled : TargetsSettled M cfg addr₁) {v : Value}
    {level : Int} : Carries M cfg addr₁ v level ↔ Carries M cfg addr₂ v level := by
  constructor
  · intro hv
    induction hv with
    | seed hv hlevel => exact .seed hv hlevel
    | use hv hu hvia hnew ih => exact .use ih hu ((hsettled.flowsVia hv hu).mp hvia) hnew
    | @parameter v u a level hv hu henter hnew ih =>
      have hvia : FlowsVia M cfg addr₂ v u (.arg a) :=
        (hsettled.flowsVia hv hu).mp (.inr ⟨a, rfl, henter⟩)
      rcases hvia with ⟨he, _⟩ | ⟨b, he, henter'⟩
      · cases he
      · cases he
        exact .parameter ih hu henter' hnew
  · intro hv
    induction hv with
    | seed hv hlevel => exact .seed hv hlevel
    | use hv hu hvia hnew ih => exact .use ih hu ((hsettled.flowsVia ih hu).mpr hvia) hnew
    | @parameter v u a level hv hu henter hnew ih =>
      have hvia : FlowsVia M cfg addr₁ v u (.arg a) :=
        (hsettled.flowsVia ih hu).mpr (.inr ⟨a, rfl, henter⟩)
      rcases hvia with ⟨he, _⟩ | ⟨b, he, henter'⟩
      · cases he
      · cases he
        exact .parameter ih hu henter' hnew

/-- A value reached from the seeds and returned is found when the forward phase visits the return. -/
theorem mem_forwardPhase_of_carriesReturn {addr : Value → Nat} {fuel : Nat} {s : PassState}
    (h : forwardPhase M cfg addr fuel = some s) {f : Nat} (hf : CarriesReturn M cfg addr f) :
    f ∈ s.functionsReturningTaint := by
  obtain ⟨v, level, hcarries, u, hu, hkind, rfl⟩ := hf
  have hv := mem_forwardPhase_of_carries h hcarries
  refine Point.forwardPhase_done (D := fun v u s => M.kind u = .ret (some v) →
    u.func ∈ s.functionsReturningTaint) (fun v u s t hext hdone hkind => ?_)
    (fun v u s t hbook hdone hkind => ?_) (fun v u rest s _ hkind => ?_) h hv hu hkind
  · exact hext.functionsReturningTaint _ (hdone hkind)
  · rw [hbook.functionsReturningTaint]
    exact hdone hkind
  · unfold PassState.forwardUser
    dsimp only
    rw [hkind]
    simp only [if_true]
    exact DenseSet.mem_insert.mpr (.inl rfl)

namespace PassState

/-- A state that has tainted and recorded no more than the sets given, and nothing about memory. -/
structure Confined (T : DenseSet Value) (R : DenseSet Nat) (s : PassState) : Prop where
  values : s.taintedValues ⊆ T
  returning : s.functionsReturningTaint ⊆ R
  pointers : ∀ p, p ∉ s.taintedPointers
  params : ∀ f n, ¬ s.TaintsParam f n

variable {T : DenseSet Value} {R : DenseSet Nat} {s : PassState}

theorem Confined.taintReturningCall (hs : Confined T R s) {f : Nat} {i : InstId}
    (hcall : M.calledFunction i = some f → .inst i ∈ T) : Confined T R (s.taintReturningCall M f i) := by
  unfold PassState.taintReturningCall
  split
  next hf =>
    split
    next => exact hs
    next =>
      have hset : Confined T R (s.setValueLevel (.inst i) (s.calleeLevel f + 1)) := { hs with }
      have hinit : Confined T R ((s.setValueLevel (.inst i) (s.calleeLevel f + 1)).initFunctionLevel
          i.func (s.calleeLevel f + 1)) := by
        unfold initFunctionLevel
        split
        · exact hset
        · exact { hset with }
      refine { hinit with values := fun v hv => ?_ }
      rcases DenseSet.mem_insert.mp hv with rfl | hv
      · exact hcall hf
      · exact hinit.values v hv
  next => exact hs

theorem Confined.upwardCallSite (hs : Confined T R s) {f : Nat} {params : DenseSet Nat}
    (hparams : ∀ n ∈ params, s.TaintsParam f n) (i : InstId) :
    Confined T R (s.upwardCallSite M f params i) := by
  -- no parameter is on record
  have hnone : sortOn id params.elems = [] := by
    apply List.eq_nil_iff_forall_not_mem.mpr
    intro n hn
    exact hs.params f n (hparams n (mem_sortOn.mp hn))
  unfold PassState.upwardCallSite
  split
  · split
    · rw [hnone]
      exact hs
    · exact hs
  · exact hs

theorem Confined.upwardUser (hs : Confined T R s) {v : Value} {u : InstId}
    (hstore : ∀ ptr, M.kind u ≠ .store v ptr)
    (hfresh : .inst u ∉ s.taintedValues → .inst u ∈ T ∧ ∀ value, M.kind u = .ret (some value) →
      u.func ∈ R) : Confined T R (s.upwardUser M v u) := by
  by_cases hold : .inst u ∈ s.taintedValues
  · rw [PassState.upwardUser, if_pos hold]
    exact hs
  · obtain ⟨huser, hret⟩ := hfresh hold
    have hused : Confined T R ((s.setValueLevel (.inst u) (s.getLevel v)).taintValue (.inst u)) := by
      refine { hs with values := fun w hw => ?_ }
      rcases DenseSet.mem_insert.mp hw with rfl | hw
      · exact huser
      · exact hs.values w hw
    rw [PassState.upwardUser, if_neg hold]
    dsimp only
    rw [processStoreForTaint_of_no_store hstore]
    unfold upwardReturn
    split
    next value hkind =>
      split
      next =>
        refine { hused with returning := fun f hf => ?_ }
        rcases DenseSet.mem_insert.mp hf with rfl | hf
        · exact hret value hkind
        · exact hs.returning f hf
      next => exact hused
    next => exact hused

end PassState

section TwoRuns

variable {fuel₁ fuel₂ : Nat} {s₁ s₂ t₁ t₂ : PassState}

end TwoRuns

end LinuxAnalysis
